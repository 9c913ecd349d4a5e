import QubitLab.Decimal.Binary
import QubitLab.Spectrum.Peaks

/-!
# Searching spectra

`look` smooths the data and finds peaks and dips. `refine` repeats the search with a growing threshold as long as the
main feature is not the most extreme point and several were found.
-/

namespace QubitLab.Spectrum

inductive Feature
  | peak
  | dip
  deriving DecidableEq

section Look

variable {α : Type}

structure Findings (α : Type) where
  sought : Option Feature
  peaks : Option (Extremes α)
  dips : Option (Extremes α)

def Findings.ofKind (f : Findings α) : Feature → Option (Extremes α)
  | .peak => f.peaks
  | .dip => f.dips

def Extremes.mainPlace (e : Extremes α) : Nat := e.places.getD e.main 0

def Extremes.width [Zero α] (e : Extremes α) : α := e.widths.getD e.mainWidth 0

structure Settings (α : Type) where
  percent : α
  sigmas : α
  window : Int

def SmoothingError.fault (e : SmoothingError) : Fault := { kind := .value, message := some e.message }

variable [LT α] [DecidableLT α] [LE α] [DecidableLE α] [Zero α] [Add α] [Sub α] [Mul α] [Div α] [NatCast α]

def look (b : Background α) (s : Settings α) (key : Option Feature) (xs ys : List α) : Attempt (Findings α) := do
  let hundred : α := (100 : Nat)
  let ys ← (smooth (some b.weights) s.window ys).mapError SmoothingError.fault
  if !(0 ≤ s.percent && s.percent ≤ hundred) then fail .value
  let peaks ← orFail .index (peaks? b s.percent s.sigmas xs ys)
  let dips ← orFail .index (dips? b hundred s.percent s.sigmas xs ys)
  return { sought := key, peaks := if key = some .dip then none else peaks,
           dips := if key = some .peak then none else dips }

end Look

def refineFrom (s : Settings Float) (kind : Feature) (xs ys test : List Float) (top : Float) :
    Nat → Findings Float → Attempt (Findings Float)
  | 0, found => .ok found
  | fuel + 1, found => do
    match found.ofKind kind with
    | none => fail .value
    | some e =>
      if test.getD e.mainPlace 0 < top && s.sigmas < 100 && e.places.length > 1 then
        let next ← look background { s with sigmas := s.sigmas + 1 } (some kind) xs ys
        match next.ofKind kind with
        | none => return found
        | some _ => refineFrom { s with sigmas := s.sigmas + 1 } kind xs ys test top fuel next
      else return found

def dominant (ys : List Float) (found : Findings Float) : Feature × Bool :=
  match found.dips, found.peaks with
  | none, _ => (.peak, false)
  | some _, none => (.dip, true)
  | some d, some p =>
    let dip := (ys.getD d.mainPlace 0).abs
    let peak := (ys.getD p.mainPlace 0).abs
    if dip < peak then (.peak, false) else if peak < dip then (.dip, true) else (.peak, false)

def refine (s : Settings Float) (key : Option Feature) (xs ys : List Float) : Attempt (Findings Float) := do
  let found ← look background s key xs ys
  let (kind, isTurned) := match key with
    | some k => (k, false)
    | none => dominant ys found
  let test := if isTurned then ys.map (- ·) else ys
  let top ← orFail .value (Statistics.maximum? test)
  match found.ofKind kind with
  | none => if ys.length = 1 then return found else fail .value
  | some _ =>
    let fuel := ((Decimal.ceil? (100 - s.sigmas)).getD 0).toNat + 1
    refineFrom s kind xs ys test top fuel found

def search (isRefined : Bool) (s : Settings Float) (key : Option Feature) (xs ys : List Float) : Attempt (Findings Float) :=
  if isRefined then refine s key xs ys else look background s key xs ys

end QubitLab.Spectrum
