import QubitLab.Statistics.Basic
import QubitLab.Value.Basic

/-!
# Peaks and dips

Peaks are sought among the points that stand out of the background: the points above a threshold, some standard
deviations above the mean of the lowest points. Their places are grouped into ranges, and each range gives
the place of its best point. The same search with the order reversed gives the dips. The search works in any ordered
arithmetic.

A signal is smoothed by a window that slides over it; at both ends the signal goes on as its mirror image. The
window has an odd number of points.
-/

namespace QubitLab.Spectrum

/-! ## Peaks and dips -/

/-- How data are summed up, and the weights of a smoothing window by its number of points. -/
structure Background (α : Type) where
  percentile : α → List α → α
  mean : List α → α
  deviation : List α → α
  weights : Nat → List α

/-! ## Ranges of places -/

/-- A search for ranges: whether one is open, its ends, and the place that would continue it. -/
structure RangeState where
  isOpen : Bool
  low : Nat
  high : Nat
  next : Nat

/-- Adds a place to the search; ranges are noted as they grow. A place that does not continue the open range
closes it and is not itself the start of one: the next range starts where the closed one would have gone on. -/
def RangeState.add (s : RangeState) (i : Nat) : RangeState × List (Nat × Nat) :=
  if s.isOpen then
    if s.next = i then ({ s with high := s.next, next := s.next + 1 }, [(s.low, s.next)])
    else ({ s with isOpen := false }, [(s.low, s.high), (s.low, s.high)])
  else ({ isOpen := true, low := s.next, high := s.next, next := i + 1 }, [(s.next, s.next)])

def rangesFrom (s : RangeState) : List Nat → List (Nat × Nat)
  | [] => []
  | i :: r => (s.add i).2 ++ rangesFrom (s.add i).1 r

def ranges : List Nat → List (Nat × Nat)
  | [] => []
  | i :: r => rangesFrom ⟨false, i, i, i⟩ (i :: r)

section Search

variable {α : Type}

/-- The place of the best entry, given the best one before place `i` and its own place. -/
def bestFrom (beats : α → α → Bool) (best : α) (place i : Nat) : List α → Nat
  | [] => place
  | y :: ys => if beats y best then bestFrom beats y i (i + 1) ys else bestFrom beats best place (i + 1) ys

def bestOf (beats : α → α → Bool) : List α → Nat
  | [] => 0
  | x :: xs => bestFrom beats x 0 1 xs

/-- The place of the best entry in a range without its last place; a range of one place is that place. -/
def bestInRange (beats : α → α → Bool) (ys : List α) (range : Nat × Nat) : Nat :=
  if range.1 = range.2 then range.1 else range.1 + bestOf beats ((ys.take range.2).drop range.1)

def bestPlaces (beats : α → α → Bool) (ys : List α) (places : List Nat) : List Nat :=
  let found := (ranges places).map (bestInRange beats ys)
  (List.range ys.length).filter found.contains

def placesWhere (p : α → Bool) (ys : List α) : List Nat := (List.range ys.length).filter fun i => ys[i]?.any p

variable [Sub α] [Div α] [NatCast α]

/-- The approximate width of the `i`-th extreme, at a place: from points around it, wider for later ones. -/
def widthAt? (xs : List α) (i place : Nat) : Option α :=
  let n := xs.length
  let fifth (a b : Nat) : Option α := do return ((← xs[a]?) - (← xs[b]?)) / ((5 : Nat) : α)
  if place + i + 1 < n ∧ i + 1 ≤ place then fifth (place + i + 1) (place - i - 1)
  else if n < place + i + 1 ∧ i + 1 ≤ place then fifth place (place - i)
  else if place + i + 1 < n ∧ place < i + 1 then fifth (place + i) place
  else some ((5000000 : Nat) : α)

/-- The extremes of one kind: their places, widths and values, and which is reported as the main one and which
gives the main width. -/
structure Extremes (α : Type) where
  places : List Nat
  widths : List α
  values : List α
  main : Nat
  mainWidth : Nat

def extremes? (beats widthBeats : α → α → Bool) (xs ys : List α) (places : List Nat) : Option (Extremes α) := do
  let ps := bestPlaces beats ys places
  let widths ← (ps.zip (List.range ps.length)).mapM fun (p, i) => widthAt? xs i p
  if ps.any fun p => xs.length ≤ p then none
  let values := ps.filterMap fun p => ys[p]?
  return { places := ps, widths := widths, values := values,
           main := bestOf beats values, mainWidth := bestOf widthBeats values }

end Search

/-! ## Thresholds -/

section Thresholds

variable {α : Type} [LT α] [DecidableLT α] [Add α] [Sub α] [Mul α]

def peakPlaces (b : Background α) (percent sigmas : α) (ys : List α) : List Nat :=
  let limit := b.percentile percent ys
  let low := ys.filter fun y => y < limit
  let threshold := b.mean low + sigmas * b.deviation low
  placesWhere (fun y => threshold < y) ys

def dipPlaces (b : Background α) (hundred percent sigmas : α) (ys : List α) : List Nat :=
  let limit := b.percentile (hundred - percent) ys
  let high := ys.filter fun y => limit < y
  let threshold := b.mean high - sigmas * b.deviation high
  placesWhere (fun y => y < threshold) ys

variable [Div α] [NatCast α]

def peaks? (b : Background α) (percent sigmas : α) (xs ys : List α) : Option (Option (Extremes α)) :=
  match peakPlaces b percent sigmas ys with
  | [] => some none
  | ps => (extremes? (fun y z => z < y) (fun y z => z < y) xs ys ps).map some

/-- The dips of smoothed data; the deepest one is the main dip, its width is taken from the shallowest. -/
def dips? (b : Background α) (hundred percent sigmas : α) (xs ys : List α) : Option (Option (Extremes α)) :=
  match dipPlaces b hundred percent sigmas ys with
  | [] => some none
  | ps => (extremes? (fun y z => y < z) (fun y z => z < y) xs ys ps).map some

end Thresholds

/-! ## Smoothing -/

/-- The signal with its mirror images in front and behind, `m - 1` samples each. -/
def mirrored {α : Type} (m : Nat) (xs : List α) : List α :=
  ((xs.take m).drop 1).reverse ++ xs ++ xs.reverse.take (m - 1)

inductive SmoothingError
  | axes
  | short
  | window
  deriving DecidableEq

def SmoothingError.message : SmoothingError → String
  | .axes => "smooth only accepts 1 dimension arrays."
  | .short => "Input vector needs to be bigger than window size."
  | .window => "Window is on of 'flat', 'hanning', 'hamming', 'bartlett', 'blackman'"

section Smoothing

variable {α : Type} [Zero α] [Add α] [Mul α]

def smoothed (weights : List α) (m : Nat) (xs : List α) : List α :=
  let long := mirrored m xs
  let full := (List.range (long.length + 1 - m)).map fun i => Signal.dot ((long.drop i).take m) weights.reverse
  ((full.drop ((m - 1) / 2)).reverse.drop ((m - 1) / 2)).reverse

/-- The signal smoothed by a window of `m` points, one more if `m` is even; fewer than three points leave the
signal as it is, and then the window does not matter. -/
def smooth (weights : Option (Nat → List α)) (m : Int) (xs : List α) : Except SmoothingError (List α) :=
  let m := if m % 2 = 0 then m + 1 else m
  if (xs.length : Int) < m then .error .short
  else if m < 3 then .ok xs
  else
    match weights with
    | none => .error .window
    | some w => .ok (smoothed (w m.toNat) m.toNat xs)

end Smoothing

inductive Window
  | flat
  | hanning
  | hamming
  | bartlett
  | blackman
  deriving DecidableEq

def Window.ofName? : String → Option Window
  | "flat" => some .flat
  | "hanning" => some .hanning
  | "hamming" => some .hamming
  | "bartlett" => some .bartlett
  | "blackman" => some .blackman
  | _ => none

def Window.weights (w : Window) (m : Nat) : List Float :=
  let shape := (List.range m).map fun i =>
    let n := 2 * i.toFloat + 1 - m.toFloat
    let t := Function.pi * n / (m.toFloat - 1)
    match w with
    | .flat => 1
    | .hanning => 0.5 + 0.5 * Float.cos t
    | .hamming => 0.54 + 0.46 * Float.cos t
    | .bartlett => if n ≤ 0 then 1 + n / (m.toFloat - 1) else 1 - n / (m.toFloat - 1)
    | .blackman => 0.42 + 0.5 * Float.cos t + 0.08 * Float.cos (2 * t)
  let s := Statistics.sum shape
  shape.map (· / s)

def background : Background Float :=
  ⟨Statistics.percentile, Statistics.mean, Statistics.deviation, Window.hanning.weights⟩

end QubitLab.Spectrum
