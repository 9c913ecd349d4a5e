import QubitLab.Console.Readout
import QubitLab.Spectrum.Search

/-!
# Commands on spectra

Smoothing, and the search for peaks and dips.
-/

namespace QubitLab.Console

open Spectrum

def entriesAtPlaces (v : Value) (places : List Nat) : Value :=
  mapTensor (fun t => .ofArray (places.filterMap fun i => t.data[i]?).toArray) v

def entryAt (v : Value) (place : Nat) : Value :=
  match v with
  | .ints t => .int (t.data.getD place 0)
  | .reals t => .real (t.data.getD place 0)
  | .bools t => .bool (t.data.getD place false)
  | v => v

def windowArg (v : Value) : Option Window := v.text?.bind Window.ofName?

def smoothArray (window : Option Window) (points x : Value) : Attempt Value := do
  let m ← readInt points
  if isScalar x then fail .member
  let t ← floatTensor x
  if t.shape.length ≠ 1 then .error SmoothingError.axes.fault
  let xs := t.data.toList
  let ys ← (smooth (window.map Window.weights) m xs).mapError SmoothingError.fault
  if (if m % 2 = 0 then m + 1 else m) < 3 then return x else return seriesValue ys

/-- What a word asks to search for; another word asks for both. -/
def featureArg (v : Value) : Option Feature :=
  match v.text? with
  | some "peak" => some .peak
  | some "dip" => some .dip
  | _ => none

def extremeFields (name : String) (sought : Bool) (xs ys : Value) (e : Option (Extremes Float)) : Fields :=
  match e with
  | some e => [
      (name, entryAt xs e.mainPlace), (name ++ "_idx", .ofNat e.mainPlace),
      (name ++ "_values", entriesAtPlaces ys e.places), (name ++ "_width", .real e.width),
      (name ++ "_widths", .list (e.widths.map .real)), (name ++ "s", entriesAtPlaces xs e.places),
      (name ++ "s_idx", .ofNats e.places)]
  | none => [
      (name, .null), (name ++ "_idx", .null), (name ++ "_values", if sought then .null else .list []),
      (name ++ "_width", .null), (name ++ "_widths", .list []), (name ++ "s", .list []),
      (name ++ "s_idx", .list [])]

def findingsValue (window xs ys : Value) (f : Findings Float) : Attempt Value := do
  let ys ← smoothArray (some .hanning) window ys
  return .record (extremeFields "peak" (f.sought != some .dip) xs ys f.peaks ++
    extremeFields "dip" (f.sought != some .peak) xs ys f.dips)

def searchSettings (percent sigmas window : Value) : Attempt (Settings Float) := do
  return ⟨← floatArg percent, ← floatArg sigmas, ← readInt window⟩

def spectrumCommands : List Command := [
  define "at.smooth" "x* window_len=11 window=hanning" fun a =>
    smoothArray (windowArg (a "window")) (a "window_len") (a "x"),
  define "at.look_for_peaks_dips" "x* y_smoothed* percentile=20 window_len=11 num_sigma_threshold=5 key?" fun a => do
    discard (smoothArray (some .hanning) (a "window_len") (a "y_smoothed"))
    let s ← searchSettings (a "percentile") (a "num_sigma_threshold") (a "window_len")
    let key := featureArg (a "key")
    let xs ← seriesArg .member (a "x")
    let found ← look background s key xs (← seriesArg .member (a "y_smoothed"))
    findingsValue (a "window_len") (a "x") (a "y_smoothed") found,
  define "at.peak_finder" "x* y* percentile=20 num_sigma_threshold=5 window_len=11 key? optimize-" fun a => do
    discard (smoothArray (some .hanning) (a "window_len") (a "y"))
    let s ← searchSettings (a "percentile") (a "num_sigma_threshold") (a "window_len")
    let key := featureArg (a "key")
    let xs ← seriesArg .member (a "x")
    let ys ← seriesArg .member (a "y")
    if (a "optimize").truth && key.isNone && !(a "key").isNull then fail .key
    findingsValue (a "window_len") (a "x") (a "y") (← search (a "optimize").truth s key xs ys)]

end QubitLab.Console
