import QubitLab.Console.Clifford
import QubitLab.Readout.Butterfly
import QubitLab.Readout.Outcomes

/-!
# Commands on measured outcomes

Series of outcomes and the errors in them, butterfly experiments, and shots that are kept or left out.
-/

namespace QubitLab.Console

open Readout

/-! ## Series -/

def entriesArg (v : Value) : Attempt (List Value) :=
  match v with
  | .list xs | .tuple xs => .ok xs
  | .text s => .ok (s.toList.map fun c => .text c.toString)
  | .ints t => .ok (t.data.toList.map .int)
  | .reals t => .ok (t.data.toList.map .real)
  | .bools t => .ok (t.data.toList.map .bool)
  | _ => fail .sort

/-- Two whole numbers for true and false, as an array; an array without entries is one of doubles. -/
def wholeMarks (yes no : Int) (bs : List Bool) : Value :=
  if bs.isEmpty then seriesValue [] else .ofIntArray (bs.map fun b => if b then yes else no).toArray

def errorMarks (single : Value → Value → Bool) (double : Value → Value → Value → Bool) (v : Value) : Attempt Value := do
  let xs ← entriesArg v
  if xs.length < 2 then fail .value
  let (a, b) := markErrors single double xs
  let marks (bs : List Bool) : Value := seriesValue (bs.map fun b => if b then 1 else 0)
  return .list [marks a, marks b]

def outcomeCommands : List Command := [
  define "dm.count_rounds_to_error" "series" fun a => do
    let xs ← entriesArg (a "series")
    if xs.isEmpty then fail .index
    match firstChange? xs with
    | some i => return .ofNat i
    | none => return .real (0 / 0),
  define "dm.count_rtf_and_term_cond" "series only_count_min_1- return_termination_condition+" fun a => do
    let xs ← entriesArg (a "series")
    let first ← orFail .index xs.head?
    let (rounds, ending) := match firstChange? xs with
      | some i => (i, Value.text (endingAt xs i).text)
      | none => (xs.length + 1, .null)
    let rounds := if (a "only_count_min_1").truth && first == .int 1 then 1 else rounds
    if (a "return_termination_condition").truth then return .list [.ofNat rounds, ending]
    else return .ofNat rounds,
  define "dm.count_rounds_since_flip" "series" fun a => do
    return .ofNats (← orFail .index (runLengths? (← entriesArg (a "series")))),
  define "dm.count_rounds_since_flip_split" "series" fun a => do
    let (down, up) ← orFailWith .value "Unexpected value in series, expect only +1 and -1"
      (splitRuns? (Value.int 1) (.int (-1)) (← entriesArg (a "series")))
    return .list [.ofNats down, .ofNats up],
  define "dm.binary_derivative" "series" fun a => do
    return wholeMarks 0 1 (repeats (← entriesArg (a "series"))),
  define "dm.binary_derivative_old" "series" fun a => do
    return wholeMarks 1 (-1) (repeats (← entriesArg (a "series"))),
  define "dm.count_error_fractions" "trace" fun a => do
    let c := countErrors (Value.int 1) (← entriesArg (a "trace"))
    return .ofNats [c.changed, c.repeated, c.doubled, c.ones, c.others],
  define "dm.mark_errors_flipping" "events" fun a =>
    errorMarks (fun s t => s == t) (fun s _ u => s == u) (a "events"),
  define "dm.mark_errors_constant" "events" fun a =>
    errorMarks (fun s t => !(s == t)) (fun _ t u => !(t == u)) (a "events"),
  define "dm.mark_errors_FB_to_ground" "events" fun a =>
    errorMarks (fun s _ => s == .int 1) (fun _ t _ => t == .int 1) (a "events")]

/-! ## Butterfly experiments -/

def binningFields (state : String) (b : Binning Float) : Fields := [
  ("eps0_" ++ state, .real b.declared0), ("eps1_" ++ state, .real b.declared1), ("P00_" ++ state, .real b.p00),
  ("P01_" ++ state, .real b.p01), ("P10_" ++ state, .real b.p10), ("P11_" ++ state, .real b.p11)]

def transitionFields (state : String) (t : Transitions Float) : Fields := [
  ("eps00_" ++ state, .real t.e00), ("eps01_" ++ state, .real t.e01),
  ("eps10_" ++ state, .real t.e10), ("eps11_" ++ state, .real t.e11)]

def coefficient (fs : Fields) (k : String) : Attempt Float := do floatArg (← Fields.get fs k)

def declaredOf (fs : Fields) (state : String) : Attempt (Binning Float) := do
  return { declared0 := ← coefficient fs ("eps0_" ++ state), declared1 := ← coefficient fs ("eps1_" ++ state),
           p00 := 0, p01 := 0, p10 := 0, p11 := 0 }

def withPairs (fs : Fields) (state : String) (b : Binning Float) : Attempt (Binning Float) := do
  return { b with p00 := ← coefficient fs ("P00_" ++ state), p01 := ← coefficient fs ("P01_" ++ state),
                  p10 := ← coefficient fs ("P10_" ++ state), p11 := ← coefficient fs ("P11_" ++ state) }

def butterflyCommands : List Command := [
  define "dm.butterfly_data_binning" "Z* initial_state=0" fun a => do
    let t ← floatTensor (a "Z")
    let rows ← if isScalar (a "Z") then fail .sort else orFail .index (rowsOf t)
    let b : Binning Float ← if t.shape.getD 1 0 = 0 then fail .index else orFail .index (binRows? (· == 1) (· == -1) rows)
    return .record (binningFields (if a "initial_state" == .int 0 then "0" else "1") b),
  define "dm.butterfly_matrix_inversion" "exc_coeffs rel_coeffs" fun a => do
    let rel ← orFail .member (a "rel_coeffs").fields?
    let exc ← orFail .sort (a "exc_coeffs").fields?
    let fs := Fields.putAll exc rel
    let zero ← declaredOf fs "0"
    let one ← declaredOf fs "1"
    if (solve? Matrix.larger zero one).isNone then fail .linearAlgebra
    let zero ← withPairs fs "0" zero
    let one ← withPairs fs "1" one
    let (t0, t1) ← orFail .linearAlgebra (solve? Matrix.larger zero one)
    return .record (transitionFields "0" t0 ++ transitionFields "1" t1)]

/-! ## Shots -/

def rowsAt {α : Type} (t : Tensor α) (keep : List Bool) : Tensor α :=
  let width := (t.shape.drop 1).foldl (· * ·) 1
  let kept := (keep.zip (List.range keep.length)).filterMap fun (b, i) => if b then some i else none
  ⟨kept.length :: t.shape.drop 1, (kept.flatMap fun i => (t.data.toList.drop (i * width)).take width).toArray⟩

def mapTensor (f : {α : Type} → Tensor α → Tensor α) (v : Value) : Value :=
  match v with
  | .ints t => .ints (f t)
  | .reals t => .reals (f t)
  | .bools t => .bools (f t)
  | v => v

def generationsOf (indices array : Value) : Attempt (List Value) := do
  let ks ← entriesArg indices
  if ks.isEmpty then fail .index
  let places ← ks.mapM readInt
  if isScalar array then fail .sort
  let size := (array.extents?.bind List.head?).getD 0
  let cuts := generations (List.range size) 0 places
  return cuts.map fun rows => mapTensor (fun t => rowsAt t ((List.range size).map rows.contains)) array

def shotCommands : List Command := [
  define "dm.digitize" "data threshold one_larger_than_threshold+ zero_state=-1" fun a => do
    let rows ← match a "data" with
      | .ints t => rowsOfArray (.ints t)
      | .reals t => rowsOfArray (.reals t)
      | v => (← entriesArg v).mapM entriesArg
    let digits ← rows.mapM (·.mapM fun x => do
      let (n, th) := (← numberArg x, ← numberArg (a "threshold"))
      let isOne := if (a "one_larger_than_threshold").truth then Number.le th n else Number.le n th
      return if isOne then Value.int 1 else a "zero_state")
    (Value.list (digits.map .list)).toArray,
  define "dm.flatten_2D_histogram" "H* xedges* yedges*" fun a => do
    if isScalar (a "H") then fail .member
    let xs ← seriesArg .sort (a "xedges")
    let ys ← seriesArg .sort (a "yedges")
    match a "H" with
    | .ints t =>
      return flatValue .ints (← orFail .index (@flatHistogram? Int Float ⟨0⟩ _ _ _ 2 (t.shape.getD 1 1) (rowsOrColumn t) xs ys))
    | v =>
      let t ← floatTensor v
      return flatValue .reals (← orFail .index (flatHistogram? 2 (t.shape.getD 1 1) (rowsOrColumn t) xs ys)),
  define "dm.rotation_matrix" "angle as_array-" fun a => do
    let t := 2 * Function.pi * (← floatArg (a "angle")) / 360
    return rowsValue 2 [[Float.cos t, -Float.sin t], [Float.sin t, Float.cos t]],
  define "dm.get_outliers_fwd" "x* threshold plot_hist- ax?" fun a => do
    let xs ← seriesArg .member (a "x")
    return marksValue (jumps (← floatArg (a "threshold")) xs),
  define "dm.get_outliers_bwd" "x* threshold plot_hist- ax?" fun a => do
    let xs ← seriesArg .sort (a "x")
    return marksValue (jumps (← floatArg (a "threshold")) xs.reverse),
  define "dm.get_outliers" "x* threshold" fun a => do
    let xs ← seriesArg .member (a "x")
    let th ← floatArg (a "threshold")
    return marksValue ((jumps th xs).zipWith (· && ·) (jumps th xs.reverse).reverse),
  define "dm.get_generations_by_index" "generation_indices array*" fun a => do
    return .list (← generationsOf (a "generation_indices") (a "array")),
  define "dm.get_generation_means" "generation_indices array*" fun a => do
    let gens ← generationsOf (a "generation_indices") (a "array")
    let means ← gens.mapM fun g => do return Value.real (Statistics.mean (← floatTensor g).data.toList)
    return .list means]
where
  marksValue (bs : List Bool) : Value := .bools (.ofArray bs.toArray)
  rowsOfArray (v : Value) : Attempt (List (List Value)) := do
    match ← orFail .sort v.extents? with
    | [n, m] => return (List.range n).map fun i => (v.leaves.drop (i * m)).take m
    | _ => fail .sort
  rowsOrColumn {α : Type} (t : Tensor α) : List (List α) := (rowsOf t).getD (t.data.toList.map fun x => [x])
  flatValue {α : Type} (make : Tensor α → Value) (f : FlatHistogram α Float) : Value :=
    .list [make (.ofArray f.counts.toArray), seriesValue f.xs, seriesValue f.ys]

def readoutCommands : List Command := outcomeCommands ++ butterflyCommands ++ shotCommands

end QubitLab.Console
