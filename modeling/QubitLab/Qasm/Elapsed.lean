import QubitLab.Qasm.Timing

/-!
# Times between labelled points

`elapsed` gives, for labels in a grid, the times of their points since a start point, and the time of the end
point. Points are looked for between the start and the end; without an end label the end is the last point.
In nanoseconds the time of a point is multiplied by the clock cycle once for each part that it plays (start,
target, end).
-/

namespace QubitLab.Qasm

inductive ElapsedError
  | noLabel
  | noPoint
  deriving Repr, DecidableEq

structure Span where
  start : Nat
  targets : List Nat
  stop : Nat

variable {ε : Type}

def labelIndex? (grid : Grid ε) (label : String) : Option Nat := grid.findIdx? fun p => p.label == label

def spanOf (grid : Grid ε) (start stop : Option String) (label : String) : Span :=
  let s := (start.bind (labelIndex? grid)).getD 0
  let e := (stop.bind (labelIndex? (grid.drop s))).map (· + s)
  let bound := e.getD grid.length
  let targets := (List.range grid.length).filter fun i =>
    s ≤ i && i < bound && (grid[i]?.map fun p => Text.lower p.label == Text.lower label).getD false
  ⟨s, targets, e.getD (grid.length - 1)⟩

/-- The time of a point, in clocks or scaled once for each part that it plays. -/
def scaledTime (grid : Grid ε) (inNs : Bool) (span : Span) (i : Nat) : Int :=
  let t := (grid[i]?.map (·.time)).getD 0
  let parts := (if span.start = i then 1 else 0) + (if span.targets.contains i then 1 else 0) +
    (if span.stop = i then 1 else 0)
  if inNs then t * Nat.pow 5 parts else t

def elapsed (grid : Grid ε) (labels : List String) (start stop : Option String) (inNs : Bool) :
    Except ElapsedError (List (Int × String) × Int) := do
  if grid.isEmpty then .error .noPoint
  let spans := labels.map fun l => (l, spanOf grid start stop l)
  let times := spans.flatMap fun (l, s) =>
    s.targets.map fun i => (scaledTime grid inNs s i - scaledTime grid inNs s s.start, l)
  match spans.getLast? with
  | none => .error .noLabel
  | some (_, s) => return (times, scaledTime grid inNs s s.stop - scaledTime grid inNs s s.start)

end QubitLab.Qasm
