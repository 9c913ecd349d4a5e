import QubitLab.Session.World
import QubitLab.Signal.Basic

/-!
# Measurement control in a session

Measurement control is given sweep functions, the points to measure and a detector, which is a stand-in. It runs the
measurements of `QubitLab.Recording` with them: a soft one asks the detector point by point, a hard one in rows that the
detector gives.
-/

namespace QubitLab.Session

open Recording (Answer Apparatus Cell HardApparatus Points SoftApparatus)

namespace Control

def detectorMember (c : Control) (name : String) : Script Item :=
  match c.detector with
  | .standIn p => StandIn.member p name
  | _ => reject .member

def ask (c : Control) (name : String) (named : List (String × Item) := []) : Script Value := do
  match ← c.detectorMember name with
  | .standIn p => plain (← StandIn.call p ⟨[], named⟩)
  | _ => reject .sort

def labels (c : Control) (name : String) : Script (List Value) := do (← plain (← c.detectorMember name)).each

def isControlled (c : Control) (word : String) : Script Bool := do
  match ← c.detectorMember "detector_control" with
  | .value (.text s) => return s == word
  | _ => return false

/-- The points that were set, or those of the first sweep function. -/
def points (c : Control) : Script Value :=
  match c.points?, c.sweeps with
  | some v, _ => return v
  | none, s :: _ => return s.points
  | none, [] => reject .member

def withPoints (c : Control) (v : Value) : Attempt Control := do
  let v ← v.toArray
  let sweeps := match (← v.realTensor).shape, c.sweeps with
    | [_], s :: r => { s with points := v } :: r
    | _, ss => ss
  return { c with points? := some v, sweeps }

end Control

/-! ## Measuring -/

section

variable (id : Nat)

def control : Script Control := do
  match ← partAt id with
  | .control c => return c
  | _ => reject .member

def controlCell {β : Type} (get : Control → β) (set : β → Control → Control) : Cell Script β where
  get := do return get (← control id)
  set b := do setPart id (.control (set b (← control id)))

def apparatus : Apparatus Script Float where
  acquired := controlCell id (·.acquired) fun n c => { c with acquired := n }
  round := controlCell id (·.round) fun n c => { c with round := n }
  iteration := controlCell id (·.iteration) fun n c => { c with iteration := n }
  table := controlCell id (·.table) fun t c => { c with table := t }
  isSearch := return false
  pointCount := do (← (← control id).points).length
  rounds := do return (← control id).rounds
  sweeps := do return (← control id).sweeps.length
  names := do return (← (← control id).labels "value_names").length
  isSoft := do (← control id).isControlled "soft"
  display := return
  report := return

def rowsOf (t : Tensor Float) : List (List Float) := t.parts.map fun u => u.data.toList

def answerOf (t : Tensor Float) : Answer Float :=
  match t.shape with
  | [] => .number (t.data.getD 0 0)
  | [_] => .list t.data.toList
  | _ :: m :: _ => .grid m (rowsOf t)

def pointsOf (t : Tensor Float) : Points Float :=
  match t.shape with
  | [_] => .line t.data.toList
  | [_, m] => .plane m (rowsOf t)
  | shape => .plane (shape.reverse.headD 0) []

def softApparatus : SoftApparatus Script Unit Value Value Float where
  toApparatus := apparatus id
  points := do (← (← control id).points).each
  coordinates x := do
    let ys := x.each.toOption.getD [x]
    if ys.length != (← control id).sweeps.length then
      rejectWith .value ("size of x \"" ++ x.display ++ "\" not equal to # sweep functions")
    return ys
  last := controlCell id (·.last) fun ys c => { c with last := ys }
  isSame y z := return Value.same y z
  set _ _ _ := return none
  clipped set := set
  numbers ys := (Value.list ys).realList
  acquire := do return ((), answerOf (← (← (← control id).ask "acquire_data_point").realTensor))

def hardApparatus : HardApparatus Script Unit Float where
  toApparatus := apparatus id
  points := do return pointsOf (← (← (← control id).points).realTensor)
  aim start := do
    let c ← control id
    let points ← c.points
    let row ← if c.sweeps.length == 1 then pure points else do
      let rows ← (← points.each).mapM fun row => do orReject .index (← row.each).head?
      (← (Value.list rows).toArray).cut start (start + c.across)
    discard (c.ask "prepare" [("sweep_points", .value row)])
  values := do
    let fresh := (← (← (← control id).ask "get_values").realTensor).transposed
    if fresh.rank > 2 then reject .value
    return ((), answerOf fresh)

def measureAll : Script Unit := do
  let c ← control id
  if c.sweeps.head?.any (·.control == "soft") && (← c.isControlled "soft") then
    discard (c.ask "prepare")
    (softApparatus id).measureSoft
  else if ← c.isControlled "hard" then
    let a := hardApparatus id
    a.measureHard ((← a.pointCount) * (← a.rounds) + 100000)
  else rejectWith .general "Sweep and Detector functions not of the same type. \nAborting measurement"
  discard (c.ask "finish")

def tilePoints (c : Control) : Script Control := do
  match ← (← c.points).each with
  | x :: xs =>
    if x.each.toOption.any (·.length != 1) then return c
    c.withPoints (.list ((Points.tile (x :: xs) (← c.outer.each)).map .list))
  | [] => reject .index

def runControl (mode : Value) : Script Item := do
  let c ← control id
  if c.sweeps.isEmpty then reject .member
  let names ← c.labels "value_names"
  let units ← c.labels "value_units"
  let across ← (← c.points).length
  let c := { c with
    across, acquired := 0, round := 0, iteration := 0, last := [], table := ⟨c.sweeps.length + names.length, []⟩ }
  setPart id (.control c)
  match mode with
  | .text "1D" => measureAll id
  | .text "2D" =>
    setPart id (.control (← tilePoints c))
    measureAll id
  | .text "adaptive" => reject .unsupported
  | m => rejectWith .value ("Mode \"" ++ m.display ++ "\" not recognized.")
  let t := (← control id).table
  setPart id (.control { ← control id with sweeps := [], points? := none, outer := .null })
  return .value (.record [("dset", .reals ⟨[t.rows.length, t.width], t.rows.flatten.toArray⟩), ("opt_res_dset", .null),
    ("sweep_parameter_names", .list (c.sweeps.map (.text ·.parameter))),
    ("sweep_parameter_units", .list (c.sweeps.map (.text ·.unit))), ("value_names", .list names),
    ("value_units", .list units), ("opt_res", .null)])

end

/-! ## Methods -/

def sweepOf (x : Item) : Script Sweep := do
  match x with
  | .part id =>
    match ← partAt id with
    | .sweep s => return s
    | _ => reject .unsupported
  | _ => reject .unsupported

def roundsArg (v : Value) : Attempt Nat := do
  let n ← orFail .sort v.int?
  if n < 1 || 100000000 < n then fail .value
  return n.toNat

def controlMethods (id : Nat) (c : Control) : List (String × Routine) :=
  let change (params : String) (f : (String → Item) → Script Control) : Routine := .mk params fun a => do
    setPart id (.control (← f a))
    return .value .null
  [("set_sweep_function", change "sweep_function" fun a => do
      return { c with sweeps := [← sweepOf (a "sweep_function")] }),
    ("set_sweep_function_2D", change "sweep_function" fun a => do
      match c.sweeps with
      | [] => reject .member
      | [s] => return { c with sweeps := [s, ← sweepOf (a "sweep_function")] }
      | _ => rejectWith .key "Specify sweepfunction 1D before specifying sweep_function 2D"),
    ("set_sweep_points", change "sweep_points" fun a => c.withPoints (plainOf a "sweep_points")),
    ("set_sweep_points_2D", change "sweep_points_2D" fun a => return { c with outer := plainOf a "sweep_points_2D" }),
    ("set_detector_function", change "detector_function" fun a => return { c with detector := a "detector_function" }),
    ("soft_avg", .mk "value?" fun a => do
      match plainOf a "value" with
      | .null => return .value (.int c.rounds)
      | v =>
        setPart id (.control { c with rounds := ← roundsArg v })
        return .value .null),
    ("run", .mk (signature "name? exp_metadata? mode=@ disable_snapshot_metadata-" [.text "1D"]) fun a =>
      runControl id (plainOf a "mode"))]

def isNamed (name : String) : Part → Bool
  | .control c => c.name == name
  | _ => false

def controlRoutines : List (String × Routine) := [
  ("measurement.sweep_functions:None_Sweep",
    .mk (signature "sweep_control=soft sweep_points? name=None_Sweep parameter_name=pts unit=@" [.text "arb. unit"])
        fun a => do
      newPart (.sweep ⟨← textOf a "name", ← textOf a "sweep_control", ← textOf a "parameter_name", ← textOf a "unit",
        plainOf a "sweep_points"⟩)),
  ("measurement.measurement_control:MeasurementControl",
    .mk "name plotting_interval=3 datadir=data live_plot_enabled+ verbose+" fun a => do
      let name ← textOf a "name"
      if (← get).parts.any (isNamed name) then reject .key
      newPart (.control { name }))]

end QubitLab.Session
