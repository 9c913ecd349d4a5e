import QubitLab.Archive.Node
import QubitLab.Element.Basic
import QubitLab.Program.Basic
import QubitLab.Random.Mersenne
import QubitLab.Recording
import QubitLab.Report.Quantity
import QubitLab.Value.Signature

/-!
# Sessions

In a session one makes parts, which have a state of their own and are known by a number, and works with them, with plain
values and with stand-ins for devices that are not there. `World` is all that a session keeps.

A stand-in answers a call with what the session prescribes, and else remembers the one argument it was given and gives
it back when it is called without any. Each of its members is a stand-in too, unless the session says what it is.
-/

namespace QubitLab.Session

inductive Item
  | value (v : Value)
  | standIn (path : String)
  | part (id : Nat)
  deriving Inhabited

structure Sweep where
  name : String
  control : String
  parameter : String
  unit : String
  points : Value

structure ProgramSweep where
  file : String
  config : Value
  device : Item
  upload : Bool
  compiler? : Option Nat := none

structure Control where
  name : String
  rounds : Nat := 1
  sweeps : List Sweep := []
  points? : Option Value := none
  outer : Value := .null
  detector : Item := .value .null
  across : Nat := 0
  acquired : Nat := 0
  round : Nat := 0
  iteration : Nat := 0
  last : List Value := []
  table : Recording.Table Float := ⟨0, []⟩

inductive Part
  | program (p : Program)
  | file (root : Archive.Node)
  | compiler (map : Fields) (fixed : Bool)
  | programSweep (s : ProgramSweep)
  | sweep (s : Sweep)
  | control (c : Control)
  | pulsar

structure World where
  names : List (String × Item) := []
  parts : Array Part := #[]
  files : List (String × String) := []
  generator : Random.Mersenne := .seeded 0
  rack : Rack Number := ⟨[], []⟩
  /-- What stand-ins remember, what they answer, and which of their members are values. -/
  state : List (String × Item) := []
  returns : Fields := []
  members : Fields := []
  /-- What was asked of stand-ins in the current step, the last first. -/
  log : List Value := []

/-- A computation in a session. What it changed stays changed when it ends in a fault. -/
abbrev Script := ExceptT Fault (StateM World)

def reject {α : Type} (k : FaultKind) : Script α := throw (.of k)

def rejectWith {α : Type} (k : FaultKind) (m : String) : Script α := throw (.because k m)

def orReject {α : Type} (k : FaultKind) (o : Option α) : Script α := liftM (orFail k o)

def newPart (p : Part) : Script Item := do
  let w ← get
  set { w with parts := w.parts.push p }
  return .part w.parts.size

def partAt (id : Nat) : Script Part := do orReject .member (← get).parts[id]?

def setPart (id : Nat) (p : Part) : Script Unit := modify fun w => { w with parts := w.parts.setIfInBounds id p }

def fileText (name : String) : Script String := do orReject .noFile ((← get).files.lookup name)

def writeFile (name text : String) : Script Unit := modify fun w => { w with files := Assoc.put name text w.files }

def plain : Item → Attempt Value
  | .value v => .ok v
  | _ => fail .sort

/-! ## Reports -/

def Part.report : Part → Value
  | .program p => p.report
  | p => .record [("object", .text (match p with
    | .compiler _ _ => "QASM_QuMIS_Compiler"
    | .programSweep _ => "QASM_Sweep_v2"
    | .sweep _ => "None_Sweep"
    | .control _ => "MeasurementControl"
    | .pulsar => "Pulsar"
    | _ => "Data"))]

def report (w : World) (x : Item) : Value :=
  Report.reported 7 (match x with
    | .value v => v
    | .standIn p => .record [("fake", .text p)]
    | .part id => (w.parts[id]?.map Part.report).getD .null)

/-! ## Calls -/

structure Call where
  args : List Item := []
  named : List (String × Item) := []

def bind (params : List Parameter) (c : Call) : Attempt (String → Item) := do
  if c.args.length > params.length then fail .sort
  let given := (params.map (·.name)).zip c.args
  if c.named.any fun (k, _) => given.any (·.1 == k) || !params.any (·.name == k) then fail .sort
  let args ← params.mapM fun p =>
    match (given ++ c.named).lookup p.name with
    | some x => .ok (p.name, x)
    | none => do return (p.name, .value (← orFail .sort p.default?))
  return fun name => (args.lookup name).getD (.value .null)

structure Routine where
  params : List Parameter
  run : (String → Item) → Script Item

def Routine.call (r : Routine) (c : Call) : Script Item := do r.run (← bind r.params c)

def plainOf (a : String → Item) (name : String) : Value := (plain (a name)).toOption.getD .null

def textOf (a : String → Item) (name : String) : Script String := liftM (textArg (plainOf a name))

/-! ## Stand-ins -/

namespace StandIn

def member (path name : String) : Script Item := do
  if Text.startsWith "__" name then reject .member
  let p := path ++ "." ++ name
  return ((← get).members.lookup p).elim (.standIn p) .value

/-- The answer that is prescribed for a path; a list of answers is used up to its last one. -/
def prescribed? (path : String) : Script (Option Value) := do
  let w ← get
  match w.returns.lookup path with
  | some (.list (a :: r)) =>
    if !r.isEmpty then set { w with returns := Assoc.put path (.list r) w.returns }
    return some a
  | v? => return v?

def call (path : String) (c : Call) : Script Item := do
  let w ← get
  let remembered? := if c.args.isEmpty && c.named.isEmpty then w.state.lookup path else none
  if remembered?.isNone || (w.returns.lookup path).isSome then
    let entry := [.text path, .list (c.args.map (report w))] ++
      (if c.named.isEmpty then [] else [.record (c.named.map fun (k, x) => (k, report w x))])
    set { w with log := .list entry :: w.log }
  if let some v ← prescribed? path then return .value v
  if let ([x], []) := (c.args, c.named) then modify fun w => { w with state := Assoc.put path x w.state }
  return remembered?.getD (.value .null)

end StandIn

end QubitLab.Session
