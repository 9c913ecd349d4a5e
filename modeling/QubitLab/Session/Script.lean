import QubitLab.Session.Compiler
import QubitLab.Session.Control
import QubitLab.Session.Programs
import QubitLab.Session.Station
import QubitLab.Session.Store

/-!
# Scripts

A script is a list of steps in a session: calls, and looks at files. A path names a function of a module, or a named
item and a member of it. Each step is answered with its result or its fault, and with what was asked of stand-ins.
-/

namespace QubitLab.Session

/-! ## Paths -/

def routines : List (String × Routine) :=
  programRoutines ++ compilerRoutines ++ controlRoutines ++ storeRoutines

def methodsOf (id : Nat) : Part → List (String × Routine)
  | .compiler map fixed => [("compile", .mk "filename qumis_fn? config_fn= config?" fun a => do
      compileFile id map fixed (← textOf a "filename") (← textOf a "qumis_fn") (plainOf a "config")
      return .value (.bool true))]
  | .programSweep s => [("prepare", .mk [] fun _ => do
      prepareProgram id s
      return .value .null)]
  | .control c => controlMethods id c
  | .pulsar => rackMethods
  | _ => []

def member (x : Item) (name : String) : Script Item := do
  match x with
  | .standIn p => StandIn.member p name
  | .part id =>
    orReject .member (match ← partAt id, name with
      | .program p, "name" => some (.value (.text p.name))
      | .program p, "filename" => p.file?.map (.value ∘ .text)
      | .program p, "sweep_points" => p.sweepPoints?.map .value
      | .programSweep s, "compiler" => s.compiler?.map .part
      | _, _ => none)
  | .value _ => reject .member

def along (names : List String) : Script Item := do
  match names with
  | [] => reject .member
  | n :: ns => ns.foldlM member (← orReject .key ((← get).names.lookup n))

def perform (path : String) (c : Call) : Script Item := do
  if Text.contains ":" path then
    return ← (← orReject .unsupported (routines.lookup path)).call c
  let names := Text.splitOn "." path
  match ← along names.dropLast with
  | .part id => (← orReject .member ((methodsOf id (← partAt id)).lookup (names.getLastD ""))).call c
  | x =>
    match ← member x (names.getLastD "") with
    | .standIn p => StandIn.call p c
    | _ => reject .sort

/-! ## Steps -/

def decodeItem : Value → Script Item
  | .record [("$v", .text p)] => along (Text.splitOn "." p)
  | v => do return .value (← Console.decode v)

def listed (step : Fields) (key : String) : List Value := ((step.get? key).bind Value.items?).getD []

def fieldsAt (step : Fields) (key : String) : Fields := ((step.get? key).bind Value.fields?).getD []

def performStep (step : Fields) : Script Item := do
  match (step.get? "call").bind Value.text?, (step.get? "file").bind Value.text? with
  | some path, _ =>
    let args ← (listed step "args").mapM decodeItem
    let named ← (fieldsAt step "kw").mapM fun (k, v) => do return (k, ← decodeItem v)
    perform path ⟨args, named⟩
  | none, some name => return .value (.text (← fileText name))
  | none, none => reject .unsupported

/-- Whether a step that names its result is not answered with it. -/
def isSilent (w : World) : Item → Bool
  | .part id => (w.parts[id]? matches some (.control _))
  | _ => false

def answerStep (describe : Fault → Value) (step : Value) : StateM World Value := do
  let fs := step.fields?.getD []
  modify fun w => { w with log := [] }
  let result ← match ← (performStep fs).run with
    | .error e => pure (describe e)
    | .ok x =>
      let name? := (fs.get? "as").bind Value.text?
      if let some n := name? then modify fun w => { w with names := Assoc.put n x w.names }
      let w ← get
      let quiet := ((fs.get? "quiet").map Value.truth).getD false
      pure (if quiet || (name?.isSome && isSilent w x) then .null else report w x)
  let log := (← get).log
  return .record ([("r", result)] ++ (if log.isEmpty then [] else [("log", .list log.reverse)]))

/-! ## Requests -/

def startWorld (req : Fields) : Attempt World := do
  let fakes := ((listed req "fakes").filterMap Value.text?).map fun n => (n, Item.standIn n)
  let files := (fieldsAt req "files").filterMap fun (k, v) => v.text?.map fun s => (k, s)
  let seed := (((req.get? "np_seed").bind Value.int?).map Int.toNat).getD 0
  let rack ← match (req.get? "station").bind Value.fields? with
    | some fs => do pure (some (← Console.readRack (← Console.decodeFields fs)))
    | none => pure none
  let state := (← Console.decodeFields (fieldsAt req "state")).map fun (k, v) => (k, Item.value v)
  let names := fakes ++ (if rack.isSome then [("pulsar", .part 0)] else [])
  let returns ← Console.decodeFields (fieldsAt req "returns")
  let members ← Console.decodeFields (fieldsAt req "attrs")
  let generator := .seeded seed
  return { names, files, generator, parts := #[.pulsar], rack := rack.getD ⟨[], []⟩, state, returns, members }

def run (describe : Fault → Value) (req : Fields) : Attempt Value := do
  let w ← startWorld req
  let (answers, _) := ((listed req "steps").mapM (answerStep describe)).run w
  return .list answers

end QubitLab.Session
