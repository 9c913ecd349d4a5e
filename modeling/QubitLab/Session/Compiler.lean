import QubitLab.Console.Instruction
import QubitLab.Session.World

/-!
# Compilers in a session

A compiler of circuit programs remembers the map of its qubits from one program to the next. A sweep over the points of
a program makes one when it is prepared, and compiles its program with it.
-/

namespace QubitLab.Session

/-- What a compiler remembers: the fields of its qubit map as they were, those that a program added, and where it came
from. -/
def remembered (before : Fields) (s : Qasm.Session) : Part :=
  .compiler (before ++ (s.map.drop before.length).filterMap fun (k, n) => n.toOption.map fun n => (k, .int n)) s.fixed

def compileFile (id : Nat) (map : Fields) (fixed : Bool) (file output : String) (config : Value) : Script Unit := do
  let s : Qasm.Session := ⟨map.map fun (k, v) => (k, Qasm.asIndex v), fixed⟩
  let read := s.withMapOf config
  let before := match config.fields?.bind (Fields.get? · "qubit_map") with
    | some (.record fs) => if read.fixed then fs else map
    | _ => map
  setPart id (remembered before read)
  match Qasm.Config.load config with
  | .error e => throw e.fault
  | .ok cfg =>
    let (s, result) := s.compileWith cfg true (← fileText file)
    setPart id (remembered before s)
    match result with
    | .error e => throw e.fault
    | .ok c => writeFile output (String.join (c.assembly.map (· ++ "\n")))

def prepareProgram (id : Nat) (s : ProgramSweep) : Script Unit := do
  let tell (name : String) (v : String) : Script Unit := do
    if s.upload then
      if let .standIn p := s.device then discard (StandIn.call (p ++ "." ++ name) ⟨[.value (.text v)], []⟩)
      else reject .member
  tell "trigger_source" "internal"
  let output := (Text.splitOn "." s.file).headD "" ++ ".qumis"
  let compiler := (← get).parts.size
  discard (newPart (.compiler [] false))
  setPart id (.programSweep { s with compiler? := some compiler })
  compileFile compiler [] false s.file output s.config
  tell "load_instructions" output

def compilerRoutines : List (String × Routine) := [
  ("measurement.waveform_control_CC.qasm_compiler:QASM_QuMIS_Compiler",
    .mk "config_filename= verbosity_level=1" fun _ => newPart (.compiler [] false)),
  ("measurement.sweep_functions:QASM_Sweep_v2",
    .mk "qasm_fn config CBox parameter_name=Points unit=a.u. upload+ verbosity_level=0" fun a => do
    newPart (.programSweep ⟨← textOf a "qasm_fn", plainOf a "config", a "CBox", (plainOf a "upload").truth, none⟩))]

end QubitLab.Session
