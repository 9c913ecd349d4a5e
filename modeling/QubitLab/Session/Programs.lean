import QubitLab.Program.Benchmarking
import QubitLab.Program.Timeline
import QubitLab.Session.World

/-!
# Programs in a session

The functions of a session that write programs of random gates for a platform, and those that read and change the files
of compiled programs.
-/

namespace QubitLab.Session

open Program

def openProgram (name : String) (file : Value) : Script Program := do
  let text ← fileText (← textArg file)
  return { name, platform := ← Platform.read text }

/-! ## Benchmarking -/

/-- Whether a program has to be written again: always, if its file is older than the platform's, or never. -/
def mustWrite (file : String) (platform again : Value) : Script Bool := do
  let is (b : Int) : Bool := match Number.ofValue? again with
    | some x => x.eq (.int b)
    | none => false
  if is 1 then return true
  let order := (← get).files.map Prod.fst
  let newer : Attempt Bool := do
    let i ← orFail .noFile (order.findIdx? (· == file))
    let j ← orFail .noFile (order.findIdx? (some · == platform.text?))
    return decide (j < i)
  match again with
  | .text "as needed" =>
    match newer with
    | .ok b => return !b
    | .error _ => return true
  | _ =>
    if is 0 then
      if ← newer then return false
      rejectWith .value "OpenQL config has changed more recently than program."
    else rejectWith .unsupported "recompile should be True, False or \"as needed\""

def drawing {α : Type} (x : Clifford.Drawing α) : Script α := do
  let (r, m) := x.run.run (← get).generator
  modify fun w => { w with generator := m }
  liftM r

def codewordBenchmarking : Routine :=
  .mk "qubit_idx platf_cfg nr_cliffords nr_seeds net_clifford=0 restless-
      program_name=randomized_benchmarking cal_points+ double_curves-" fun a => do
  let v := plainOf a
  let q := v "qubit_idx"
  let p ← openProgram (v "program_name").display (v "platf_cfg")
  let counts ← (v "nr_cliffords").each
  let seeds ← intArg (v "nr_seeds")
  let n := counts.length
  let start := if (v "restless").truth then [] else [Instruction.prepare q]
  let mut ks : List Kernel := []
  let mut drawn : Nat := 0
  for s in List.range seeds.toNat do
    for (c, j) in counts.zipIdx do
      let name := "RB_" ++ c.display ++ "Cl_s" ++ Decimal.natText s
      if (v "cal_points").truth && (j + 4 == n || j + 3 == n) then
        ks := ks ++ [kernel name (start ++ [Instruction.measure q])]
      else if (v "cal_points").truth && (j + 2 == n || j + 1 == n) then
        ks := ks ++ [kernel name (start ++ [Instruction.flip q, Instruction.measure q])]
      else
        let wanted ← if (v "double_curves").truth then pure (if drawn % 2 == 0 then (0 : Int) else 3)
          else liftM (intArg (v "net_clifford"))
        drawn := drawn + 1
        let count ← countOf c
        let ns ← drawing (drawClosed count none wanted)
        ks := ks ++ [kernel name (start ++
          (ns.map fun n => Instruction.gate ("cl_" ++ Decimal.intText n) [q]) ++ [Instruction.measure q])]
  newPart (.program (p.addAll ks).compile)

def written (v : String → Value) (kernels : Script (List Kernel)) : Script Item := do
  let p ← openProgram (v "program_name").display (v "platf_cfg")
  let file := fileNamed p.name ".qisa"
  let p := { p with file? := some file }
  if !(← mustWrite file (v "platf_cfg") (v "recompile")) then return ← newPart (.program p)
  newPart (.program (p.addAll (← kernels)).compile)

def gateBenchmarking : Routine :=
  .mk (signature "qubits platf_cfg nr_cliffords nr_seeds net_cliffords=@ max_clifford_idx=11520
      flux_codeword=cz simultaneous_single_qubit_RB- initialize+ interleaving_cliffords=@
      program_name=randomized_benchmarking cal_points+ f_state_cal_pts+ sim_cz_qubits? recompile+"
    [.list [.int 0], .list [.null]]) fun a => do
  let v := plainOf a
  written v do
    let qs ← (v "qubits").each
    if qs.length != 1 && qs.length != 2 then reject .unsupported
    let others := (v "sim_cz_qubits").each.toOption.getD []
    let counts ← (v "nr_cliffords").each
    let extras ← (v "interleaving_cliffords").each
    let wanted ← (← (v "net_cliffords").each).mapM fun c => liftM (intArg c)
    let seeds ← intArg (v "nr_seeds")
    let top ← intArg (v "max_clifford_idx")
    let b : Benchmark := ⟨qs, (v "simultaneous_single_qubit_RB").truth, (v "initialize").truth,
      ⟨(v "flux_codeword").display, qs, others, !(v "sim_cz_qubits").isNull⟩, top, wanted⟩
    drawing (b.kernels seeds.toNat counts extras (v "cal_points").truth (v "f_state_cal_pts").truth)

def characterBenchmarking : Routine :=
  .mk (signature "qubits platf_cfg nr_cliffords nr_seeds interleaving_cliffords=@
      program_name=character_benchmarking cal_points+ f_state_cal_pts+ flux_codeword=cz recompile+"
    [.list [.null]]) fun a => do
  let v := plainOf a
  match ← (v "qubits").each with
  | [q0, q1] =>
    written v do
      let counts ← (v "nr_cliffords").each
      let extras ← (v "interleaving_cliffords").each
      let seeds ← intArg (v "nr_seeds")
      let b : Character := ⟨q0, q1, (v "flux_codeword").display⟩
      drawing (b.kernels seeds.toNat counts extras (v "cal_points").truth (v "f_state_cal_pts").truth)
  | _ => reject .assertion

/-! ## Compiled programs -/

def eventsArg (v : Value) : Attempt (List Event) := do (← v.each).mapM Event.ofValue

def eventList (es : List Event) : Value := .list (es.map Event.toValue)

/-- A compiled program and its timed listing; the registers are read before the listing is opened. -/
def compiledTexts (file : String) : Script (String × String) := do
  let program ← fileText file
  let _ ← registerMap program
  return (program, ← fileText (timedName file))

def ofValues (params : List Parameter) (f : (String → Value) → Script Value) : Routine :=
  .mk params fun a => do return .value (← f (plainOf a))

def helperRoutines : List (String × Routine) := [
  ("clocks_to_s", ofValues "time clock_cycle=20e-9" fun v => do
    return (← (← numberArg (v "time")).mul (← numberArg (v "clock_cycle"))).toValue),
  ("infer_tqisa_filename", ofValues "qisa_fn" fun v => do return .text (timedName (← textArg (v "qisa_fn")))),
  ("get_start_time", ofValues "line" fun v => do return .int (← startTime (← textArg (v "line")))),
  ("get_register_map", ofValues "qisa_fn" fun v => do
    return .record (← registerMap (← fileText (← textArg (v "qisa_fn"))))),
  ("split_instr_to_op_targ", ofValues "instr reg_map" fun v => do
    let (op, targets) ← operationOf (← recordArg (v "reg_map")) (← textArg (v "instr"))
    return .tuple [.text op, targets]),
  ("get_timetuples", ofValues "qisa_fn" fun v => do
    let (program, timed) ← compiledTexts (← textArg (v "qisa_fn"))
    return eventList (← timeline program timed)),
  ("find_operation_idx_in_time_tuples", ofValues "time_tuples target_op" fun v => do
    return .ofNats (← positionsOf (v "target_op") (← eventsArg (v "time_tuples")))),
  ("get_operation_tuples", ofValues "time_tuples target_op" fun v => do
    return eventList (← eventsOf (v "target_op") (← eventsArg (v "time_tuples")))),
  ("split_time_tuples_on_operation", ofValues "time_tuples split_op" fun v => do
    return .list ((← splitOnEvent (v "split_op") (← eventsArg (v "time_tuples"))).map eventList)),
  ("substract_time_offset", ofValues "time_tuples op_str=cw" fun v => do
    return eventList (← shiftToEvent (v "op_str") (← eventsArg (v "time_tuples")))),
  ("flux_pulse_replacement", ofValues "qisa_fn" fun v => do
    let file ← textArg (v "qisa_fn")
    let (program, timed) ← compiledTexts file
    let (lines, groups) ← numberFlux program timed
    writeFile (modifiedName file) (String.join lines)
    return .tuple [.text (modifiedName file), .list (groups.map eventList)]),
  ("check_recompilation_needed", ofValues "program_fn platf_cfg recompile+" fun v => do
    return .bool (← mustWrite (v "program_fn").display (v "platf_cfg") (v "recompile")))]

def programRoutines : List (String × Routine) := [
  ("measurement.openql_experiments.single_qubit_oql:randomized_benchmarking", codewordBenchmarking),
  ("measurement.openql_experiments.clifford_rb_oql:randomized_benchmarking", gateBenchmarking),
  ("measurement.openql_experiments.clifford_rb_oql:character_benchmarking", characterBenchmarking)] ++
  helperRoutines.map fun (name, r) => ("measurement.openql_experiments.openql_helpers:" ++ name, r)

end QubitLab.Session
