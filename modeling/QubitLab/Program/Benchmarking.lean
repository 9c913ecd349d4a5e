import QubitLab.Clifford.Sequence
import QubitLab.Program.Calibration

/-!
# Benchmarking programs

Kernels with random Cliffords followed by the one that undoes them. On two qubits the Cliffords are either those of the
pair or those of each qubit by itself; the gates of the two then alternate. In character benchmarking the first
Clifford is joined with a random Pauli of each class.
-/

namespace QubitLab.Program

open Clifford Instruction

def barePhase : Int := -4368

def cliffordGates (g : Group) (n : Int) : Attempt (List PairGate) := do
  if n = barePhase then return [.cz]
  return gatesOf g (← cliffordNumber g n)

structure PhaseGate where
  pulse : String
  targets : List Qubit
  others : List Qubit := []
  withOthers : Bool := false

def PhaseGate.body (c : PhaseGate) (qs : List Qubit) : List Instruction :=
  let all := qs ++ c.others
  [barrier all, gate c.pulse c.targets] ++ (if c.withOthers then [gate c.pulse c.others] else []) ++ [barrier all]

def gateBody (qs : List Qubit) (phase : PhaseGate) (gs : List PairGate) : List Instruction :=
  gs.flatMap fun g => match g with
    | .first r => [gate r.name [qs.getD 0 .null]]
    | .second r => [gate r.name [qs.getD 1 .null]]
    | .cz => phase.body qs

def benchmarkKernel (name : String) (qs : List Qubit) (start : Bool) (body : List Instruction) : Kernel :=
  kernel name ((if start then qs.map prepare else []) ++ body ++ jointReadout qs)

def sequenceKernels (g : Group) (qs : List Qubit) (start : Bool) (phase : PhaseGate) (name : Int → String)
    (wanted : List Int) (ns : List Int) : Attempt (List Kernel) := do
  let _ ← netOf g ns
  let gates ← ns.mapM (cliffordGates g)
  wanted.mapM fun w => do
    let r ← recoveryOf g (cliffordNumber g w) ns
    return benchmarkKernel (name w) qs start (gateBody qs phase (gates.flatten ++ gatesOf g r))

/-- Two lists in turn; the longer one goes on alone. -/
def alternate {α : Type} : List α → List α → List α
  | [], ys => ys
  | xs, [] => xs
  | x :: xs, y :: ys => x :: y :: alternate xs ys

def inTurns {α : Type} : List (List α) → List α
  | [xs] => xs
  | [xs, ys] => alternate xs ys
  | _ => []

/-- A drawn sequence of one qubit with the Clifford that makes the product a wanted one. -/
def drawClosed (count : Int) (extra? : Option Int) (wanted : Int) : Drawing (List Int) := do
  let ns ← drawn (drawSequence .single 11520 count extra?)
  let r ← recoveryOf .single (cliffordNumber .single wanted) ns
  return ns ++ [(r : Int)]

def oneQubitBody (q : Qubit) (ns : List Int) : Attempt (List Instruction) := do
  let gs ← ns.mapM fun n => do return Single.rotations (← cliffordNumber .single n)
  return gs.flatten.map fun r => gate r.name [q]

/-! ## Benchmarking of one qubit, of a pair, and of two qubits at the same time -/

def countOf (v : Value) : Attempt Int := do
  match v with
  | .text s => orFail .value (Decimal.readInt? 10 s.toList)
  | v => (← v.number).truncate

def extraOf (v : Value) : Attempt (Option Int) := do
  if v.isNull then return none
  return some (← countOf v)

def benchmarkStates (second : Bool) : List String :=
  ["00", "01", "10", "11"] ++ (if second then ["02", "20", "22"] else [])

/-- For each seed the kernels of all numbers of Cliffords and all interleaved ones, and then the calibration points. -/
def seedRows (seeds : Nat) (counts extras : List Value) (point : Nat → Int → Value → Drawing (List Kernel))
    (calibration : Attempt (List Kernel)) : Drawing (List Kernel) := do
  let rows ← (List.range seeds).mapM fun seed => do
    let points ← counts.mapM fun c => do
      let count ← countOf c
      return (← extras.mapM fun x => point seed count x).flatten
    return points.flatten ++ (← calibration)
  return rows.flatten

structure Benchmark where
  qubits : List Qubit
  /-- Each qubit has a sequence of its own, and these are played at the same time. -/
  together : Bool
  start : Bool
  phase : PhaseGate
  top : Int
  wanted : List Int

namespace Benchmark

def group (b : Benchmark) : Group := if b.together || b.qubits.length == 1 then .single else .pair

def kernelText (count : Int) (seed : Nat) (extra : Value) (wanted : Int) : String :=
  "RB_" ++ Decimal.intText count ++ "Cl_s" ++ Decimal.natText seed ++ "_net" ++ Decimal.intText wanted ++
    "_inter" ++ extra.display

def pointKernels (b : Benchmark) (seed : Nat) (count : Int) (extra : Value) : Drawing (List Kernel) := do
  let extra? ← extraOf extra
  let name := kernelText count seed extra
  if b.together then
    b.wanted.mapM fun w => do
      let bodies ← b.qubits.mapM fun q => do oneQubitBody q (← drawClosed count extra? w)
      return benchmarkKernel (name w) b.qubits b.start (inTurns bodies)
  else
    let ns ← drawn (drawSequence b.group b.top count extra?)
    sequenceKernels b.group b.qubits b.start b.phase name b.wanted ns

def calibration (b : Benchmark) (calibrate second : Bool) : Attempt (List Kernel) :=
  if !calibrate then .ok []
  else match b.qubits with
    | [q] => .ok (onePoints q second [q])
    | qs => statePoints qs (benchmarkStates second)

def kernels (b : Benchmark) (seeds : Nat) (counts extras : List Value) (calibrate second : Bool) :
    Drawing (List Kernel) :=
  seedRows seeds counts extras b.pointKernels (b.calibration calibrate second)

end Benchmark

def characterPaulis : List (List String) :=
  [["II", "IZ", "ZI", "ZZ"], ["IX", "IY", "ZX", "ZY"], ["XI", "XZ", "YI", "YZ"], ["XX", "XY", "YX", "YY"]]

structure Character where
  first : Qubit
  second : Qubit
  pulse : String

namespace Character

def kernelText (count : Int) (seed : Nat) (extra : Value) (pauli : String) : String :=
  "CharBench_P" ++ pauli ++ "_" ++ Decimal.intText count ++ "Cl_s" ++ Decimal.natText seed ++ "_inter" ++ extra.display

def phase (b : Character) : PhaseGate := ⟨b.pulse, [.int 2, .int 0], [], false⟩

def kernelOf (b : Character) (name : String) (gs : List PairGate) : Kernel :=
  kernel name ([prepare b.first, prepare b.second] ++ gateBody [b.first, b.second] b.phase gs ++
    [measure b.first, measure b.second])

/-- The kernels for one drawn sequence: its first Clifford is joined with a random Pauli of each class. -/
def sequenceKernels (b : Character) (name : String → String) (ns : List Int) : Drawing (List Kernel) := do
  let first ← orFail .index ns.head?
  let rest : List (List PairGate) ← ((ns.drop 1).mapM (cliffordGates .pair) : Attempt _)
  characterPaulis.mapM fun paulis => do
    let picked ← drawn fun m => .ok (m.draw 4 1)
    let pauli := paulis.getD (picked.headD 0) ""
    let p ← cliffordNumber .pair ((commonNumber? pauli).getD 0)
    let joined ← orFail .value (Group.pair.mul? (← cliffordNumber .pair first) p)
    return b.kernelOf (name pauli) (gatesOf .pair joined ++ rest.flatten)

/-- The kernels for a number of Cliffords and an interleaved one; the random Cliffords act on each qubit by itself. -/
def pointKernels (b : Character) (seed : Nat) (count : Int) (extra : Value) : Drawing (List Kernel) := do
  let ns ← drawn (drawSequence .pair 567 count (← extraOf extra))
  let r ← recoveryOf .pair (.ok 0) ns
  b.sequenceKernels (kernelText count seed extra) (ns ++ [(r : Int)])

def calibration (b : Character) (calibrate second : Bool) : Attempt (List Kernel) :=
  if calibrate then statePoints [b.first, b.second] (benchmarkStates second) else .ok []

def kernels (b : Character) (seeds : Nat) (counts extras : List Value) (calibrate second : Bool) :
    Drawing (List Kernel) :=
  seedRows seeds counts extras b.pointKernels (b.calibration calibrate second)

end Character

end QubitLab.Program
