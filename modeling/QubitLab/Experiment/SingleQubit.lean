import QubitLab.Clifford.Sequence
import QubitLab.Decimal.Notation
import QubitLab.Text.Search
import QubitLab.Value.Number

/-!
# Experiments on one qubit

Relaxation, Ramsey and echo decay, Rabi oscillations, pulse calibrations, readout tests, flux experiments and
randomized benchmarking.
-/

namespace QubitLab.Experiment

/-!
## Experiment programs

An experiment is a program in the gate language: lines that declare the qubits, then one block of lines for each point
that is measured. `Role` says what a block is for: most hold data, and the last four of a list with
calibration points prepare the ground state twice and the excited state twice.
-/

structure Program where
  name : String
  header : String
  blocks : List (List String)
  deriving Inhabited

def Program.text (p : Program) : String := p.header ++ String.join (p.blocks.map String.join)

inductive Role
  | data
  | ground
  | excited
  deriving DecidableEq, Repr

def role (calibrate : Bool) (n i : Nat) : Role :=
  if calibrate && (i + 4 == n || i + 3 == n) then .ground
  else if calibrate && (i + 2 == n || i + 1 == n) then .excited
  else .data

/-! ## Lines -/

def declare (q : String) : String := "qubit " ++ q ++ " \n"

def initLine : String := "\ninit_all\n"

def readoutLine (q : String) : String := "RO " ++ q ++ "  \n"

def gateLine (g q : String) : String := g ++ " " ++ q ++ "\n"

def spacedGateLine (g q : String) : String := g ++ " " ++ q ++ " \n"

def idleLine (n : Int) : String := "Idx " ++ Decimal.intText n ++ " \n"

def waitLine (n : Int) : String := "I " ++ Decimal.intText n ++ "\n"

/-! ## Durations -/

def rounded (x : Float) : Attempt Int :=
  match Decimal.nearest? x with
  | some n => .ok n
  | none => (Number.real x).truncate

def nearestCycles (t cycle : Float) : Attempt Int := rounded (t / cycle)

def wholeCycles (t cycle : Float) : Attempt Int := do (← Number.floorDiv (.real t) (.real cycle)).truncate

/-! ## Sweeps -/

/-- The gates of each point of a sweep: `flip` prepares the excited state, and `data` gives the gates of data points. -/
def sweepGates {α : Type} (calibrate : Bool) (flip : List String) (data : Nat → α → Attempt (List String))
    (points : List α) : Attempt (List (List String)) :=
  points.zipIdx.mapM fun (x, i) =>
    match role calibrate points.length i with
    | .ground => .ok []
    | .excited => .ok flip
    | .data => data i x

def sweepBlocks {α : Type} (calibrate : Bool) (start : List String) (flip readout : List String)
    (data : Nat → α → Attempt (List String)) (points : List α) : Attempt (List (List String)) := do
  return (← sweepGates calibrate flip data points).map fun gates => start ++ gates ++ readout

/-! ## Experiments on one qubit -/

def onQubit (name q : String) (blocks : List (List String)) : Program := ⟨name, declare q, blocks⟩

def continuousTone : Program := ⟨"CW_tone.qasm", "", [["Pulse \n"]]⟩

def readoutTrain (q : String) (separation cycle : Float) : Attempt Program := do
  let n ← nearestCycles separation cycle
  return onQubit "CW_RO_sequence.qasm" q [[idleLine n, readoutLine q]]

def pulsedSpectroscopy (q : String) : Program :=
  onQubit "pulsed_spec.qasm" q [["SpecPulse " ++ q ++ " \n", readoutLine q]]

def calibratedSweep {α : Type} (q : String) (calibrate : Bool) (data : Nat → α → Attempt (List String))
    (points : List α) : Attempt (List (List String)) :=
  sweepBlocks calibrate [initLine] [spacedGateLine "X180" q] [readoutLine q] data points

def relaxationGates (q : String) (cycle : Float) (_ : Nat) (t : Float) : Attempt (List String) := do
  let n ← nearestCycles t cycle
  return ["X180 " ++ q ++ "     # exciting pi pulse\n", idleLine n]

def relaxation (q : String) (times : List Float) (cycle : Float) (calibrate : Bool) : Attempt Program := do
  return onQubit "T1.qasm" q (← calibratedSweep q calibrate (relaxationGates q cycle) times)

def flippingGates (q : String) (equator : Bool) (_ : Nat) (n : Attempt Int) : Attempt (List String) := do
  let n ← n
  return List.replicate n.toNat (spacedGateLine "X180" q) ++ (if equator then [spacedGateLine "X90" q] else [])

def flipping (q : String) (flips : List (Attempt Int)) (equator calibrate restless : Bool) : Attempt Program := do
  let start := if restless then [] else [initLine]
  return onQubit "Flipping.qasm" q
    (← sweepBlocks calibrate start [spacedGateLine "X180" q] [readoutLine q] (flippingGates q equator) flips)

def allPairs : List (String × String) :=
  [("I", "I"), ("X180", "X180"), ("Y180", "Y180"), ("X180", "Y180"), ("Y180", "X180"), ("X90", "I"), ("Y90", "I"),
   ("X90", "Y90"), ("Y90", "X90"), ("X90", "Y180"), ("Y90", "X180"), ("X180", "Y90"), ("Y180", "X90"),
   ("X90", "X180"), ("X180", "X90"), ("Y90", "Y180"), ("Y180", "Y90"), ("X180", "I"), ("Y180", "I"),
   ("X90", "X90"), ("Y90", "Y90")]

def doubled {α : Type} (xs : List α) : List α := xs.flatMap fun x => [x, x]

def allXY (q : String) (twice : Bool) : Program :=
  let gate (g : String) : List String := if g == "I" then [] else [gateLine g q]
  onQubit "AllXY.qasm" q ((if twice then doubled allPairs else allPairs).map fun (a, b) =>
    [initLine] ++ gate a ++ gate b ++ [readoutLine q])

def rabiGates (q : String) (n : Nat) (amp : String) : List String :=
  List.replicate n ("Rx " ++ q ++ " " ++ amp ++ " \n")

def rabi (q : String) (amps : List String) (n : Nat) (label : String) : Program :=
  onQubit ("Rabi_" ++ label ++ ".qasm") q (amps.map fun a => [initLine] ++ rabiGates q n a ++ [readoutLine q])

inductive Detuning
  | none
  | turns (n : Int)
  | frequency (f : Float)
  /-- A detuning of which no phase can be made. -/
  | unknown

def Detuning.phase (d : Detuning) (n : Nat) (calibration : Int) (i : Nat) (t : Float) : Attempt Float :=
  match d with
  | .none => .ok 0
  | .turns k =>
    let parts := Float.ofInt ((n : Int) - calibration)
    .ok (Number.floatMod (Float.ofInt (360 * i) / parts * Float.ofInt k) 360)
  | .frequency f => .ok (Number.floatMod (f * t) 1 * 360)
  | .unknown => fail .unset

def lastPulse (q : String) (d : Detuning) (phase : Attempt Float) : Attempt String :=
  match d with
  | .none => .ok ("X90 " ++ q ++ "     \n")
  | _ => do return "R90_phi " ++ q ++ " " ++ Decimal.plain (← phase) ++ "\n"

/-- The gates of a decay in which `idle` makes the lines of the waiting time; `phase` gives the phase at a point. -/
def decayGates (q : String) (cycle : Float) (d : Detuning) (phase : Nat → Float → Attempt Float)
    (idle : Int → List String) (i : Nat) (t : Float) : Attempt (List String) := do
  let n ← nearestCycles t cycle
  let last ← lastPulse q d (phase i t)
  return ["X90 " ++ q ++ "     \n"] ++ idle n ++ [last]

def refocused (q : String) (n : Int) : List String :=
  [idleLine (Int.fdiv n 2), "X180 " ++ q ++ "     \n", idleLine (Int.fdiv n 2)]

def ramsey (q : String) (times : List Float) (cycle : Float) (d : Detuning) (calibrate : Bool) (calibration : Int) :
    Attempt Program := do
  return onQubit "Ramsey.qasm" q (← calibratedSweep q calibrate
    (decayGates q cycle d (d.phase times.length calibration) fun n => [idleLine n]) times)

def echo (q : String) (times : List Float) (cycle : Float) (d : Detuning) (calibrate : Bool) (calibration : Int) :
    Attempt Program := do
  return onQubit "echo.qasm" q (← calibratedSweep q calibrate
    (decayGates q cycle d (d.phase times.length calibration) (refocused q)) times)

def singleElement (q : String) (n : Nat) : Program :=
  onQubit "single_elt_on.qasm" q
    [[initLine] ++ List.replicate n ("X180 " ++ q ++ "     # On \n") ++ [readoutLine q]]

def derivativePair (q : String) : Program :=
  onQubit "Motzoi_XY.qasm" q
    [[initLine, spacedGateLine "Y90" q, spacedGateLine "X180" q, readoutLine q],
     [initLine, spacedGateLine "X90" q, spacedGateLine "Y180" q, readoutLine q]]

def offOn (q word shown : String) : Attempt Program := do
  let off := Text.contains "off" word
  let simultaneous := Text.contains "sim_on" word
  let on := Text.contains "on" word
  if !on && !off then failWith .value ("pulse_comb must contain \"off\" or \"on\" (is " ++ shown ++ ")")
  return onQubit "off_on.qasm" q (
    (if off then [[initLine, readoutLine q]] else []) ++
    (if simultaneous then [[initLine, "X180 " ++ q ++ " | RO " ++ q ++ "  \n"]]
     else if on then [[initLine, "X180 " ++ q ++ "     # On \n", readoutLine q]] else []))

def butterfly (q : String) (initialise : Bool) (label : String) : Program :=
  let pre := if initialise then [readoutLine q] else []
  onQubit ("butterfly_init_" ++ label ++ ".qasm") q
    [[initLine] ++ pre ++ [readoutLine q, readoutLine q],
     [initLine] ++ pre ++ ["X180 " ++ q ++ "  \n", readoutLine q, readoutLine q]]

def derivativeGates (q : String) (i : Nat) (w : String) : List String :=
  let pulse (g : String) := g ++ "_Motz " ++ q ++ " " ++ w ++ " \n"
  if i % 2 = 1 then [pulse "Y90", pulse "X180"] else [pulse "X90", pulse "Y180"]

def derivativeCalibration (q : String) : Role → List String
  | .ground => [readoutLine q]
  | .excited => [spacedGateLine "X180" q, readoutLine q]
  | .data => []

/-- Pulse pairs with varied weight of the derivative. Calibration pulses stand before the pair, not in its place. -/
def derivativeSweep (q : String) (weights : List String) (calibrate : Bool) : Program :=
  onQubit "Motzoi_XY.qasm" q (weights.zipIdx.map fun x =>
    [initLine] ++ derivativeCalibration q (role calibrate weights.length x.2) ++ derivativeGates q x.2 x.1 ++
      [readoutLine q])

/-! ## Flux experiments -/

def quadratures (case : String) (background : Bool) : Attempt (List String) :=
  if case == "sin" then .ok ["Y90"]
  else if case == "cos" then .ok ["X90"]
  else if case == "interleaved" || (background && case == "background") then .ok ["X90", "Y90"]
  else failWith .value ("Unknown case \"" ++ case ++ "\".")

def fluxPhase (q : String) (n : Nat) (calibrate : Bool) (case : String) : Attempt Program := do
  let recs ← quadratures case false
  let blocks := (List.range n).flatMap fun i => recs.map fun r =>
    let body := match role calibrate n i with
      | .ground => []
      | .excited => [spacedGateLine "X180" q]
      | .data => [gateLine "mX90" q, gateLine ("square_" ++ Decimal.natText i) q, gateLine r q]
    [initLine] ++ body ++ [readoutLine q]
  return onQubit "Ram_Z.qasm" q blocks

def fluxPhasePoint (q : String) (before between cycle : Float) : Attempt Program := do
  let a ← wholeCycles before cycle
  let b ← wholeCycles between cycle
  return onQubit "Ram-Z-single.qasm" q
    [[initLine, "QWG trigger \n", waitLine a, gateLine "mX90" q, waitLine b, gateLine "X90" q, readoutLine q]]

def fluxEchoGates (q : String) (i : Nat) : List String :=
  [gateLine "mX90" q, gateLine ("square_" ++ Decimal.natText i) q, gateLine "X180" q, gateLine "square_dummy" q,
   gateLine "X90" q]

def fluxPhaseEcho (q : String) (n : Nat) (calibrate : Bool) : Attempt Program := do
  return onQubit "Ram_Z_echo.qasm" q
    (← calibratedSweep q calibrate (fun i _ => .ok (fluxEchoGates q i)) (List.range n))

def fluxScope (q : String) (n : Nat) (case : String) : Attempt Program := do
  let recs ← quadratures case true
  return onQubit "distortion_scope_fine.qasm" q ((List.range n).flatMap fun i => recs.map fun r =>
    [initLine, gateLine ("long_square_" ++ Decimal.natText i) q, gateLine "X90" q, gateLine "scoping_flux" q,
     gateLine r q, readoutLine q])

def fluxTimingGates (q : String) (between : Attempt Int) (cycle : Float) (_ : Nat) (t : Float) :
    Attempt (List String) := do
  let n ← nearestCycles t cycle
  return ["flux square " ++ q ++ "\n", waitLine n, gateLine "X90" q, waitLine (← between), gateLine "X90" q]

def fluxTiming (q : String) (delays : List Float) (between : Attempt Int) (cycle : Float) (calibrate : Bool) :
    Attempt Program := do
  return onQubit "flux_timing.qasm" q (← calibratedSweep q calibrate (fluxTimingGates q between cycle) delays)

def fluxReadoutShift (q : String) : Program :=
  onQubit "flux_resonator_shift.qasm" q [[initLine, "QWG trigger square\n", readoutLine q]]

/-! ## Benchmarking -/

def cliffordLines (q : String) (ns : List Nat) : List String :=
  ((ns.flatMap Clifford.Single.rotations).filter (· != .I)).map fun r => gateLine r.name q

section Benchmarking

variable {σ : Type} (q : String) (calibrate restless : Bool) (draw : Nat → Int → σ → Attempt (List Nat × σ))

/-- The block of place `j` in a row of `n`, when `k` data blocks come before it. A data block draws a sequence of a
length, and the state of a generator goes through the draws. -/
def benchmarkBlock (n : Nat) (length : Int) (j k : Nat) (s : σ) : Attempt (List String × Nat × σ) :=
  let start := if restless then [] else ["init_all  \n"]
  match role calibrate n j with
  | .ground => .ok (start ++ [readoutLine q], k, s)
  | .excited => .ok (start ++ [spacedGateLine "X180" q, readoutLine q], k, s)
  | .data => do
    let (ns, s) ← draw k length s
    return (start ++ cliffordLines q ns ++ [readoutLine q], k + 1, s)

def benchmarkRow (n : Nat) : List (Int × Nat) → Nat → σ → Attempt (List (List String) × Nat × σ)
  | [], k, s => .ok ([], k, s)
  | (length, j) :: rest, k, s => do
    let (block, k, s) ← benchmarkBlock q calibrate restless draw n length j k s
    let (blocks, k, s) ← benchmarkRow n rest k s
    return (block :: blocks, k, s)

def benchmarkBlocks (lengths : List Int) : Nat → Nat → σ → Attempt (List (List String) × Nat × σ)
  | 0, k, s => .ok ([], k, s)
  | seeds + 1, k, s => do
    let (row, k, s) ← benchmarkRow q calibrate restless draw lengths.length lengths.zipIdx k s
    let (rest, k, s) ← benchmarkBlocks lengths seeds k s
    return (row ++ rest, k, s)

/-- Randomized benchmarking: for each seed one block for each length, `draw` giving the Cliffords of a data block from
the number of data blocks before it. -/
def benchmarking (label : String) (lengths : List Int) (seeds : Nat) (s : σ) : Attempt Program := do
  let (blocks, _, _) ← benchmarkBlocks q calibrate restless draw lengths seeds 0 s
  return onQubit (label ++ ".qasm") q blocks

end Benchmarking

end QubitLab.Experiment
