import QubitLab.Experiment.SingleQubit

/-!
# Experiments on two qubits

Tomography of prepared states and Bell states, pulse pairs on both qubits, chevrons, and the calibration of the
controlled-phase gate.
-/

namespace QubitLab.Experiment

def onPair (name a b : String) (blocks : List (List String)) : Program := ⟨name, declare a ++ declare b, blocks⟩

def pairCalibration (a b : String) : List (List String) :=
  [[], [gateLine "X180" a], [gateLine "X180" b], [gateLine "X180" a, gateLine "X180" b]]

def pairOffOn (a b target : String) (isAll : Bool) : Program :=
  let ro := if isAll then "RO " ++ a ++ " | RO " ++ b ++ " \n" else readoutLine target
  onPair "two_qubit_off_on.qasm" a b ((pairCalibration a b).map fun ps => [initLine] ++ ps ++ [ro])

def tomographyGates : List String := ["I", "X180", "Y90", "mY90", "X90", "mX90"]

def cardinalTomography (a b target : String) (first second : Nat) : Program :=
  let gate (i : Nat) : String := tomographyGates.getD i ""
  let measured := tomographyGates.flatMap fun g => tomographyGates.map fun f =>
    [initLine, gateLine (gate first) a, gateLine (gate second) b, gateLine f a, gateLine g b, readoutLine target]
  onPair "two_qubit_tomo_cardinal.qasm" a b
    (measured ++ (pairCalibration a b).map fun ps => [initLine] ++ ps ++ ["RO " ++ target ++ " \n"])

inductive PairOrder
  | interleaved
  | sandwiched
  | sequential
  | simultaneous
  deriving DecidableEq

def PairOrder.ofWord? : String → Option PairOrder
  | "interleaved" => some .interleaved
  | "sandwiched" => some .sandwiched
  | "sequential" => some .sequential
  | "simultaneous" => some .simultaneous
  | _ => none

def PairOrder.lines (o : PairOrder) (a b : String) (p q : String × String) : List String :=
  match o with
  | .interleaved => [gateLine p.1 a, gateLine q.1 b, gateLine p.2 a, gateLine q.2 b]
  | .sandwiched => [gateLine q.1 b, gateLine p.1 a, gateLine p.2 a, gateLine q.2 b]
  | .sequential => [gateLine p.1 a, gateLine p.2 a, gateLine q.1 b, gateLine q.2 b]
  | .simultaneous => [p.1 ++ " " ++ a ++ " |", gateLine q.1 b, p.2 ++ " " ++ a ++ " |", gateLine q.2 b]

/-- All pulse pairs on both qubits; the second qubit goes through the list twice. -/
def pairAllXY (a b target : String) (o : PairOrder) (twice : Bool) : Program :=
  let firsts := if twice then doubled allPairs else allPairs
  onPair "two_qubit_AllXY.qasm" a b ((firsts.zip (allPairs ++ allPairs)).map fun (p, q) =>
    [initLine] ++ o.lines a b p q ++ [readoutLine target])

def chevron (a b target : String) (isAll excite : Bool) : Program :=
  let ro := if isAll then "RO " ++ a ++ " | RO " ++ b ++ "\n" else "RO " ++ target ++ " \n"
  onPair "chevron_seq.qasm" a b [[initLine,
    if excite then "X180 " ++ a ++ " | X180 " ++ b ++ "\n" else gateLine "X180" a, gateLine "square" a] ++
    (if excite then [gateLine "X180" a] else []) ++ [ro]]

def bellPreparation? : Int → Option (String × String)
  | 0 => some ("Y90", "Y90")
  | 1 => some ("mY90", "Y90")
  | 2 => some ("Y90", "mY90")
  | 3 => some ("mY90", "mY90")
  | _ => none

/-- Tomography of a Bell state with the flux pulse played by one trigger. `skip` is the number of the qubit whose
preparation is left out. -/
def bellTomography (a b target : String) (prep : String × String) (skip : Int) (after : String) (wait flux : Int) :
    Program :=
  let gates (q : String) : List String := "I 20\n" :: (tomographyGates.drop 1).map fun g => gateLine g q
  let prepA := if skip = 2 then "I 20" else gateLine prep.1 a
  let prepB := if skip = 1 then "I 20" else gateLine prep.2 b
  let measured := (gates b).flatMap fun g => (gates a).map fun f =>
    [initLine, "QWG trigger\n", waitLine wait, prepA, prepB, waitLine flux, gateLine after b, g, f, readoutLine target]
  onPair "two_qubit_tomo_bell.qasm" a b (measured ++ (pairCalibration a b).flatMap fun ps =>
    List.replicate 7 ([initLine] ++ ps ++ ["RO " ++ target ++ "\n"]))

/-- The lines between the trigger of a flux pulse and the readout, with or without the other qubit excited. -/
def phaseLines (a b first last : String) (excited : Bool) (wait flux : Int) : List String :=
  let flip := if excited then [gateLine "X180" b] else []
  [waitLine wait] ++ flip ++ [gateLine first a, waitLine flux, gateLine last a] ++ flip

/-- Calibration of the phase of a controlled-phase gate; `waits` has for each case whether the other qubit is excited and the
wait before the first pulse. -/
def phaseCalibration (a b target : String) (waits : List (Bool × Int)) (flux : Int) : Program :=
  onPair "CZ_calibration_seq.qasm" a b (waits.map fun (excited, w) =>
    [initLine, "QWG trigger\n"] ++ phaseLines a b "X90" "Rphi90" excited w flux ++ [readoutLine target])

def fastPhaseCalibration (a b target : String) (n : Nat) (calibrate : Bool) (waits : List (Bool × Int)) (flux : Int) :
    Program :=
  onPair "CZ_fast_calibration_seq.qasm" a b ((List.range n).flatMap fun i =>
    match role calibrate n i with
    | .ground => [[initLine, readoutLine target]]
    | .excited => [[initLine, spacedGateLine "X180" a, spacedGateLine "X180" b, readoutLine target]]
    | .data => waits.map fun (excited, w) =>
      [initLine, "QWG_trigger_" ++ Decimal.natText i ++ "\n"] ++ phaseLines a b "mX90" "X90" excited w flux ++
        [readoutLine target])

/-- The waits of the blocks of a chevron: each block shortens the wait by the duration of the pulse that excites the other
qubit. -/
def chevronWaits {α : Type} [Sub α] (excite : Bool) (pulse : α) : Nat → α → List α
  | 0, _ => []
  | n + 1, wait =>
    let w := if excite then wait - pulse else wait
    w :: chevronWaits excite pulse n w

def chevronBlock (a b target : String) (excite : Bool) (i : Nat) (wait flux : Int) : List String :=
  [initLine, "QWG trigger " ++ Decimal.natText i ++ "\n", waitLine wait, gateLine "X180" a] ++
    (if excite then [gateLine "X180" b] else []) ++ [waitLine flux] ++
    (if excite then [gateLine "X180" a] else []) ++ ["RO " ++ target ++ " \n"]

/-- `flux` is read in each block, and `readout` for the calibration blocks, which are made and not written. -/
def chevronBlocks {α : Type} [Sub α] (a b target : String) (n : Nat) (excite : Bool) (wait pulse : α)
    (cycles : α → Attempt Int) (flux : Attempt Int) (calibrate : Bool) (readout : Attempt String) : Attempt Program := do
  let blocks ← (chevronWaits excite pulse n wait).zipIdx.mapM fun (w, i) => do
    let w ← cycles w
    return chevronBlock a b target excite i w (← flux)
  let _calibration ← if calibrate then
      readout.map fun r => (pairCalibration "\x7b\x7d" "\x7b\x7d").map (· ++ ["RO " ++ r ++ "\n"])
    else .ok []
  return onPair "chevron_block_seq.qasm" a b blocks

end QubitLab.Experiment
