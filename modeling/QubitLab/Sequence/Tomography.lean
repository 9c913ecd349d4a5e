import QubitLab.Sequence.Plan

/-!
# Tomography of two qubits

Two qubits are prepared, go through a controlled phase and are measured in all directions. Operations are named by the
operation and the qubit, such as `X180 q0`.
-/

namespace QubitLab.Sequence

open Element (numberOf)

def operations (fs : Fields) : Palette := fs.filterMap fun (k, v) => v.fields?.map fun pars => (k, pars)

def cardinalWords : List String := ["I", "X180", "Y90", "mY90", "X90", "mX90"]

def cardinalPair (n : Int) : Nat × Nat :=
  let i := n % 6
  (i.toNat, ((n - i) / 6 % 6).toNat)

def cardinalWord (i : Nat) : String := cardinalWords.getD i "I"

def calibrationWords (times : Nat) : List (String × String) :=
  [("I", "I"), ("X180", "I"), ("I", "X180"), ("X180", "X180")].flatMap fun w => List.replicate times w

def bellWords? (state : Int) : Option (String × String × String) :=
  match state with
  | 0 => some ("Y90", "Y90", "mY90")
  | 1 => some ("mY90", "Y90", "mY90")
  | 2 => some ("Y90", "mY90", "mY90")
  | 3 => some ("mY90", "mY90", "mY90")
  | 10 | 12 => some ("Y90", "I", "mY90")
  | 11 | 13 => some ("mY90", "I", "mY90")
  | 20 | 21 => some ("I", "Y90", "mY90")
  | 22 => some ("I", "mY90", "mY90")
  | 23 => some ("mY90", "mY90", "mY90")
  | _ => none

/-- The operations of a controlled phase between two qubits: the recovery swap is the swap unless given, corrections are
played together, and the gate itself may be turned off. -/
def gateOperations (ops : Fields) (qS qCZ : String) (disabled : Bool) : Attempt Palette := do
  let p := operations ops
  let gate := "CZ " ++ qCZ
  let p ← if disabled then do
      discard (p.pars gate)
      .ok ((p.set gate "amplitude" (.int 0)).set gate "phase_corr_pulse_amp" (.int 0))
    else .ok p
  let back := "rSWAP " ++ qS
  let p ← if Fields.has ops back then .ok p else do .ok (Assoc.putAll [(back, ← p.pars ("SWAP " ++ qS))] p)
  discard (p.pars ("CZ_corr " ++ qCZ))
  let p := p.set ("CZ_corr " ++ qCZ) "refpoint" (.text "simultaneous")
  discard (numberOf (← p.pars ("CZ_corr " ++ qCZ)) "amplitude")
  discard (numberOf (← p.pars ("SWAP_corr " ++ qS)) "amplitude")
  return p

def gateTomography (p : Palette) (qS qCZ ro : String) (words : String × String × String) (fullCalibration : Bool) :
    Plan :=
  let gate := ["SWAP " ++ qS, "CZ " ++ qCZ, "rSWAP " ++ qS, "SWAP_corr " ++ qS, "CZ_corr " ++ qCZ]
  let (first, second, after) := words
  let entry (a b c : String) (last : List String) : List String :=
    [a ++ " " ++ qS, b ++ " " ++ qCZ] ++ gate ++ [c ++ " " ++ qCZ] ++ last
  let measured := (List.range 36).map fun (i : Nat) =>
    let (a, b) := cardinalPair i
    entry first second after [cardinalWord b ++ " " ++ qCZ, cardinalWord a ++ " " ++ qS, "RO " ++ ro]
  let calibration := (calibrationWords 7).map fun (w, v) =>
    let last := [v ++ " " ++ qCZ, w ++ " " ++ qS, "RO " ++ ro]
    if fullCalibration then entry "I" "I" "I" last else last
  eachPoint (measured ++ calibration) fun _ names => p.cues names

end QubitLab.Sequence
