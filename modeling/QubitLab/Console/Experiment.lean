import QubitLab.Console.Clifford
import QubitLab.Experiment.TwoQubit

/-!
# Commands that write experiment programs

A command takes the names of qubits and the points of an experiment, and answers with the text of its program.
-/

namespace QubitLab.Console

open Experiment

/-! ## Arguments -/

def floatsArg (v : Value) : Attempt (List Float) :=
  match v with
  | .reals t => .ok t.data.toList
  | .ints t => .ok (t.data.toList.map fun n => (Number.int n).toFloatInf)
  | .bools t => .ok (t.data.toList.map fun b => if b then 1 else 0)
  | _ => fail .sort

def rangeArg (v : Value) : Attempt Nat := do return (← intArg v).toNat

def detuningArg : Value → Detuning
  | .null => .none
  | .int n => .turns n
  | .bool b => .turns (if b then 1 else 0)
  | .real f => .frequency f
  | _ => .unknown

def calibrationCount (v : Value) : Int := 4 * v.int?.getD 0

def isWord (w : String) (v : Value) : Bool := v.text? == some w

def cyclesOf (t cycle : Value) : Attempt Int := do rounded (← (← numberArg t).div (← numberArg cycle))

def programValue (p : Experiment.Program) : Value := .ofTexts [p.name, p.text]

def writer (name : String) (params : List Parameter) (run : Arguments → Attempt Experiment.Program) : Command :=
  define name params fun a => do return programValue (← run a)

/-! ## One qubit -/

/-- The sequence of a data block of randomized benchmarking, when `k` data blocks come before it. -/
def benchmarkDraw (a : Arguments) (k : Nat) (n : Int) (m : Random.Mersenne) : Attempt (List Nat × Random.Mersenne) := do
  let wanted := if (a "double_curves").truth then Value.int (if k % 2 = 0 then 0 else 3) else a "net_clifford"
  let (ns, m) ← benchmarkingSequence (.int n) wanted .single 11520 .null m
  return (ns.map Int.toNat, m)

def benchmarkingOf (m : Random.Mersenne) (a : Arguments) : Attempt Experiment.Program := do
  let items ← itemsArg (a "nr_cliffords")
  let seeds ← rangeArg (a "nr_seeds")
  let calibrate := (a "cal_points").truth
  let lengths ← items.zipIdx.mapM fun (v, i) =>
    if seeds > 0 && role calibrate items.length i == .data then readInt v
    else .ok (v.int?.getD 0)
  let label ← textArg (a "label")
  let p ← benchmarking (a "qubit_name").display calibrate (a "restless").truth (benchmarkDraw a) label lengths seeds m
  return { p with name := Text.lastPart p.name }

def singleQubitWriters (m : Random.Mersenne) : List Command :=
  let qubit (a : Arguments) : String := (a "qubit_name").display
  let decay (f : String → List Float → Float → Detuning → Bool → Int → Attempt Experiment.Program) (a : Arguments) :
      Attempt Experiment.Program := do
    f (qubit a) (← floatsArg (a "times")) (← floatArg (a "clock_cycle")) (detuningArg (a "artificial_detuning"))
      (a "cal_points").truth (calibrationCount (a "cal_points"))
  [writer "CW_tone" [] fun _ => .ok continuousTone,
   writer "CW_RO_sequence" "qubit_name trigger_separation clock_cycle=1e-9" fun a => do
     let _ ← cyclesOf (a "trigger_separation") (a "clock_cycle")
     readoutTrain (qubit a) (← floatArg (a "trigger_separation")) (← floatArg (a "clock_cycle")),
   writer "pulsed_spec_sequence" "qubit_name clock_cycle=1e-9" fun a => .ok (pulsedSpectroscopy (qubit a)),
   writer "T1" "qubit_name times* clock_cycle=1e-9 cal_points+" fun a => do
     relaxation (qubit a) (← floatsArg (a "times")) (← floatArg (a "clock_cycle")) (a "cal_points").truth,
   writer "flipping_seq" "qubit_name number_of_flips equator- cal_points+ restless-"
     fun a => do
       flipping (qubit a) ((← itemsArg (a "number_of_flips")).map intArg) (a "equator").truth (a "cal_points").truth
         (a "restless").truth,
   writer "AllXY" "qubit_name double_points-" fun a => .ok (allXY (qubit a) (a "double_points").truth),
   writer "Rabi" "qubit_name amps n=1" fun a => do
     let amps ← itemsArg (a "amps")
     let n ← if amps.isEmpty then pure 0 else rangeArg (a "n")
     return rabi (qubit a) (amps.map Value.display) n (a "n").display,
   writer "Ramsey" "qubit_name times* clock_cycle=1e-9 artificial_detuning? cal_points+" (decay ramsey),
   writer "echo" "qubit_name times* clock_cycle=1e-9 artificial_detuning? cal_points+" (decay echo),
   writer "single_elt_on" "qubit_name n=1" fun a => do return singleElement (qubit a) (← rangeArg (a "n")),
   writer "two_elt_MotzoiXY" "qubit_name" fun a => .ok (derivativePair (qubit a)),
   writer "off_on" "qubit_name pulse_comb=off_on" fun a => do
     let w ← orFail .member (a "pulse_comb").text?
     offOn (qubit a) (Text.lower w) w,
   writer "butterfly" "qubit_name initialize-" fun a =>
     .ok (butterfly (qubit a) (a "initialize").truth (a "initialize").display),
   writer "randomized_benchmarking" "qubit_name nr_cliffords nr_seeds net_clifford=0 restless-
       label=randomized_benchmarking cal_points+ double_curves-" (benchmarkingOf m),
   writer "MotzoiXY" "qubit_name motzois cal_points+" fun a => do
     return derivativeSweep (qubit a) ((← itemsArg (a "motzois")).map Value.display) (a "cal_points").truth,
   writer "Ram_Z" "qubit_name no_of_points cal_points+ case=interleaved" fun a => do
     let _ ← quadratures (a "case").display false
     fluxPhase (qubit a) (← rangeArg (a "no_of_points")) (a "cal_points").truth (a "case").display,
   writer "Ram_Z_single" "qubit_name wait_before=150e-9 wait_between=200e-9 clock_cycle=1e-9" fun a => do
     fluxPhasePoint (qubit a) (← floatArg (a "wait_before")) (← floatArg (a "wait_between"))
       (← floatArg (a "clock_cycle")),
   writer "Ram_Z_echo" "qubit_name nr_of_points cal_points+" fun a => do
     fluxPhaseEcho (qubit a) (← rangeArg (a "nr_of_points")) (a "cal_points").truth,
   writer "distortion_scope_fine_seq" "qubit_name nr_of_points case=interleaved" fun a => do
     let _ ← quadratures (a "case").display true
     fluxScope (qubit a) (← rangeArg (a "nr_of_points")) (a "case").display,
   writer "flux_timing_seq" "qubit_name taus* wait_between=220e-9 clock_cycle=1e-9 cal_points+" fun a => do
     fluxTiming (qubit a) (← floatsArg (a "taus")) (cyclesOf (a "wait_between") (a "clock_cycle"))
       (← floatArg (a "clock_cycle")) (a "cal_points").truth,
   writer "flux_resonator_shift_seq" "qubit_name" fun a => .ok (fluxReadoutShift (qubit a))]

/-! ## Two qubits -/

def bellArg (v : Value) : Attempt ((String × String) × Int) := do
  let x ← numberArg v
  let m ← x.mod (.int 10)
  let prep ← orFailWith .value ("Bell state " ++ v.display ++ " is not defined.")
    (([0, 1, 2, 3] : List Int).findSome? fun k => if Number.eq m (.int k) then bellPreparation? k else none)
  let tens ← x.floorDiv (.int 10)
  return (prep, if Number.eq tens (.int 1) then 1 else if Number.eq tens (.int 2) then 2 else 0)

/-- For each case whether the other qubit is excited and the wait before the first pulse. -/
def caseWaits (a : Arguments) : Attempt (List (Bool × Int)) := do
  (← itemsArg (a "cases")).mapM fun c => do
    let excited := isWord "excitation" c
    let wait ← floatArg (a "wait_after_trigger")
    let wait ← if excited then do pure (wait - (← floatArg (a "mw_pulse_duration"))) else pure wait
    return (excited, ← wholeCycles wait (← floatArg (a "clock_cycle")))

def fluxCycles (a : Arguments) : Attempt Int := do
  wholeCycles (← floatArg (a "wait_during_flux")) (← floatArg (a "clock_cycle"))

def triggeredParams (wait flux : Float) : List Parameter :=
  signature "wait_after_trigger=@ wait_during_flux=@ clock_cycle=1e-9" [.real wait, .real flux]

def chevronParams : List Parameter :=
  signature "q0_name q1_name no_of_points excite_q1-" ++ triggeredParams 40e-9 400e-9 ++
    signature "RO_target=all mw_pulse_duration=40e-9 cal_points+"

def twoQubitWriters : List Command :=
  let pair := signature "q0 q1"
  let ro := may "RO_target" (.text "all")
  let cases := may "cases" (.ofTexts ["no_excitation", "excitation"])
  [writer "two_qubit_off_on" (pair ++ signature "RO_target=all") fun a =>
     .ok (pairOffOn (a "q0").display (a "q1").display (a "RO_target").display (isWord "all" (a "RO_target"))),
   writer "two_qubit_tomo_cardinal" (signature "cardinal" ++ pair ++ signature "RO_target=all") fun a => do
     let x ← textArg (a "q0")
     let y ← textArg (a "q1")
     let c ← numberArg (a "cardinal")
     let first ← (← c.mod (.int 6)).truncate
     let rest ← (← c.sub (.int first)).div (.int 6)
     let second ← (← Number.mod (.real rest) (.int 6)).truncate
     return cardinalTomography x y (← textArg (a "RO_target")) first.toNat second.toNat,
   writer "two_qubit_AllXY" (pair ++ signature "RO_target=all sequence_type=sequential replace_q1_pulses_X180-
       double_points-") fun a => do
     let o ← orFailWith .value ("sequence_type " ++ (a "sequence_type").display ++
       " ['interleaved', 'simultaneous', 'sequential', 'sandwiched']")
       ((a "sequence_type").text?.bind PairOrder.ofWord?)
     return pairAllXY (a "q0").display (a "q1").display (a "RO_target").display o (a "double_points").truth,
   writer "chevron_seq" "fluxing_qubit spectator_qubit excite_q1- RO_target=all" fun a =>
     .ok (chevron (a "fluxing_qubit").display (a "spectator_qubit").display (a "RO_target").display
       (isWord "all" (a "RO_target")) (a "excite_q1").truth),
   writer "two_qubit_tomo_bell" (signature "bell_state" ++ pair ++ triggeredParams 10e-9 260e-9 ++
       "single_qubit_compiled_phase- RO_target=all") fun a => do
     let x ← textArg (a "q0")
     let y ← textArg (a "q1")
     let (prep, skip) ← bellArg (a "bell_state")
     let plain := match Number.ofValue? (a "single_qubit_compiled_phase") with
       | some n => Number.eq n (.int 0)
       | none => false
     let wait ← wholeCycles (← floatArg (a "wait_after_trigger")) (← floatArg (a "clock_cycle"))
     return bellTomography x y (← textArg (a "RO_target")) prep skip (if plain then "mY90" else "recmY90") wait
       (← fluxCycles a),
   writer "CZ_calibration_seq" (pair ++ [ro, may "CZ_disabled" (.bool false), cases] ++ triggeredParams 40e-9 280e-9 ++
       signature "mw_pulse_duration=40e-9") fun a => do
     let waits ← caseWaits a
     let flux ← if waits.isEmpty then pure 0 else fluxCycles a
     return phaseCalibration (a "q0").display (a "q1").display (a "RO_target").display waits flux,
   writer "CZ_fast_calibration_seq" ([need "q0_name", need "q1_name", need "no_of_points", may "cal_points" (.bool true), ro,
       may "CZ_disabled" (.bool false), cases] ++ triggeredParams 40e-9 280e-9 ++
       signature "mw_pulse_duration=40e-9") fun a => do
     let n ← rangeArg (a "no_of_points")
     let calibrate := (a "cal_points").truth
     let measures := (List.range n).any fun i => role calibrate n i == .data
     let waits ← if measures then caseWaits a else pure []
     let flux ← if waits.isEmpty then pure 0 else fluxCycles a
     return fastPhaseCalibration (a "q0_name").display (a "q1_name").display (a "RO_target").display n calibrate waits
       flux,
   writer "chevron_block_seq" chevronParams fun a => do
     let n ← rangeArg (a "no_of_points")
     let cycle ← floatArg (a "clock_cycle")
     chevronBlocks (a "q0_name").display (a "q1_name").display (a "RO_target").display n (a "excite_q1").truth
       (← floatArg (a "wait_after_trigger")) (← floatArg (a "mw_pulse_duration")) (fun w => wholeCycles w cycle)
       (fluxCycles a) (a "cal_points").truth (textArg (a "RO_target")),
   define "CZ_restless_state_cycling" (pair ++ signature "N=1") fun a => do
     let _ ← intArg (a "N")
     fail .member]

end QubitLab.Console
