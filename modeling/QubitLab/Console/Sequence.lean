import QubitLab.Console.Clifford
import QubitLab.Console.Element
import QubitLab.Generator.Program
import QubitLab.Sequence.Tomography

/-!
# Commands on sequences

Steps on a sequence, elements from lists of pulses, programs of the generator, and the sequences of experiments.
-/

namespace QubitLab.Console

open Pulse

/-! ## Programs -/

def outputLimits : Generator.Limits Number :=
  ⟨(.real 0.02, .real 4.5), (.real (-0.1), .real 0.1), (.real (-2.7), .real 2.7)⟩

def programOf (rack : Rack Number) (choice : Generator.Choice) (s : Sequence) (es : List Score) :
    Attempt (Option (Generator.Program Number)) := do
  let waves ← es.mapM fun e => do return (e.name, ← Element.normalized level playShape [] e rack)
  Generator.program level outputLimits choice rack "AWG" s waves

/-- Whether a choice of names takes a name: all of them, those in a list, or those within a text. -/
def takes (v : Value) (name : String) : Bool :=
  match v with
  | .text "all" => true
  | .text s => Text.contains name s
  | v => ((v.items?.getD []).any fun w => w.same (.text name))

/-! ## Sequences of experiments -/

def numberWord (v : Value) : Attempt String := do return Decimal.intText (← (← numberArg v).truncate)

def distortedBy (v : Value) (rack : Rack Number) (e : Score) : Attempt Score := do
  if v.isNull then return e
  let channels ← listArg (← Fields.get (← recordArg v) "ch_list")
  Element.distort (Element.limited level playShape [] e rack) (channels.map channelName) e

def timingOf (v : Value) : Attempt Fields := do
  match ← Fields.get (← recordArg v) "sequencer_config" with
  | .null => return Element.standardTiming
  | v => recordArg v

structure Planner where
  name : String
  params : List Parameter
  run : Rack Number → Arguments → Attempt (Sequence × List Score × Option (Generator.Program Number))

def tomography (name title state : String) (words : Int → Attempt (String × String × String)) : Planner :=
  { name, params := state ++ " operation_dict qS qCZ RO_target distortion_dict CZ_disabled-
      cal_points_with_flux_pulses+ verbose- upload+",
    run := fun rack a => do
      let timing ← timingOf (a "operation_dict")
      let number ← numberWord (a state)
      let ops ← recordArg (a "operation_dict")
      let qS ← textArg (a "qS")
      let qCZ ← textArg (a "qCZ")
      let ro ← textArg (a "RO_target")
      let p ← Sequence.gateOperations ops qS qCZ (a "CZ_disabled").truth
      let plan := Sequence.gateTomography p qS qCZ ro (← words (← readInt (a state))) (a "cal_points_with_flux_pulses").truth
      let (s, es) ← Sequence.perform rack timing (title ++ number ++ "_seq") plan (distortedBy (a "distortion_dict") rack)
      return (s, es, ← programOf rack {} s es) }

def planners : List Planner := [
  tomography "two_qubit_tomo_bell" "2_qubit_Bell_Tomo_" "bell_state" fun n => orFail .unset (Sequence.bellWords? n),
  tomography "two_qubit_tomo_cphase_cardinal" "2_qubit_CPhase_Cardinal_Tomo_" "cardinal_state" fun n =>
    let (i, j) := Sequence.cardinalPair n
    .ok (Sequence.cardinalWord i, Sequence.cardinalWord j, "I")]

end QubitLab.Console
