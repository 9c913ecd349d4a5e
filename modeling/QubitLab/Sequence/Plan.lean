import QubitLab.Element.Arrangement

/-!
# Plans of sequences

A sequence lists what a generator plays: each step names an element to play, how often, whether to wait for a trigger
first, and where to go on afterwards or on a jump. The names of the steps are all different.

A plan lists the pulses of each element of a sequence. The pulses come from palettes: `rotations` gives the pulses of the
usual rotations, from the parameters of a half turn.
-/

namespace QubitLab

/-! ## Sequences -/

structure Step where
  name : Value
  waveform : Value
  repetitions : Value
  goto : Value
  /-- The step that follows on a jump, null for none. -/
  jump : Value
  wait : Value

structure Sequence where
  name : String
  steps : List Step := []
  /-- The steps to jump to for each bit pattern, if jumps by pattern are in use. -/
  jumps? : Option (List (Value × Value)) := none

namespace Sequence

def append (s : Sequence) (step : Step) : Attempt Sequence := do
  if s.steps.any fun t => t.name.same step.name then
    failWith .key ("Dyplicate element " ++ step.name.display ++ ". Element names in sequence must be unique.")
  return { s with steps := s.steps ++ [step] }

def index (s : Sequence) (name : Value) (start : Int) : Attempt Int := do
  return (← orFail .value (s.steps.findIdx? fun t => t.name.same name) : Nat) + start

def triggered (name : String) : Step := ⟨.text name, .text name, .int 1, .null, .null, .bool true⟩

end Sequence

end QubitLab

namespace QubitLab.Sequence

open Element (Cue numberOf)
open Pulse (Shape)

/-! ## Plans of sequences -/

abbrev Palette := List (String × Fields)

abbrev Plan := List (Attempt (String × List Cue))

def Palette.pars (p : Palette) (name : String) : Attempt Fields := orFail .key (p.lookup name)

def Palette.cue (p : Palette) (name : String) : Attempt Cue := do return ⟨name, ← p.pars name⟩

def Palette.cues (p : Palette) (names : List String) : Attempt (List Cue) := names.mapM p.cue

def Palette.set (p : Palette) (name key : String) (v : Value) : Palette :=
  p.map fun (n, fs) => if n == name then (n, Fields.put key v fs) else (n, fs)

def rotations (pars : Fields) : Attempt Palette := do
  let half ← numberOf pars "amplitude"
  let quarter ← half.mul (← numberOf pars "amp90_scale")
  let full ← half.mul (.int 2)
  let turn (amplitude : Option Number) (aboutY : Bool) : Fields :=
    let fs := (amplitude.map fun a => Fields.put "amplitude" a.toValue pars).getD pars
    if aboutY then Fields.put "phase" (.int 90) fs else fs
  return [("I", turn (some (.int 0)) false), ("X180", turn none false), ("mX180", turn (some half.neg) false),
    ("X90", turn (some quarter) false), ("mX90", turn (some quarter.neg) false), ("Y180", turn none true),
    ("mY180", turn (some half.neg) true), ("Y90", turn (some quarter) true), ("mY90", turn (some quarter.neg) true),
    ("X360", turn (some full) false), ("mX360", turn (some full.neg) false)]

def indexText (i : Nat) : String := Decimal.natText i

def eachPoint {α : Type} (points : List α) (cues : Nat → α → Attempt (List Cue)) : Plan :=
  points.zipIdx.map fun (x, i) => do return (indexText i, ← cues i x)

def perform (rack : Rack Number) (timing : Fields) (name : String) (plan : Plan)
    (finish : Element Number Shape → Attempt (Element Number Shape)) : Attempt (Sequence × List (Element Number Shape)) := do
  let (s, es) ← plan.foldlM (fun (s, es) entry => do
    let (index, cues) ← entry
    let e ← finish (← Element.arrange rack timing index cues)
    return (← s.append (triggered e.name), e :: es)) (({ name } : Sequence), [])
  return (s, es.reverse)

end QubitLab.Sequence
