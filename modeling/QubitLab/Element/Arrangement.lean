import QubitLab.Element.Basic
import QubitLab.Pulse.Recipe
import QubitLab.Text.Search

/-!
# Elements from lists of pulses

`arrange` builds an element from a list of described pulses, one after the other. Between two pulses lies the delay of the
second and a buffer that depends on what both of them do. Readouts bring markers with them. Pulses on the flux are made
up for by negative ones at the end. All channels play something at the start and at the end, so that none is empty.
-/

namespace QubitLab.Element

open Pulse

/-- A described pulse; two cues with the same label are the same pulse played again. -/
structure Cue where
  label : String
  pars : Fields

def standardTiming : Fields :=
  [("RO_fixed_point", .real 1e-6), ("Buffer_Flux_Flux", .int 0), ("Buffer_Flux_MW", .int 0),
   ("Buffer_Flux_RO", .int 0), ("Buffer_MW_Flux", .int 0), ("Buffer_MW_MW", .int 0), ("Buffer_MW_RO", .int 0),
   ("Buffer_RO_Flux", .int 0), ("Buffer_RO_MW", .int 0), ("Buffer_RO_RO", .int 0),
   ("Flux_comp_dead_time", .real 3e-6), ("slave_AWG_trig_channels", .list [])]

def numberOf (fs : Fields) (k : String) : Attempt Number := do orFail .sort (Number.ofValue? (← Fields.get fs k))

def levelPulse (name : String) (channel : Value) (amplitude : Int) (length : Value) : Attempt (Pulse Number Shape) := do
  return (← Recipe.make .square [("name", .text name), ("channel", channel), ("amplitude", .int amplitude),
    ("length", length)]).pulse

def plainPulse (number : Int) (pars : Fields) : Attempt (Pulse Number Shape) := do
  let sort ← Fields.get pars "pulse_type"
  let word := channelName sort
  let kind ← orFailWith .key ("pulse_type " ++ word ++ " not recognized") (Kind.ofName? word)
  if Fields.has pars "name" then fail .sort
  return (← Recipe.make kind (("name", .text (word ++ "_" ++ Decimal.intText number)) :: pars)).pulse

def readoutPulse? (pars : Fields) : Option (Attempt (Pulse Number Shape)) :=
  let marker (amplitude : Int) : Attempt (Pulse Number Shape) := do
    let length ← Fields.get pars "length"
    levelPulse "RO_marker" (← Fields.get pars "RO_pulse_marker_channel") amplitude length
  match (Fields.get? pars "pulse_type").bind Value.text? with
  | some "MW_IQmod_pulse_tek" => some do
    let args ← ["I_channel", "Q_channel", "length", "amplitude", "mod_frequency"].mapM fun k => do
      return (k, ← Fields.get pars k)
    return (← Recipe.make .modulatedBlock (("name", .text "RO_tone") :: args)).pulse
  | some "Gated_MW_RO_pulse" => some (marker 1)
  | some "MW_IQmod_pulse_UHFQC" => some (marker 0)
  | _ => none

structure Progress where
  element : Element Number Shape
  last? : Option String := none
  operation : String := "other"
  together : List String := []
  flux : List Fields := []

def pointOf (v : Value) : Attempt Point := orFailWith .value "refpoint not recognized" (v.text?.bind Point.ofWord?)

def Progress.play (s : Progress) (p : Pulse Number Shape) (start : Number) (point : Value) (operation : String) :
    Attempt Progress := do
  let (n, e) ← s.element.add p none start s.last? (← pointOf point) .start operation
  return { s with element := e, last? := some n }

def Progress.acquire (s : Progress) (pars : Fields) : Attempt Progress := do
  match ← Fields.get pars "acq_marker_channel" with
  | .text channels =>
    (Text.splitOn "," channels).foldlM (fun s c => do
      let p ← levelPulse "Acq-trigger" (.text c) 1 (.real 20e-9)
      let start ← numberOf pars "acq_marker_delay"
      let (_, e) ← s.element.add p none start s.last? .start .start "other"
      return { s with element := e }) s
  | _ => return s

def Progress.next (timing : Fields) (s : Progress) (number : Int) (cue : Cue) : Attempt Progress := do
  let point := (Fields.get? cue.pars "refpoint").getD (.text "end")
  let operation := channelName ((Fields.get? cue.pars "operation_type").getD (.text "other"))
  let buffer := (Fields.get? timing ("Buffer_" ++ s.operation ++ "_" ++ operation)).getD (.int 0)
  let delay ← numberOf cue.pars "pulse_delay"
  let start ← delay.add (← orFail .sort (Number.ofValue? buffer))
  let isTogether := point.same (.text "simultaneous")
  let isAgain := s.together.contains cue.label
  let point := if isTogether then Value.text "start" else point
  let start := if isTogether && !isAgain then Number.int 0 else start
  let pars := Fields.put "operation_type" (.text operation) (Fields.put "refpoint" point cue.pars)
  let s := { s with
    operation
    together := if isTogether then cue.label :: s.together else s.together
    flux := if operation = "Flux" then s.flux ++ [pars] else s.flux }
  match readoutPulse? pars with
  | some p => (← s.play (← p) start point operation).acquire pars
  | none => s.play (← plainPulse number pars) start point operation

def Progress.compensate (timing : Fields) (count : Nat) (s : Progress) (j : Nat) (pars : Fields) :
    Attempt Progress := do
  let amplitude ← (← numberOf pars "amplitude").mul (.int (-1))
  let pars := Fields.put "amplitude" amplitude.toValue pars
  let start ← numberOf timing (if j = 0 then "Flux_comp_dead_time" else "Buffer_Flux_Flux")
  let p ← plainPulse ((count : Int) - 1 + j) pars
  s.play p start (← Fields.get pars "refpoint") (channelName (← Fields.get pars "operation_type"))

def inTurn {α : Type} (add : Progress → Nat → α → Attempt Progress) (s : Progress) (xs : List α) : Attempt Progress :=
  xs.zipIdx.foldlM (fun s (x, i) => add s i x) s

/-- The element of a list of pulses; `index` tells it from others with as many pulses. -/
def arrange (rack : Rack Number) (timing : Fields) (index : String) (cues : List Cue) :
    Attempt (Element Number Shape) := do
  let empty : Element Number Shape :=
    { name := Decimal.natText cues.length ++ "-pulse-elt_" ++ index, granularity := 4, minSamples := 960,
      isAbsolute := false, globalTime := true, timeOffset := .int 0, ignoreDelays := false,
      fixedPoint := ← numberOf timing "RO_fixed_point" }
  let onAll (e : Element Number Shape) (name : String) (length : Float) (last? : Option String) :
      Attempt (Element Number Shape) :=
    rack.channels.foldlM (fun (e : Element Number Shape) (c, _) => do
      return (← e.add (← levelPulse name (.text c) 0 (.real length)) none (.int 0) last? .stop .start "other").2) e
  let s : Progress := { element := ← onAll empty "refpulse_0" 1e-9 none }
  let s ← inTurn (fun s i cue => s.next timing i cue) s cues
  let s ← inTurn (fun s j pars => s.compensate timing cues.length j pars) s s.flux
  let e ← onAll s.element "final_empty_pulse" (if s.flux.isEmpty then 1e-9 else 500e-9) s.last?
  let slaves ← orFail .sort ((Fields.get? timing "slave_AWG_trig_channels").getD (.list [])).items?
  slaves.foldlM (fun (e : Element Number Shape) c => do
    return (← e.add (← levelPulse "slave_trigger" c 1 (.real 20e-9)) none (.real 10e-9) none .stop .start "other").2) e

def distort {τ σ π : Type} (waves : Attempt (List (String × Array σ))) (channels : List String) (e : Element τ π) :
    Attempt (Element τ π) := do
  let _ ← waves
  if channels.isEmpty then return e else fail .member

end QubitLab.Element
