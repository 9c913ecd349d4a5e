import QubitLab.Console.Command
import QubitLab.Element.Waveform
import QubitLab.Pulse.Recipe

/-!
# Commands on elements

A pulse in a request is a record with its kind under `type`, the arguments of that kind, `call` with attributes to adjust
afterwards, and `offsets` with the distances of its logical start and stop.

A request gives channels, options of an element, and steps on it. Each step answers a value or a fault; after a fault the
element is as before the step.
-/

namespace QubitLab.Console

open Pulse

/-! ## Pulses -/

abbrev Tune := QubitLab.Pulse Number Shape

def readPulse (v : Value) : Attempt Tune := do
  let spec ← orFail .sort v.fields?
  let kind ← orFail .member (Kind.ofName? (← textArg (← Fields.get spec "type")))
  let args := spec.filter fun (k, _) => k != "type" && k != "call" && k != "offsets"
  let r ← Recipe.make kind args
  let r ← match Fields.get? spec "call" with
    | some call => r.adjust (← orFail .sort call.fields?)
    | none => .ok r
  match Fields.get? spec "offsets" with
  | some (.list [a, b]) => return { r.pulse with startOffset := ← numberArg a, stopOffset := ← numberArg b }
  | some _ => fail .value
  | none => return r.pulse

def timeValue (t? : Option Number) : Value := ((t?.map fun t => Value.real t.toFloatInf)).getD .null

def readTimes (v : Value) : Attempt (List Float) := do
  let xs ← v.readWords.toArray
  return (← orFail .sort (Value.allSome Value.toFloat? xs.leaves)).toList

abbrev Score := Element Number Shape

/-! ## Channels -/

def readChannel (v : Value) : Attempt (String × Channel Number) := do
  let args ← orFail .sort v.fields?
  let known := ["id", "name", "type", "delay", "offset", "high", "low", "active", "AWG"]
  if args.any fun (k, _) => !known.contains k then fail .sort
  let need (k : String) : Attempt Value := orFail .sort (Fields.get? args k)
  let generator := match Fields.get? args "AWG" with
    | some v => if v.isNull then "AWG" else channelName v
    | none => "AWG"
  let number (k : String) : Attempt Number := do numberArg (← need k)
  return (channelName (← need "name"),
    { id := channelName (← need "id"), kind := ChannelKind.ofWord (channelName (← need "type")),
      delay := ← number "delay", offset := ← number "offset", high := ← number "high", low := ← number "low",
      active := (← need "active").truth, generator })

def standardChannels : List (String × Channel Number) :=
  let analog (n : String) : Channel Number :=
    { id := n, kind := .analog, delay := .int 0, offset := .real 0, high := .real 0.7, low := .real (-0.7),
      active := true, generator := "AWG" }
  let marker (n : String) : Channel Number := { analog n with kind := .marker, high := .real 2, low := .int 0 }
  let outputs := ["ch1", "ch2", "ch3", "ch4"]
  (outputs.map fun n => (n, analog n)) ++
    (outputs.flatMap fun n => ["_marker1", "_marker2"].map fun m => (n ++ m, marker (n ++ m)))

/-- The setup that a request describes; a clock has to lie between 1 MHz and 1.2 GHz. -/
def readRack (req : Fields) : Attempt (Rack Number) := do
  let clock ← numberArg ((Fields.get? req "clock").getD (.real 1e9))
  if clock.lt (.real 1e6) || Number.lt (.real 1.2e9) clock then fail .value
  let channels ← match (Fields.get? req "channels").getD .null with
    | .null => .ok standardChannels
    | v => (← listArg v).mapM readChannel
  return channels.foldl (fun r (n, c) => r.define n c) { channels := [], clocks := [("AWG", clock)] }

/-! ## Elements -/

def readElement (name : String) (opts : Fields) : Attempt Score := do
  let get (k : String) (v : Value) : Value := (Fields.get? opts k).getD v
  return {
    name
    granularity := ← intArg (get "granularity" (.int 4))
    minSamples := ← intArg (get "min_samples" (.int 960))
    isAbsolute := (get "ignore_offset_correction" (.bool false)).truth
    globalTime := (get "global_time" (.bool true)).truth
    timeOffset := ← numberArg (get "time_offset" (.int 0))
    ignoreDelays := (get "ignore_delays" (.bool false)).truth
    fixedPoint := ← numberArg (get "readout_fixed_point" (.real 1e-6)) }

def readPoint (v : Value) : Attempt Point := orFailWith .value "refpoint not recognized" (v.text?.bind Point.ofWord?)

def nameArg? (v : Value) : Option String := if v.isNull then none else some (channelName v)

def addPulse (e : Score) (p : Tune) (kw : Fields) : Attempt (String × Score) := do
  let known := ["name", "start", "refpulse", "refpoint", "refpoint_new", "operation_type"]
  if kw.any fun (k, _) => !known.contains k then fail .sort
  let get (k : String) (v : Value) : Value := (Fields.get? kw k).getD v
  let start ← numberArg (get "start" (.int 0))
  let point ← readPoint (get "refpoint" (.text "end"))
  let pointNew ← readPoint (get "refpoint_new" (.text "start"))
  e.add p (nameArg? (get "name" .null)) start (nameArg? (get "refpulse" .null)) point pointNew
    (channelName (get "operation_type" (.text "other")))

def level (x : Number) : Float := x.toFloatInf

def playShape (s : Shape) (c : String) (times : List Number) : Attempt (List Float) := s.play c (times.map level)

def wavesValue (waves : Waveforms Float) : Value := .record (waves.map fun (n, w) => (n, Report.runs 7 w))

/-! ## Steps -/

structure Bench where
  rack : Rack Number
  element : Score
  replaced : Waveforms Float := []

/-- Waves that were worked on in place: of those that replace others, marker waves take the second form and others the
first. -/
def Bench.settle (b : Bench) (analog marker : Waveforms Float) : Bench :=
  { b with replaced := b.replaced.map fun (n, w) =>
      match b.rack.channels.lookup n with
      | some c => (n, ((if c.kind = .marker then marker else analog).lookup n).getD w)
      | none => (n, w) }

def realTimes (b : Bench) (v : Value) (c : String) : Attempt Value := do
  let xs ← readTimes v
  let delay := level (← b.element.delay b.rack c)
  let clock := level (← b.rack.clock c)
  let ys ← xs.mapM fun t => do
    return (Number.int (← orFail .value (Decimal.truncate? ((t + delay) * clock + 0.5)))).toFloatInf / clock
  return .ofReals ys.toArray

def elementQuery (b : Bench) (name : String) : Option (List Parameter × (Arguments → Attempt Value)) :=
  let e := b.element
  let time (r : Attempt Number) : Attempt Value := do return (← r).toValue
  let count (r : Attempt Int) : Attempt Value := do return .int (← r)
  let onPulse (f : Placed Number Shape → String → Attempt Number) : List Parameter × (Arguments → Attempt Value) :=
    (signature "pname cname", fun a => do time (f (← e.placed (channelName (a "pname"))) (channelName (a "cname"))))
  let onSample (f : Placed Number Shape → String → Attempt Int) : List Parameter × (Arguments → Attempt Value) :=
    (signature "pname cname", fun a => do count (f (← e.placed (channelName (a "pname"))) (channelName (a "cname"))))
  match name with
  | "offset" => some ([], fun _ => time (e.offset b.rack))
  | "ideal_length" => some ([], fun _ => time (e.idealLength b.rack))
  | "length" => some (signature "c", fun a => time (e.length b.rack (channelName (a "c"))))
  | "samples" => some (signature "c", fun a => count (e.samples b.rack (channelName (a "c"))))
  | "channel_delay" => some (signature "c", fun a => time (e.delay b.rack (channelName (a "c"))))
  | "_clock" => some (signature "c", fun a => time (b.rack.clock (channelName (a "c"))))
  | "_time2sample" => some (signature "c t", fun a => do
      count (Element.sampleOf b.rack (channelName (a "c")) (← numberArg (a "t"))))
  | "_time2sampletime" => some (signature "c t", fun a => do
      let c := channelName (a "c")
      time (Element.timeOf b.rack c (← Element.sampleOf b.rack c (← numberArg (a "t")))))
  | "_sample2time" => some (signature "c s", fun a => do
      return .real (← (← numberArg (a "s")).div (← b.rack.clock (channelName (a "c")))))
  | "real_time" => some (signature "t c", fun a => do
      let c := channelName (a "c")
      time (Element.timeOf b.rack c (← Element.sampleOf b.rack c ((← numberArg (a "t")) + (← e.delay b.rack c)))))
  | "_auto_pulse_name" => some (signature "base=pulse", fun a => do return .text (e.freshName (← textArg (a "base"))))
  | "next_pulse_time" => some (signature "cname t0=0", fun a => do
      match e.last? with
      | none => return .int 0
      | some n =>
        time do return (← numberArg (a "t0")) + (← (← e.placed n).effectiveStop) -
          (← e.delay b.rack (channelName (a "cname"))) - (← e.offset b.rack))
  | "next_pulse_global_time" => some (signature "cname t0=0", fun a => do
      match e.last? with
      | none => time do return e.timeOffset - (← e.delay b.rack (channelName (a "cname")))
      | some n =>
        time do return (← numberArg (a "t0")) + (← (← e.placed n).effectiveStop) + e.timeOffset - (← e.offset b.rack))
  | "pulse_start_time" => some (onPulse fun p c => e.startTime b.rack p c)
  | "pulse_end_time" => some (onPulse fun p c => e.endTime b.rack p c)
  | "pulse_global_end_time" => some (onPulse fun p c => do
      return (← e.endTime b.rack p c) + e.timeOffset - (← e.offset b.rack))
  | "effective_pulse_start_time" => some (onPulse fun p c => do return (← e.startTime b.rack p c) + p.pulse.startOffset)
  | "effective_pulse_end_time" => some (onPulse fun p c => do return (← e.endTime b.rack p c) - p.pulse.stopOffset)
  | "pulse_length" => some (signature "pname", fun a => do
      return ((← e.placed (channelName (a "pname"))).pulse.length?.map Number.toValue).getD .null)
  | "pulse_start_sample" => some (onSample fun p c => e.startSample b.rack p c)
  | "pulse_samples" => some (onSample fun p c => Element.pulseSamples b.rack p c)
  | "pulse_end_sample" => some (onSample fun p c => e.endSample b.rack p c)
  | _ => none

def isClocked (time clock : Value) : Attempt Bool := do
  let x ← (← numberArg time).mul (.real 1e11)
  let period := (← Number.div (.int 1) (← numberArg clock)) * 1e11
  return Number.floatMod (Scalar.round 0 x.toFloatInf) period == 0

end QubitLab.Console
