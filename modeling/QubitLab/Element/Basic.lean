import QubitLab.Decimal.Notation
import QubitLab.Pulse.Shape

/-!
# Elements

An element is a set of pulses with start times. A pulse is added relative to another (`Element.add`): its reference
point lies a given time after that of the other. The first readout that is added moves all pulses so that it starts at a
multiple of the fixed point; from then on times are absolute. Before that, the element starts with its earliest pulse.
-/

namespace QubitLab

/-!
## Channels

The outputs of the waveform generators, by name. An output, given by its generator and its id, belongs to one channel:
defining another channel on it removes the first.
-/

inductive ChannelKind
  | analog
  | marker
  | other
  deriving DecidableEq

def ChannelKind.ofWord : String → ChannelKind
  | "analog" => .analog
  | "marker" => .marker
  | _ => .other

structure Channel (τ : Type) where
  id : String
  kind : ChannelKind
  delay : τ
  offset : τ
  high : τ
  low : τ
  active : Bool
  generator : String

inductive Setting (τ : Type)
  | id (id : String)
  | kind (kind : ChannelKind)
  | delay (time : τ)
  | offset (level : τ)
  | high (level : τ)
  | low (level : τ)
  | active (isActive : Bool)
  | generator (name : String)

def Channel.set {τ : Type} (c : Channel τ) : Setting τ → Channel τ
  | .id x => { c with id := x }
  | .kind x => { c with kind := x }
  | .delay x => { c with delay := x }
  | .offset x => { c with offset := x }
  | .high x => { c with high := x }
  | .low x => { c with low := x }
  | .active x => { c with active := x }
  | .generator x => { c with generator := x }

structure Rack (τ : Type) where
  channels : List (String × Channel τ)
  clocks : List (String × τ)

namespace Rack

variable {τ : Type}

def define (r : Rack τ) (name : String) (c : Channel τ) : Rack τ :=
  let kept := r.channels.filter fun (_, d) => !(d.id == c.id && d.generator == c.generator)
  { r with channels := Assoc.put name c kept }

def channel (r : Rack τ) (name : String) : Attempt (Channel τ) := orFail .key (r.channels.lookup name)

/-- Sets an option of a channel, whoever is on its output then. -/
def set (r : Rack τ) (name : String) (s : Setting τ) : Attempt (Rack τ) := do
  let c ← r.channel name
  return { r with channels := Assoc.put name (c.set s) r.channels }

def clock (r : Rack τ) (name : String) : Attempt τ := do orFail .key (r.clocks.lookup (← r.channel name).generator)

def onOutput? (r : Rack τ) (generator id : String) : Option String :=
  (r.channels.find? fun (_, c) => c.generator == generator && c.id == id).map (·.1)

end Rack

/-! ## Elements -/

structure Element (τ π : Type) where
  name : String
  granularity : Int
  minSamples : Int
  isAbsolute : Bool
  /-- Pulses are given the time in the element, not in the pulse. -/
  globalTime : Bool
  timeOffset : τ
  ignoreDelays : Bool
  fixedPoint : τ
  isAligned : Bool := false
  pulses : List (String × Placed τ π) := []
  last? : Option String := none

/-- What has to be added to a time to reach a multiple of the fixed point, in whole nanoseconds. -/
def timeCorrection {τ : Type} [Scalar τ] (t0 fixedPoint : τ) : Attempt τ := do
  return Scalar.round 9 (← orFail .zeroDivision (Scalar.remainder? (fixedPoint - t0) fixedPoint))

namespace Element

variable {τ π : Type} [Scalar τ]

def placed (e : Element τ π) (name : String) : Attempt (Placed τ π) := orFail .key (e.pulses.lookup name)

def freshName (e : Element τ π) (base : String) : String :=
  let taken (i : Nat) : Bool := e.pulses.any fun (n, _) => n == base ++ "-" ++ Decimal.natText i
  base ++ "-" ++ Decimal.natText (((List.range e.pulses.length).find? fun i => !taken i).getD e.pulses.length)

def shift (e : Element τ π) (dt : τ) : Element τ π :=
  { e with isAbsolute := true, pulses := e.pulses.map fun (n, p) => (n, { p with t0 := p.t0 + dt }) }

def startAfter (p : Pulse τ π) (start : τ) (ref : Placed τ π) (point pointNew : Point) : Attempt τ := do
  let t0 := start - p.startOffset
  let stop ← ref.effectiveStop
  let t0 ← match pointNew with
    | .start => .ok (t0 + stop)
    | .stop => do .ok (t0 + (stop - (← p.effectiveLength)))
    | .center => do .ok (t0 + (stop - (← p.effectiveLength) / Scalar.ofInt 2))
  match point with
  | .start => return t0 - (← ref.pulse.effectiveLength)
  | .center => return t0 - (← ref.pulse.effectiveLength) / Scalar.ofInt 2
  | .stop => return t0

def startOf (e : Element τ π) (p : Pulse τ π) (start : τ) (ref? : Option String) (point pointNew : Point) : Attempt τ :=
  match ref? with
  | none => .ok (start - p.startOffset)
  | some ref => do startAfter p start (← e.placed ref) point pointNew

def insert (e : Element τ π) (name : String) (p : Placed τ π) : Element τ π :=
  { e with pulses := Assoc.put name p e.pulses, last? := some name }

def align (e : Element τ π) (t0 : τ) (operation : String) : Attempt (Element τ π) := do
  if operation = "RO" && !e.isAligned then
    return { e.shift (← timeCorrection t0 e.fixedPoint) with isAligned := true }
  else return e

def add (e : Element τ π) (p : Pulse τ π) (name? : Option String) (start : τ) (ref? : Option String)
    (point pointNew : Point) (operation : String) : Attempt (String × Element τ π) := do
  let name := name?.getD (e.freshName p.name)
  let t0 ← e.startOf p start ref? point pointNew
  return (name, ← (e.insert name ⟨p, t0, operation⟩).align t0 operation)

def append (e : Element τ π) : List (Pulse τ π) → Attempt (Option String × Element τ π)
  | [] => .ok (none, e)
  | p :: r => do
    let (n, e) ← e.add p none (Scalar.ofInt 0) e.last? .stop .start "other"
    match r with
    | [] => return (some n, e)
    | _ :: _ => append e r

/-! ## Times -/

def delay (e : Element τ π) (rack : Rack τ) (c : String) : Attempt τ :=
  if e.ignoreDelays then .ok (Scalar.ofInt 0) else do return (← rack.channel c).delay

def sampleOf (rack : Rack τ) (c : String) (t : τ) : Attempt Int := do
  orFail .value (Scalar.truncate? (t * (← rack.clock c) + Scalar.half))

def timeOf (rack : Rack τ) (c : String) (s : Int) : Attempt τ := do return Scalar.ofInt s / (← rack.clock c)

/-- The earliest start of all pulses on their channels, or zero if times are absolute. -/
def offset (e : Element τ π) (rack : Rack τ) : Attempt τ := do
  if e.isAbsolute then return Scalar.ofInt 0
  let starts ← (e.pulses.flatMap fun (_, p) => p.pulse.channels.map fun c => (p.t0, c)).mapM fun (t, c) => do
    return t - (← e.delay rack c)
  orFail .value (Scalar.least? starts)

def startTime (e : Element τ π) (rack : Rack τ) (p : Placed τ π) (c : String) : Attempt τ := do
  return p.t0 - (← e.delay rack c) - (← e.offset rack)

def endTime (e : Element τ π) (rack : Rack τ) (p : Placed τ π) (c : String) : Attempt τ := do
  return (← p.stop) - (← e.delay rack c) - (← e.offset rack)

def startSample (e : Element τ π) (rack : Rack τ) (p : Placed τ π) (c : String) : Attempt Int := do
  sampleOf rack c (← e.startTime rack p c)

def pulseSamples (rack : Rack τ) (p : Placed τ π) (c : String) : Attempt Int := do sampleOf rack c (← p.pulse.length)

def endSample (e : Element τ π) (rack : Rack τ) (p : Placed τ π) (c : String) : Attempt Int := do
  return (← e.startSample rack p c) + (← pulseSamples rack p c) - 1

def idealLength (e : Element τ π) (rack : Rack τ) : Attempt τ := do
  let ends ← (e.pulses.flatMap fun (_, p) => p.pulse.channels.map fun c => (p, c)).mapM fun (p, c) => e.endTime rack p c
  orFail .value (Scalar.greatest? ends)

def roundUp (granularity samples : Int) : Int := samples + (-samples) % (granularity.natAbs : Int)

def samples (e : Element τ π) (rack : Rack τ) (c : String) : Attempt Int := do
  let ends ← (e.pulses.filter fun (_, p) => p.pulse.channels.contains c).mapM fun (_, p) => e.endSample rack p c
  match ends with
  | [] => return 0
  | x :: r =>
    if e.granularity = 0 then fail .zeroDivision
    return roundUp e.granularity (max (r.foldl max x + 1) e.minSamples)

def length (e : Element τ π) (rack : Rack τ) (c : String) : Attempt τ := do
  return Scalar.ofInt (← e.samples rack c) / (← rack.clock c)

end Element

end QubitLab
