import QubitLab.Sweep.Points

/-!
# Shapes of pulses

What a pulse plays on a channel at given times. Numbers that were not given are `none`; a shape that needs one cannot be
played.
-/

/-!
## Pulses

A pulse plays a shape on some channels for a length of time. Its logical start and stop, by which other pulses refer to
it, may lie a bit inside or outside of it. A pulse that is placed in an element has a start time.

An envelope with two quadratures is turned with the phase of the carrier and predistorted for a mixer whose quadratures
differ in gain and are not at a right angle.
-/

namespace QubitLab

/-! ## Pulses -/

structure Pulse (τ π : Type) where
  name : String
  channels : List String
  length? : Option τ
  startOffset : τ
  stopOffset : τ
  shape : π

structure Placed (τ π : Type) where
  pulse : Pulse τ π
  t0 : τ
  operation : String

inductive Point
  | start
  | center
  | stop
  deriving DecidableEq

def Point.ofWord? : String → Option Point
  | "start" => some .start
  | "center" => some .center
  | "end" => some .stop
  | _ => none

variable {τ π : Type} [Scalar τ]

namespace Pulse

def length (p : Pulse τ π) : Attempt τ := orFail .sort p.length?

def effectiveLength (p : Pulse τ π) : Attempt τ := do return (← p.length) - p.startOffset - p.stopOffset

end Pulse

namespace Placed

def effectiveStart (p : Placed τ π) : τ := p.t0 + p.pulse.startOffset

def stop (p : Placed τ π) : Attempt τ := do return p.t0 + (← p.pulse.length)

def effectiveStop (p : Placed τ π) : Attempt τ := do return (← p.stop) - p.pulse.stopOffset

end Placed

end QubitLab

namespace QubitLab.Pulse

/-! ## Modulation onto a carrier -/

structure Mixer where
  tan : Float
  gain : Float

def Mixer.ofSkew (alpha skew : Float) : Mixer :=
  let x := 2 * Function.pi * skew / 360
  ⟨Float.tan x, 1 / (Float.cos x * alpha)⟩

def carrierPhase (frequency phase t : Float) : Float := 2 * Function.pi * (frequency * t + phase / 360)

def Mixer.first (m : Mixer) (i q x : Float) : Float :=
  i * (Float.cos x - m.tan * Float.sin x) + q * (Float.sin x + m.tan * Float.cos x)

def Mixer.second (m : Mixer) (i q x : Float) : Float := -1 * i * m.gain * Float.sin x + q * m.gain * Float.cos x

end QubitLab.Pulse

namespace QubitLab.Pulse

/-- A carrier; if it is not locked, its phase counts from the start of the pulse. -/
structure Tone where
  frequency : Option Float
  phase : Option Float
  locked : Bool

structure Skew where
  alpha : Option Float
  phi : Option Float

structure Bell where
  amplitude : Option Float
  sigma : Option Float
  drag : Option Float
  length : Option Float

inductive Shape
  | silent
  | level (amplitude : Option Float)
  | cosine (amplitude frequency phase : Option Float)
  | ramp (first last : Option Float)
  | clockTrain (amplitude : Value) (cycles up down : Value)
  | markerTrain (amplitude : Option Float) (count markerLength separation length : Value)
  | block (amplitude length : Option Float) (i q : String) (tone : Tone) (skew : Skew)
  | drag (bell : Bell) (i q : String) (tone : Tone) (skew : Skew)
  | split (bell : Bell) (gi gq di dq : String) (tone : Tone) (bellSkew slopeSkew : Skew)
  | fluxBlock (amplitude flat total : Option Float)
  /-- A number spelled on marker channels, with a trigger. -/
  | codeword (amplitude : Option Float) (high low : List String) (trigger : String)

def known (x : Option Float) : Attempt Float := orFail .sort x

def Skew.mixer (s : Skew) : Attempt Mixer := do return Mixer.ofSkew (← known s.alpha) (← known s.phi)

/-- Checks that the times lie within a length from the first; a pulse cannot be played on others. -/
def checkSpan (length : Option Float) (times : List Float) : Attempt Unit := do
  let first ← orFail .index times.head?
  let stop := first + (← known length)
  let inside := times.reverse.dropWhile fun t => !(decide (t ≤ stop))
  if inside.isEmpty then fail .index
  if inside.length ≠ times.length then fail .value

def Tone.phases (tone : Tone) (times : List Float) : Attempt (List Float) := do
  let f ← known tone.frequency
  let phase ← known tone.phase
  let shift := if tone.locked then 0 else times.headD 0
  return times.map fun t => carrierPhase f phase (t - shift)

def Bell.envelope (b : Bell) (times : List Float) : Attempt (List Float) := do
  let amplitude ← known b.amplitude
  let sigma ← known b.sigma
  let middle := (← known b.length) / 2
  let first := times.headD 0
  return times.map fun t =>
    let d := t - first - middle
    amplitude * Float.exp (-(0.5 * (d * d) / (sigma * sigma)))

def Bell.slope (b : Bell) (times envelope : List Float) : Attempt (List Float) := do
  let sigma ← known b.sigma
  let drag ← known b.drag
  let middle := (← known b.length) / 2
  let first := times.headD 0
  return times.zipWith (fun t g => drag * -1 * (t - first - middle) / sigma * g) envelope

def centred (xs : List Float) : List Float :=
  let level := (xs.headD 0 + xs.getLastD 0) / 2
  xs.map (· - level)

def playPair (m : Mixer) (i q phases : List Float) (first second : Bool) : List Float :=
  let at1 := ((i.zip q).zip phases).map fun ((a, b), x) => if first then m.first a b x else 0
  let at2 := ((i.zip q).zip phases).map fun ((a, b), x) => if second then m.second a b x else 0
  if first && second then at1.zipWith (· + ·) at2 else if first then at1 else at2

def repeated {α : Type} (count : Value) (xs : List α) : Attempt (List α) := do
  let n ← orFail .sort count.int?
  return (List.replicate n.toNat xs).flatMap id

def countUp (v : Value) : Attempt Nat := do
  let x ← (← orFail .sort (Number.ofValue? v)).toFloat
  return (← orFail .value (Decimal.ceil? x)).toNat

def nearestSamples (x : Float) : Attempt Int :=
  if x.isInf then fail .overflow else orFail .value (Decimal.nearest? x)

def hold (level : Float) (samples : Int) : Attempt (List Float) :=
  if samples < 0 then fail .value else .ok (List.replicate samples.toNat level)

def nanoseconds (x : Number) : Attempt Nat := do
  let n ← nearestSamples (x.toFloatInf * 1e9)
  if n < 0 then fail .value
  return n.toNat

def Shape.train? : Shape → Option (Attempt (List Value))
  | .clockTrain amplitude cycles up down => some do
    let cell := List.replicate (← countUp up) amplitude ++ List.replicate (← countUp down) (.int 0)
    repeated cycles cell
  | .markerTrain _ count markerLength separation length => some do
    let number (v : Value) : Attempt Number := orFail .sort (Number.ofValue? v)
    let marker ← number markerLength
    let gap ← (← number separation).sub marker
    let cell := List.replicate (← nanoseconds marker) (Value.real 1) ++
      List.replicate (← nanoseconds gap) (.real 0)
    let wave ← repeated count cell
    let total ← nearestSamples ((← number length).toFloatInf * 1e9)
    if total ≠ wave.length then failWith .value "Waveform length is not equal to expected length"
    return wave
  | _ => none

def Shape.play (s : Shape) (channel : String) (times : List Float) : Attempt (List Float) :=
  match s with
  | .silent => fail .member
  | .level amplitude => do
    let a ← known amplitude
    return times.map fun _ => a
  | .cosine amplitude frequency phase => do
    let a ← known amplitude
    let f ← known frequency
    let p ← known phase
    return times.map fun t => a * Float.cos (carrierPhase f p t)
  | .ramp first last => do return (Sweep.spaced (← known first) (← known last) times.length).toList
  | .clockTrain .. | .markerTrain .. => do
    match s.train? with
    | some wave => (← wave).mapM fun v => do (← orFail .sort (Number.ofValue? v)).toFloat
    | none => return []
  | .block amplitude length i q tone skew => do
    checkSpan length times
    let a ← known amplitude
    let phases ← tone.phases times
    let m ← skew.mixer
    return playPair m (times.map fun _ => a) (times.map fun _ => 0) phases (channel == i)
      (channel != i && channel == q)
  | .drag bell i q tone skew => do
    checkSpan bell.length times
    let envelope ← bell.envelope times
    let slope ← bell.slope times envelope
    let phases ← tone.phases times
    let m ← skew.mixer
    return playPair m (centred envelope) (centred slope) phases (channel == i) (channel == q)
  | .split bell gi gq di dq tone bellSkew slopeSkew => do
    checkSpan bell.length times
    let envelope ← bell.envelope times
    let zeros := times.map fun _ => (0 : Float)
    let phases ← tone.phases times
    if channel == gi || channel == gq then
      return playPair (← bellSkew.mixer) (centred envelope) zeros phases (channel == gi) (channel != gi)
    else if channel == di || channel == dq then
      let slope ← bell.slope times envelope
      return playPair (← slopeSkew.mixer) zeros (centred slope) phases (channel == di) (channel != di)
    else return zeros
  | .fluxBlock amplitude flat total => do
    let a ← known amplitude
    let flat ← known flat
    let up ← hold a (← nearestSamples (flat * 1e9))
    return up ++ (← hold 0 (← nearestSamples (((← known total) - flat) * 1e9)))
  | .codeword amplitude high low trigger => do
    if high.contains channel then
      let a ← known amplitude
      return times.map fun _ => a
    else if low.contains channel then return times.map fun _ => 0
    else if channel == trigger then
      let n := times.length / 2
      return List.replicate n 0 ++ List.replicate (times.length - n) 1
    else fail .sort

def Shape.amplitude? : Shape → Option Float
  | .level a | .cosine a _ _ | .block a .. | .fluxBlock a .. | .codeword a .. | .markerTrain a .. => a
  | .drag bell .. | .split bell .. => bell.amplitude
  | .clockTrain a .. => (Number.ofValue? a).map Number.toFloatInf
  | .silent | .ramp .. => none

def Shape.phase? : Shape → Option Float
  | .cosine _ _ p => p
  | .block _ _ _ _ tone _ | .drag _ _ _ tone _ | .split _ _ _ _ _ tone _ _ => tone.phase
  | _ => none

end QubitLab.Pulse
