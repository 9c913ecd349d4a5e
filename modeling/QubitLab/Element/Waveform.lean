import QubitLab.Element.Basic

/-!
# Waveforms of elements

`Element.ideal` adds up what the pulses play on each channel, on top of the level at rest. `Element.limited` brings each
channel within its bounds, and `Element.normalized` scales analog channels to `[-1, 1]` and marker channels to 0 and 1.
`play` says what a shape plays on a channel at given times.
-/

namespace QubitLab

abbrev Waveforms (σ : Type) := List (String × Array σ)

namespace Element

variable {τ σ π : Type} [Scalar τ] [Scalar σ]

/-- The places from `i` to before `j` of a row of `n`, where negative ones count from the end. -/
def span (n : Nat) (i j : Int) : Nat × Nat :=
  let place (k : Int) : Nat := ((if k < 0 then max 0 (k + n) else min k n)).toNat
  (place i, place j - place i)

def addFrom (wave : Array σ) (start : Nat) : List σ → Array σ
  | [] => wave
  | x :: r => addFrom (wave.modify start (· + x)) (start + 1) r

/-- Adds samples to a part of a wave; a single sample is added throughout. -/
def superpose (wave : Array σ) (i j : Int) (xs : List σ) : Attempt (Array σ) := do
  let (start, count) := span wave.size i j
  if xs.length = count then return addFrom wave start xs
  match xs with
  | [x] => return addFrom wave start (List.replicate count x)
  | _ => fail .value

def playTimes (e : Element τ π) (rack : Rack τ) (name : String) (p : Placed τ π) (c : String) (size : Nat) :
    Attempt (List τ) := do
  let clock ← rack.clock c
  let time (k : Nat) : τ := Scalar.ofInt k / clock
  if e.globalTime then
    let first ← e.startSample rack p c
    let last ← e.endSample rack p c
    if first < 0 || last + 1 < 0 then
      failWith .general ("Pulse " ++ name ++ " on channel " ++ c ++ " in element " ++ e.name ++
        " starts at a negative time. Please increase the RO_fixpoint.")
    let (start, count) := span size first (last + 1)
    let delay ← e.delay rack c
    return (List.range count).map fun k => Scalar.round 11 (time (start + k) + delay + e.timeOffset)
  else
    let (_, count) := span size 0 (← pulseSamples rack p c)
    return (List.range count).map time

def addPlayed (e : Element τ π) (rack : Rack τ) (p : Placed τ π) (waves : Waveforms σ) (played : String × List σ) :
    Attempt (Waveforms σ) := do
  let wave ← orFail .key (waves.lookup played.1)
  let wave ← superpose wave (← e.startSample rack p played.1) ((← e.endSample rack p played.1) + 1) played.2
  return Assoc.put played.1 wave waves

def playPulse (play : π → String → List τ → Attempt (List σ)) (e : Element τ π) (rack : Rack τ) (name : String)
    (p : Placed τ π) (waves : Waveforms σ) : Attempt (Waveforms σ) := do
  let times ← p.pulse.channels.mapM fun c => do
    return (c, ← e.playTimes rack name p c (← orFail .key (waves.lookup c)).size)
  let played ← times.mapM fun (c, ts) => do return (c, ← play p.pulse.shape c ts)
  played.foldlM (e.addPlayed rack p) waves

def rest (level : τ → σ) (e : Element τ π) (rack : Rack τ) : Attempt (Waveforms σ) :=
  rack.channels.mapM fun (name, c) => do
    let n ← e.samples rack name
    if n < 0 then fail .value
    discard (rack.clock name)
    return (name, Array.replicate n.toNat (level c.offset))

def ideal (level : τ → σ) (play : π → String → List τ → Attempt (List σ)) (e : Element τ π) (rack : Rack τ) :
    Attempt (Waveforms σ) := do
  e.pulses.foldlM (fun waves (name, p) => playPulse play e rack name p waves) (← rest level e rack)

def limit (kind : ChannelKind) (low high x : σ) : σ :=
  match kind with
  | .analog =>
    let y := if Scalar.below high x then high else x
    if Scalar.below y low then low else y
  | .marker =>
    let y := if Scalar.below low x then high else x
    if Scalar.below y low then low else y
  | .other => x

def normalize (kind : ChannelKind) (low high x : σ) : σ :=
  match kind with
  | .analog => (Scalar.ofInt 2 * x - high - low) / (high - low)
  | .marker =>
    let y := if Scalar.below low x then Scalar.ofInt 1 else x
    if Scalar.below low y then y else Scalar.ofInt 0
  | .other => x

def mapSamples (level : τ → σ) (rack : Rack τ) (f : ChannelKind → σ → σ → σ → σ) (waves : Waveforms σ) : Waveforms σ :=
  waves.map fun (name, wave) =>
    match rack.channels.lookup name with
    | some c => (name, wave.map (f c.kind (level c.low) (level c.high)))
    | none => (name, wave)

/-- The waves within the bounds of their channels; the waves of some channels may be replaced. -/
def limited (level : τ → σ) (play : π → String → List τ → Attempt (List σ)) (replaced : Waveforms σ)
    (e : Element τ π) (rack : Rack τ) : Attempt (Waveforms σ) := do
  let waves ← ideal level play e rack
  return mapSamples level rack limit (waves.map fun (name, wave) => (name, (replaced.lookup name).getD wave))

def normalized (level : τ → σ) (play : π → String → List τ → Attempt (List σ)) (replaced : Waveforms σ)
    (e : Element τ π) (rack : Rack τ) : Attempt (Waveforms σ) := do
  return mapSamples level rack normalize (← limited level play replaced e rack)

end Element

end QubitLab
