import QubitLab.Element.Waveform
import QubitLab.Sequence.Plan

/-!
# Programs of a generator

A generator takes an analog output together with its two markers as words of 16 bits: 14 bits for the sample between -1
and 1, then a bit for each marker.

`Generator.program` turns a sequence and its elements into what a generator with four outputs is loaded with: the packed
waves of each element for each group of an output and its markers, and for each step of the sequence how often it is
repeated, whether it waits, and where to go on.
-/

namespace QubitLab.Generator

/-! ## Packed samples -/

variable {σ : Type} [Scalar σ]

def fullScale : Int := 8191

def steps? (x : σ) : Option Int := Scalar.truncate? (Scalar.round 0 (x * Scalar.ofInt fullScale))

def bit? (x : σ) : Option Int :=
  let isNot (y : σ) : Bool := Scalar.below x y || Scalar.below y x
  if !isNot (Scalar.ofInt 0) then some 0 else if !isNot (Scalar.ofInt 1) then some 1 else none

def word (sample first second : Int) : Int := sample + fullScale + 16384 * first + 32768 * second

def pack (wave first second : List σ) : Attempt (List Int) := do
  if wave.length ≠ first.length ∨ first.length ≠ second.length then
    failWith .general "error: sizes of the waveforms do not match"
  if wave.isEmpty then fail .value
  let outside (x : σ) : Bool := Scalar.below x (Scalar.ofInt (-1)) || Scalar.below (Scalar.ofInt 1) x
  if wave.any outside then failWith .sort "Waveform values out of bonds. Allowed values: -1 to 1 (inclusive)"
  let a ← orFailWith .sort "Marker 1 contains invalid values. Only 0 and 1 are allowed" (first.mapM bit?)
  let b ← orFailWith .sort "Marker 2 contains invalid values. Only 0 and 1 are allowed" (second.mapM bit?)
  let xs ← wave.mapM fun x => orFail .value (steps? x)
  return ((xs.zip a).zip b).map fun ((x, m), n) => word x m n

/-! ## Programs of a generator -/

variable {τ σ π : Type} [Scalar τ] [Scalar σ]

structure Program (τ : Type) where
  names : List (List String)
  repetitions : List Value
  waits : List Int
  gotos : List Int
  jumps : List Int
  settings : List (String × τ)
  waves : List (String × List Int)

/-! ## Settings of outputs -/

/-- The output number in an id, such as `2` in `ch2_marker1`. -/
def outputDigit (id : String) : Attempt String := do return String.singleton (← orFail .index (id.toList.drop 2).head?)

def markerDigit (id : String) : Attempt String := do return String.singleton (← orFail .index id.toList.getLast?)

def checkRange (low high x : τ) : Attempt Unit :=
  if Scalar.below x low || Scalar.below high x then fail .value else .ok ()

structure Limits (τ : Type) where
  amplitude : τ × τ
  offset : τ × τ
  marker : τ × τ

def checkLevels (limits : Limits τ) (c : Channel τ) : Attempt Unit := do
  if c.kind = .analog then
    if !(["ch1", "ch2", "ch3", "ch4"].contains c.id) then fail .key
    checkRange limits.amplitude.1 limits.amplitude.2 (c.high - c.low)
    checkRange limits.offset.1 limits.offset.2 ((c.low + c.high) / Scalar.ofInt 2)
  else
    let output ← outputDigit c.id
    let marker ← markerDigit c.id
    if !(["1", "2", "3", "4"].contains output && ["1", "2"].contains marker) then fail .key
    checkRange limits.marker.1 limits.marker.2 c.low
    checkRange limits.marker.1 limits.marker.2 c.high

def channelSettings (c : Channel τ) : Attempt (List (String × τ)) := do
  let n ← outputDigit c.id
  let levels ← match c.kind with
    | .analog => .ok [("ANALOG_METHOD_" ++ n, Scalar.ofInt 1), ("ANALOG_AMPLITUDE_" ++ n, c.high - c.low),
        ("ANALOG_OFFSET_" ++ n, (c.high + c.low) / Scalar.ofInt 2)]
    | .marker => do
      let m ← markerDigit c.id
      .ok [("MARKER1_METHOD_" ++ n, Scalar.ofInt 2), ("MARKER2_METHOD_" ++ n, Scalar.ofInt 2),
        ("MARKER" ++ m ++ "_LOW_" ++ n, c.low), ("MARKER" ++ m ++ "_HIGH_" ++ n, c.high)]
    | .other => .ok []
  return levels ++ [("CHANNEL_STATE_" ++ n, Scalar.ofInt 0)]

def outputSettings (rack : Rack τ) (generator : String) : Attempt (List (String × τ)) := do
  let channels := (rack.channels.map (·.2)).filter fun c => c.generator == generator
  let off ← channels.foldlM (fun fs c => do return Assoc.putAll (← channelSettings c) fs) []
  (channels.filter (·.active)).foldlM (fun fs c => do
    return Assoc.put ("CHANNEL_STATE_" ++ (← outputDigit c.id)) (Scalar.ofInt 1) fs) off

/-! ## Waves -/

def groupIds (group : String) : List String := [group, group ++ "_marker1", group ++ "_marker2"]

def groupOf (id : String) : String := String.ofList (id.toList.take 3)

def restLevel (level : τ → σ) (rack : Rack τ) (generator id : String) : Attempt σ := do
  let isMarker := String.ofList ((id.toList.drop 4).dropLast) == "marker"
  match (rack.onOutput? generator id).bind fun n => rack.channels.lookup n with
  | none => return Scalar.ofInt 0
  | some c =>
    if isMarker then return Scalar.ofInt 0
    let span := c.high - c.low
    if !(Scalar.below span (Scalar.ofInt 0) || Scalar.below (Scalar.ofInt 0) span) then fail .zeroDivision
    return level ((Scalar.ofInt 2 * c.offset - c.high - c.low) / span)

def paddedWave (level : τ → σ) (rack : Rack τ) (generator : String) (waves : Waveforms σ) (size : Nat) (id : String) :
    Attempt (List σ) := do
  let wave := (waves.lookup id).getD #[Scalar.ofInt 0]
  let rest ← restLevel level rack generator id
  if size < wave.size then fail .value
  let padded := wave.toList ++ List.replicate (size - wave.size) rest
  if padded.isEmpty then fail .index
  return padded

def isNonzero (x : σ) : Bool := Scalar.below x (Scalar.ofInt 0) || Scalar.below (Scalar.ofInt 0) x

/-- The words of a group in an element, and whether one of its waves starts off zero. -/
def packGroup (level : τ → σ) (rack : Rack τ) (generator : String) (waves : Waveforms σ) (group : String) :
    Attempt (List Int × Bool) := do
  let size := (waves.map (·.2.size)).foldl max 0
  let parts ← (groupIds group).mapM (paddedWave level rack generator waves size)
  let part (k : Nat) : List σ := parts.getD k []
  return (← pack (part 0) (part 1) (part 2), parts.any fun p => (p.head?.map isNonzero).getD false)

def waveName (element group : String) : String := element ++ "_" ++ group

def packElement (level : τ → σ) (rack : Rack τ) (generator : String) (groups : List String) (name : String)
    (waves : Waveforms σ) : Attempt (List (String × List Int) × Bool) := do
  let packed ← groups.mapM fun g => do return (waveName name g, ← packGroup level rack generator waves g)
  return (packed.map fun x => (x.1, x.2.1), packed.any (·.2.2))

/-! ## Steps -/

def checkRepetitions (generator : String) (s : Step) : Attempt Unit := do
  let n ← orFail .sort (Number.ofValue? s.repetitions)
  if n.lt (.int 1) || Number.lt (.int 65536) n then
    failWith .general ("Pulsar: The number of repetitions of AWG \"" ++ generator ++ "\" element \"" ++
      s.waveform.display ++ "\" are out of range. Valid range = 1 to 65536 (\"" ++ s.repetitions.display ++
      "\" received)")

/-- The number of the step that a step refers to, 0 for none. -/
def target (s : Sequence) (v : Value) : Attempt Int := if v.isNull then .ok 0 else s.index v 1

/-- Where a step goes on and whether it waits; `startsOff` are the elements that start off zero, on which it must not
wait unless that is allowed. -/
def stepCodes (s : Sequence) (generator : String) (startsOff : List String) (allowOff : Bool) (step : Step) :
    Attempt (Int × Int × Int) := do
  checkRepetitions generator step
  let goto ← target s step.goto
  let jump ← target s step.jump
  if step.wait.truth && !allowOff && startsOff.any fun n => step.waveform.same (.text n) then
    failWith .general ("Pulsar: Trigger wait set for element " ++ step.waveform.display ++
      " with a non-zero first point")
  return (goto, jump, if step.wait.truth then 1 else 0)

def closeLoop : List Int → List Int
  | [] => []
  | [_] => [1]
  | x :: y :: r => x :: closeLoop (y :: r)

/-! ## Programs -/

structure Choice where
  takesGenerator : String → Bool := fun _ => true
  takesChannel : String → Bool := fun _ => true
  loop : Bool := true
  allowOff : Bool := true

def outputWaves (choice : Choice) (rack : Rack τ) (generator : String) (waves : Waveforms σ) : Waveforms σ :=
  waves.filterMap fun (n, w) =>
    match rack.channels.lookup n with
    | some c => if choice.takesChannel n && c.active && c.generator == generator && choice.takesGenerator generator
        then some (c.id, w) else none
    | none => none

def playedParts (choice : Choice) (rack : Rack τ) (generator : String) (elements : List (String × Waveforms σ)) :
    List (String × Waveforms σ) :=
  (elements.map fun x => (x.1, outputWaves choice rack generator x.2)).filter fun x => !x.2.isEmpty

def groupsOf (parts : List (String × Waveforms σ)) : List String :=
  ((parts.flatMap fun x => x.2.map fun w => groupOf w.1).eraseDups).mergeSort

def program (level : τ → σ) (limits : Limits τ) (choice : Choice) (rack : Rack τ) (generator : String) (s : Sequence)
    (elements : List (String × Waveforms σ)) : Attempt (Option (Program τ)) := do
  rack.channels.forM fun (_, c) => checkLevels limits c
  let parts := playedParts choice rack generator elements
  let groups := groupsOf parts
  if parts.isEmpty then return none
  let packed ← parts.mapM fun x => do return (x.1, ← packElement level rack generator groups x.1 x.2)
  if 8000 < s.steps.length then fail .sort
  let startsOff := (packed.filter (·.2.2)).map (·.1)
  let codes ← s.steps.mapM (stepCodes s generator startsOff choice.allowOff)
  let gotos := codes.map (·.1)
  let settings ← outputSettings rack generator
  if groups.any fun g => !(["ch1", "ch2", "ch3", "ch4"].contains g) then fail .key
  return some {
    names := groups.map fun g => parts.map fun x => waveName x.1 g
    repetitions := s.steps.map (·.repetitions)
    waits := codes.map (·.2.2)
    gotos := if choice.loop then closeLoop gotos else gotos
    jumps := codes.map (·.2.1)
    settings
    waves := Assoc.ofPairs (packed.flatMap (·.2.1)) }

end QubitLab.Generator
