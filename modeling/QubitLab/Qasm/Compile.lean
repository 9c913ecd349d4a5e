import QubitLab.Qasm.Hardware

/-!
# Compiling programs

The points of a hardware grid become instructions in time order: a wait up to the point, its triggers and
measurements, and one pulse instruction for all generators that play at it.

`compile` runs all stages from a program text to assembly and keeps what each stage made, so that the
stages can be listed and inspected. A `Session` is what a compiler remembers from one program to the next:
the qubit map, and whether it came from a configuration.
-/

namespace QubitLab.Qasm

/-! ## Emitting assembly -/

def triggerMask (bits : List Int) : Step Int :=
  bits.foldlM (fun m b => if b > 7 then .error .valueInvalid else .ok (m + Nat.pow 2 (7 - b).toNat)) 0

def triggerText (e : HwEvent) : Step String := do
  let mask ← triggerMask e.setBits
  return "trigger " ++ String.ofList (Qumis.binaryDigits 7 mask) ++ ", " ++ Decimal.intText e.duration

/-- The fields of a pulse instruction: the codeword of each of three generators. -/
abbrev PulseFields := List (Option Int)

def notePulse (fields : PulseFields) (e : HwEvent) : Step PulseFields := do
  if e.name = "pulse" then
    let i ← orError .indexInvalid (position? fields.length e.awg)
    return fields.set i (some e.codeword)
  else return fields

def pulseField : Option Int → String
  | none => "0000"
  | some cw => "1" ++ String.ofList (Qumis.twosComplement 3 cw)

def noteEvent (st : List String × PulseFields) (e : HwEvent) : Step (List String × PulseFields) := do
  let fields ← notePulse st.2 e
  if e.name = "trigger" then return (st.1 ++ [← triggerText e], fields)
  if e.name = "measure" then return (st.1 ++ ["measure"], fields)
  return (st.1, fields)

def pulseLines (fields : PulseFields) : List String :=
  if fields.any Option.isSome then ["pulse " ++ ", ".intercalate (fields.map pulseField)] else []

def pointText (p : TimePoint HwEvent) : Step (List String) := do
  let (out, fields) ← p.events.foldlM noteEvent ([], [none, none, none])
  return out ++ pulseLines fields

def bodyFrom (t : Int) : Grid HwEvent → Step (List String)
  | [] => .ok []
  | p :: r => do
    let wait := if p.time - t = 0 then [] else ["wait " ++ Decimal.intText (p.time - t)]
    let here ← pointText p
    let rest ← bodyFrom p.time r
    return wait ++ here ++ rest

def loopHead : List String := ["mov r14, 0 \t# r14 stores number of repetitions, 0 is infinite", "Exp_Start: "]

def loopTail : List String := ["beq r14, r14, Exp_Start \t# Jump to start ad nauseam"]

def startsWithWait (lines : List String) : Bool :=
  (lines.head?.map fun l => l.toList.take 4 == ['w', 'a', 'i', 't']).getD false

def emit (loop : Bool) (grid : Grid HwEvent) : Step (List String) := do
  let body ← bodyFrom 0 grid
  let lines := (if loop then loopHead else []) ++ body
  if lines.isEmpty then .error .indexInvalid
  let lines := if startsWithWait lines then lines else "wait 1" :: lines
  return lines ++ (if loop then loopTail else [])

/-! ## Compiling programs -/

structure Session where
  map : List (String × Step Int) := []
  fixed : Bool := false

structure Compilation where
  config : Config
  text : String
  loop : Bool
  names : QubitNames
  /-- The parsed lines, and those that are left without declarations. -/
  parsed : List (List SourceOp)
  sourceOps : List (List SourceOp)
  timedOps : List (List TimedOp)
  /-- The grid after timing, after splitting gates, with latencies, and after compensation. -/
  timed : Grid Gate
  split : Grid Gate
  latent : Grid Gate
  compensated : Grid Gate
  least : Int
  /-- The hardware grid after conversion, after splitting, with bits set, after division, and moved. -/
  converted : Grid HwEvent
  staged : Grid HwEvent
  coded : Grid HwEvent
  divided : Grid HwEvent
  final : Grid HwEvent
  assembly : List String

/-- The timing grid as it is left: its end point moves with the hardware grid. -/
def Compilation.grid (c : Compilation) : Grid Gate :=
  let shift := shiftOf c.divided
  c.compensated.mapIdx fun i p =>
    if i + 1 = c.compensated.length then { p with time := p.time + shift } else p

def compileNamed (cfg : Config) (loop : Bool) (text : String) (parsed : List (List SourceOp))
    (names : QubitNames) (lines : List (List SourceOp)) : Step Compilation := do
  if names.map.isEmpty then .error .noMap
  let timedOps ← resolveLines names lines
  let timed ← timingGrid cfg timedOps
  let split := splitGates timed
  let latent ← withLatencies cfg split
  let least ← leastLatency cfg
  let compensated := compensate least latent
  let converted ← hardwareGrid cfg compensated
  let staged ← splitTriggers converted
  let coded ← applyCodewords staged
  let divided ← divideTriggers coded
  let final := shiftBy (shiftOf divided) divided
  let assembly ← emit loop final
  return { config := cfg, text := text, loop := loop, names := names, parsed := parsed, sourceOps := lines
           timedOps := timedOps, timed := timed
           split := split, latent := latent, compensated := compensated, least := least
           converted := converted, staged := staged, coded := coded, divided := divided
           final := final, assembly := assembly }

def Session.compileWith (s : Session) (cfg : Config) (loop : Bool) (text : String) : Session × Step Compilation :=
  let s : Session := match cfg.qubitMap with
    | some m => ⟨m, true⟩
    | none => s
  match parseProgram cfg text with
  | .error e => (s, .error e)
  | .ok ops =>
    match QubitNames.collect cfg.physical { map := s.map, fixed := s.fixed } 0 ops with
    | (names, .error e) => (⟨names.map, names.fixed⟩, .error e)
    | (names, .ok lines) => (⟨names.map, names.fixed⟩, compileNamed cfg loop text ops names lines)

/-- The session once a configuration has passed its checks: a qubit map that it names takes the place of the old one,
also when something further on in the configuration turns out to be wrong. -/
def Session.withMapOf (s : Session) (config : Value) : Session :=
  match validate config, config.fields?.bind (Fields.get? · "qubit_map") with
  | .ok _, some (.record m) => ⟨m.map fun (k, v) => (k, asIndex v), true⟩
  | .ok _, some _ => ⟨[], true⟩
  | _, _ => s

def Session.compile (s : Session) (config : Value) (loop : Bool) (text : String) :
    Session × Step Compilation :=
  match Config.load config with
  | .error e => (s.withMapOf config, .error e)
  | .ok cfg => s.compileWith cfg loop text

def compile (config : Value) (loop : Bool) (text : String) : Step Compilation := (Session.compile {} config loop text).2

end QubitLab.Qasm
