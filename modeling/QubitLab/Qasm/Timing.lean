import QubitLab.Qasm.Expand

/-!
# From lines to a timing grid

A grid is a list of time points in time order, each with the events that happen at it. `searchPoint` finds
the place of a time, `addEvents` puts events at a time: to the last point of that time if there is one, else
to a new point between its neighbours.

`QubitNames` collects the declared qubits and the map to physical qubits. `resolveLines` replaces names by
physical qubits, `timingGrid` puts each line at the time at which the lines before it have ended, and
`compensate` moves each gate ahead by how much the latency of its channel exceeds the least one.
-/

namespace QubitLab.Qasm

/-! ## Timing grids -/

structure TimePoint (ε : Type) where
  label : String := ""
  time : Int := -1
  /-- The clocks until the next line of the program; `-1` for points that no line made. -/
  wait : Int := -1
  events : List ε := []
  deriving Repr

abbrev Grid (ε : Type) := List (TimePoint ε)

variable {ε : Type}

/-- The place behind the times that are not later than `t`, looked for by halving between `lo` and `hi`; `steps`
bounds the number of halvings. -/
def bisect (times : List Int) (t : Int) : Nat → Nat → Nat → Nat
  | 0, lo, _ => lo
  | steps + 1, lo, hi =>
    if lo < hi then
      let mid := (lo + hi) / 2
      if t < times.getD mid 0 then bisect times t steps lo mid else bisect times t steps (mid + 1) hi
    else lo

def searchPoint (grid : Grid ε) (t : Int) : Nat × Bool :=
  let i := bisect (grid.map (·.time)) t grid.length 0 grid.length
  (i, i != 0 && (grid[i - 1]?.map fun p => p.time == t).getD false)

def appendAt (grid : Grid ε) (i : Nat) (es : List ε) : Grid ε :=
  grid.modify i fun p => { p with events := p.events ++ es }

def addEvents (grid : Grid ε) (t : Int) (es : List ε) : Grid ε :=
  match searchPoint grid t with
  | (i, true) => appendAt grid (i - 1) es
  | (i, false) => grid.take i ++ { time := t, events := es } :: grid.drop i

/-! ## From lines to a timing grid -/

/-! ## Qubit names -/

structure QubitNames where
  declared : List String := []
  map : List (String × Step Int) := []
  /-- The map comes from a configuration; maps in programs are ignored. -/
  fixed : Bool := false

def QubitNames.declare (names : QubitNames) (physical line : Nat) :
    List String → QubitNames × Option CompileError
  | [] => (names, if names.declared.length > physical then
      some (.tooManyQubits names.declared.length physical) else none)
  | q :: r =>
    if names.declared.contains q then (names, some (.qubitTwice line q))
    else QubitNames.declare { names with declared := names.declared ++ [q] } physical line r

def QubitNames.addMap (names : QubitNames) (physical : List Int) (line : Nat) (params : List String) :
    QubitNames × Option CompileError :=
  match params with
  | [q, target] =>
    if !names.declared.contains q then (names, some (.qubitUndefined line q))
    else if (names.map.lookup q).isSome then (names, some (.qubitRemapped line q))
    else
      match Decimal.readInt? 10 target.toList with
      | none => (names, some (.targetFormat line target))
      | some n =>
        if !physical.contains n then (names, some (.qubitUnavailable line (Decimal.intText n)))
        else ({ names with map := names.map ++ [(q, .ok n)] }, none)
  | _ => (names, some .valueInvalid)

def QubitNames.step (physical : List Int) (names : QubitNames) (op : SourceOp) :
    QubitNames × Option CompileError :=
  match op.kind with
  | .declare => names.declare physical.length op.line op.params
  | .map => if names.fixed then (names, none) else names.addMap physical op.line op.params
  | _ => (names, none)

/-- Takes declarations and maps out of the lines. A line of `n` parallel operations is passed together with
the `n - 1` lines behind it. -/
def QubitNames.collect (physical : List Int) (names : QubitNames) (skip : Nat) :
    List (List SourceOp) → QubitNames × Step (List (List SourceOp))
  | [] => (names, .ok [])
  | l :: r =>
    match skip with
    | k + 1 =>
      match QubitNames.collect physical names k r with
      | (n, rest) => (n, rest.map (l :: ·))
    | 0 =>
      match l with
      | [op] =>
        if op.kind == .declare || op.kind == .map then
          match names.step physical op with
          | (n, some e) => (n, .error e)
          | (n, none) => QubitNames.collect physical n 0 r
        else
          match QubitNames.collect physical names 0 r with
          | (n, rest) => (n, rest.map (l :: ·))
      | _ =>
        match QubitNames.collect physical names (l.length - 1) r with
        | (n, rest) => (n, rest.map (l :: ·))

/-! ## Gates -/

structure Gate where
  line : Nat
  kind : EventKind
  name : String
  qubits : List Int
  latency : Int := 0
  deriving Repr, DecidableEq

inductive TimedOp
  | wait (op : SourceOp)
  | gate (g : Gate)

def physicalQubits (names : QubitNames) (params : List String) : Step (List Int) :=
  params.mapM fun q => do
    let target ← orError .keyMissing (names.map.lookup q)
    target

def resolveOp (names : QubitNames) (op : SourceOp) : Step (List TimedOp) := do
  if op.kind == .wait then return [.wait op]
  else if op.kind.isGate then
    let qs ← physicalQubits names op.params
    return [.gate ⟨op.line, op.kind, op.name, qs, 0⟩]
  else return []

def resolveLines (names : QubitNames) (lines : List (List SourceOp)) : Step (List (List TimedOp)) :=
  lines.mapM fun l => do return (← l.mapM (resolveOp names)).flatten

def durationOf (cfg : Config) (name : String) : Step Int := do
  return (← orError .keyMissing (cfg.operations.lookup name)).duration

def maximum : List Int → Int
  | [] => 0
  | x :: r => r.foldl max x

def linePoint (cfg : Config) (ops : List TimedOp) : Step (TimePoint Gate) := do
  match ops with
  | [] => .error .indexInvalid
  | .wait op :: _ =>
    let op' ← orError .keyMissing (cfg.operations.lookup op.name)
    let wait := if ((← op'.arity).count == some 1) then op.wait else cfg.initClocks
    return { label := op.name, wait := wait }
  | .gate g :: _ =>
    let gates ← ops.mapM fun o => match o with
      | .gate g => Except.ok g
      | .wait op => Except.error (.eventKind op.name)
    let ds ← gates.mapM fun g => durationOf cfg g.name
    return { label := g.name, wait := maximum ds, events := gates }

/-- Gives each point the time at which those before it have ended, and adds the end of the program. -/
def withTimes (t : Int) : List (TimePoint Gate) → Grid Gate
  | [] => [{ time := t }]
  | p :: r => { p with time := t } :: withTimes (t + p.wait) r

def timingGrid (cfg : Config) (lines : List (List TimedOp)) : Step (Grid Gate) := do
  return withTimes 0 (← lines.mapM (linePoint cfg))

/-! ## Latencies -/

def Gate.perQubit (g : Gate) : List Gate :=
  if g.qubits.length > 1 then g.qubits.map fun q => { g with qubits := [q] } else [g]

def splitGates (grid : Grid Gate) : Grid Gate := grid.map fun p => { p with events := p.events.flatMap Gate.perQubit }

def channelFor (cfg : Config) (qubit : Int) (kind : EventKind) : Step Channel := do
  let i ← orError .indexInvalid (position? cfg.qubits.length qubit)
  let channels ← orError .indexInvalid cfg.qubits[i]?
  orError .keyMissing (channels.lookup kind.name)

def withLatencies (cfg : Config) (grid : Grid Gate) : Step (Grid Gate) :=
  grid.mapM fun p => do
    let es ← p.events.mapM fun g => do
      let q ← orError .indexInvalid g.qubits.head?
      let ch ← channelFor cfg q g.kind
      return { g with latency := ch.latency }
    return { p with events := es }

def minimum? : List Int → Option Int
  | [] => none
  | x :: r => some (r.foldl min x)

def leastLatency (cfg : Config) : Step Int := do
  let each ← cfg.qubits.mapM fun q => orError .valueInvalid (minimum? (q.map fun (_, c) => c.latency))
  orError .valueInvalid (minimum? each)

/-- Puts a gate of a point at time `t` at its start; a new point pushes the position of that point on. -/
def moveGate (least t : Int) (st : Grid Gate × Nat) (g : Gate) : Grid Gate × Nat :=
  let start := t - (g.latency - least)
  (addEvents st.1 start [g], if (searchPoint st.1 start).2 then st.2 else st.2 + 1)

def compensatePoint (least : Int) (st : Grid Gate × Nat) : Grid Gate × Nat :=
  match st.1[st.2]? with
  | none => st
  | some p =>
    let rest := st.1.set st.2 { p with events := p.events.filter fun g => g.latency == least }
    let (grid, i) := (p.events.filter fun g => g.latency != least).foldl (moveGate least p.time) (rest, st.2)
    (grid, i + 1)

def compensateFrom (least : Int) : Nat → Grid Gate × Nat → Grid Gate
  | 0, st => st.1
  | n + 1, st => compensateFrom least n (compensatePoint least st)

def compensate (least : Int) (grid : Grid Gate) : Grid Gate := compensateFrom least grid.length (grid, 0)

end QubitLab.Qasm
