import QubitLab.Qasm.Timing

/-!
# The hardware grid

Gates become hardware events: pulses of a waveform generator, or triggers that set bits for some clocks.
A trigger with a codeword first shows the codeword and then raises its trigger bit. Triggers that overlap
are cut into triggers that follow each other (`divideTriggers`), and when the first point lies
before time zero all points are moved.
-/

namespace QubitLab.Qasm

/-- An event of the hardware. `-1` stands for no codeword, generator or trigger bit. -/
structure HwEvent where
  name : String := ""
  codeword : Int := -1
  awg : Int := -1
  duration : Int := 0
  format : List Int := []
  triggerBit : Int := -1
  codewordBits : List Int := []
  setBits : List Int := []
  deriving Repr, DecidableEq

def dummyCodeword : Int := -2

def codewordOf (cfg : Config) (table : Int) (name : String) : Step Int := do
  let tables ← cfg.tables
  let i ← orError .indexInvalid (position? tables.length table)
  let table ← orError .indexInvalid tables[i]?
  let entry ← orError .keyMissing ((← table).lookup name)
  entry

def hwEventOf (cfg : Config) (g : Gate) : Step HwEvent := do
  let q ← match g.qubits with
    | [q] => Except.ok q
    | _ => Except.error .valueInvalid
  let ch ← channelFor cfg q g.kind
  match ← ch.instruction with
  | "pulse" =>
    let awg ← ch.awg
    let cw ← codewordOf cfg (← ch.table) g.name
    return { name := if cw = dummyCodeword then g.name else "pulse", codeword := cw, awg := awg }
  | "trigger" =>
    let bit ← ch.triggerBit
    let format ← ch.format
    match ch.codewordBits with
    | none => return { name := "trigger", triggerBit := bit, format := format }
    | some bits =>
      let bits ← bits
      let cw ← codewordOf cfg (← ch.table) g.name
      return { name := if cw = dummyCodeword then g.name else "trigger", codeword := cw
               triggerBit := bit, format := format, codewordBits := bits }
  | _ => return {}

def hardwareGrid (cfg : Config) (grid : Grid Gate) : Step (Grid HwEvent) :=
  grid.mapM fun p => do return ⟨p.label, p.time, p.wait, ← p.events.mapM (hwEventOf cfg)⟩

def addHw (grid : Grid HwEvent) (t : Int) (e : HwEvent) : Step (Grid HwEvent) :=
  if e.setBits.contains 0 then .error .bitZero else .ok (addEvents grid t [e])

def withEnd (grid new : Grid HwEvent) : Grid HwEvent := new ++ grid.getLast?.toList

/-- The stages of a trigger: the codeword alone, then the codeword with the trigger bit. -/
def splitEvent (t : Int) (new : Grid HwEvent) (e : HwEvent) : Step (Grid HwEvent) :=
  if e.name = "trigger" then
    match e.format with
    | [] => addHw new t e
    | [d] => addHw new t { e with duration := d, format := [] }
    | [d₁, d₂] => do
      let new ← addHw new (t - d₁) { e with duration := d₁, format := [], triggerBit := -1 }
      let new ← addHw new t { e with duration := d₂, format := [] }
      return addEvents new (t + d₂) []
    | _ => .ok new
  else addHw new t e

def splitTriggers (grid : Grid HwEvent) : Step (Grid HwEvent) := do
  let new ← grid.foldlM (fun new p => p.events.foldlM (splitEvent p.time) new) []
  return withEnd grid new

def lowBits (width n : Nat) : List Nat :=
  let ds := (Nat.toDigits 2 n).reverse.map fun c => if c == '1' then 1 else 0
  ds ++ List.replicate (width - ds.length) 0

def bitsOf (e : HwEvent) : Step (List Int) := do
  if e.triggerBit = 0 then .error .triggerBitZero
  let first := if e.triggerBit = -1 then [] else [e.triggerBit]
  if e.codeword = -1 then return first
  if e.codeword < 0 then .error (.codewordFormat (Decimal.intText e.codeword))
  let digits := lowBits e.codewordBits.length e.codeword.toNat
  return first ++ (e.codewordBits.zip digits).filterMap fun (b, d) => if d = 1 then some b else none

def applyEvent (t : Int) (new : Grid HwEvent) (e : HwEvent) : Step (Grid HwEvent) := do
  if e.name = "trigger" then
    let bits ← bitsOf e
    if bits.isEmpty then return new
    addHw new t { e with setBits := bits, triggerBit := -1, codeword := -1
                         codewordBits := if e.codeword = -1 then e.codewordBits else [] }
  else addHw new t e

def applyCodewords (grid : Grid HwEvent) : Step (Grid HwEvent) := do
  let new ← grid.foldlM (fun new p => p.events.foldlM (applyEvent p.time) new) []
  return withEnd grid new

/-! ## Division of overlapping triggers -/

/-- The clocks for which each of the eight bits is still set. -/
abbrev Counters := List Int

def leastRunning (c : Counters) : Int := (minimum? (c.filter (· != 0))).getD 0

/-- The time of the first later point with a trigger; a point one clock before time zero does not
count as one. -/
def nextTrigger? : Grid HwEvent → Option Int
  | [] => none
  | p :: r =>
    if p.events.any fun e => e.name == "trigger" then (if p.time = -1 then none else some p.time)
    else nextTrigger? r

def raiseCounters (c : Counters) (e : HwEvent) : Step Counters :=
  e.setBits.foldlM (fun c b => do
    let i ← orError .indexInvalid (position? c.length b)
    return c.modify i fun d => max d e.duration) c

def runningBits (c : Counters) : List Int :=
  (List.range c.length).filterMap fun i => if (c.getD i 0) > 0 then some (i : Int) else none

/-- Cuts the running triggers of a point at time `t` until the next trigger starts or none runs: `now` is the
time of the next cut, `fin` the first end, `least` the least running counter. -/
def divideFrom (t fin : Int) (next : Option Int) :
    Nat → Int → Int → Counters → Grid HwEvent → Step (Grid HwEvent × Counters)
  | 0, _, _, c, new => .ok (new, c)
  | fuel + 1, now, least, c, new => do
    let (d, reached) := match next with
      | none => (least, false)
      | some s => if s ≤ fin then (s - t, true) else (least, false)
    let bits := runningBits c
    let c' := c.map fun x => if x > 0 then x - d else x
    let new ← addHw new now { name := "trigger", duration := d, setBits := bits }
    let least' := leastRunning c'
    if least' = 0 || reached then return (new, c')
    else divideFrom t fin next fuel (t + d) least' c' new

def divideEvent (t : Int) (state : Grid HwEvent × Counters) (e : HwEvent) :
    Step (Grid HwEvent × Counters) := do
  if e.name = "trigger" then return (state.1, ← raiseCounters state.2 e)
  else return (← addHw state.1 t e, state.2)

def divideRest (new : Grid HwEvent) (c : Counters) : Grid HwEvent → Step (Grid HwEvent)
  | [] => .ok new
  | p :: r => do
    let (new, c) ← p.events.foldlM (divideEvent p.time) (new, c)
    if maximum c = 0 then divideRest new c r
    else
      let least := leastRunning c
      let (new, c) ← divideFrom p.time (p.time + least) (nextTrigger? r) 9 p.time least c new
      divideRest new c r

def divideTriggers (grid : Grid HwEvent) : Step (Grid HwEvent) := do
  return withEnd grid (← divideRest [] (List.replicate 8 0) grid)

def shiftOf (grid : Grid HwEvent) : Int :=
  match grid with
  | p :: _ => if p.time < 0 then -p.time else 0
  | [] => 0

def shiftBy (d : Int) (grid : Grid HwEvent) : Grid HwEvent := grid.map fun p => { p with time := p.time + d }

end QubitLab.Qasm
