import QubitLab.Decimal.Numeral
import QubitLab.Value.Tree

/-!
# Configurations

A program or a configuration can be wrong in the ways listed in `CompileError`. The first group has a
message and, for program texts, a line; the second group are conditions that end a compilation without a
message.

A configuration says how operations are played: for each qubit the channels that drive it, each with a
latency and, for triggers, a format of durations; tables of codewords; and for each operation its kind, its
number of parameters and its duration. Times are given in nanoseconds and kept in clocks, cut toward
zero. What is only needed when an operation is played is kept as a `Step`, so that a missing entry
shows when it is used. `Tables` is the configuration as a compiler holds it, and `Tables.dump` writes it with its times
in nanoseconds again.
-/

namespace QubitLab.Qasm

/-! ## Errors of the compiler -/

inductive CompileError
  | noConfig
  | configKeys (missing : String)
  | hardwareKeys (missing : String)
  | qubitCount
  | qubitList (shown : String)
  | initTime (shown : String)
  | cycleTime (shown : String)
  | channelKeys
  | operationType (shown name : String)
  | typeUnexpected (shown : String)
  | emptyOperation
  | operationUnknown (line : Nat) (name : String)
  | notAlone (line : Nat) (name : String)
  | noQubitDeclared (line : Nat)
  | parameterCount (line : Nat) (name expected offered : String)
  | qubitTwice (line : Nat) (qubit : String)
  | tooManyQubits (declared available : Nat)
  | qubitUndefined (line : Nat) (qubit : String)
  | qubitRemapped (line : Nat) (qubit : String)
  | targetFormat (line : Nat) (target : String)
  | qubitUnavailable (line : Nat) (target : String)
  | noMap
  | instructionUnknown (line : Nat) (name : String)
  | eventKind (shown : String)
  | bitZero
  | codewordFormat (shown : String)
  | negativeWait
  /-- A numeral that does not spell an integer, or a list that should not be empty. -/
  | valueInvalid
  | tooLarge
  | keyMissing
  | indexInvalid
  | sortInvalid
  | memberMissing
  | triggerBitZero
  deriving Repr, DecidableEq

namespace CompileError

def message? : CompileError → Option String
  | .noConfig => some "No config specified"
  | .configKeys m => some ("Config misses keys \x7b" ++ m ++ "\x7d")
  | .hardwareKeys m => some ("hardware specification misses keys \x7b" ++ m ++ "\x7d")
  | .qubitCount => some "different number of qubits than qubit_cfgs"
  | .qubitList s => some ("\"qubit list\" in the configuration file is not an integer array:\n\t" ++ s)
  | .initTime s => some ("\"init time\" (" ++ s ++ ") in the configuration file is not an positive number.")
  | .cycleTime s => some ("\"cycle time\" (" ++ s ++ ") in the configuration file is not an positive number.")
  | .channelKeys => some "unexpected key found in qubit config"
  | .operationType s n => some ("unsupported operation type (" ++ s ++ ") for operation " ++ n ++
    "., supported types: \x7b'rf': <EventType.RF: 5>, 'flux': <EventType.FLUX: 6>, " ++
    "'measurement': <EventType.MEASUREMENT: 7>\x7d")
  | .typeUnexpected s => some ("unexpected event type: " ++ s)
  | .emptyOperation => some "QASM operation cannot be empty"
  | .operationUnknown _ n => some ("unsuppported QASM operation " ++ n ++ ".")
  | .notAlone _ n => some ("QASM instruction " ++ n ++ " should e occupy a line.")
  | .noQubitDeclared _ => some ("the QASM instruction qubit should contain at least one parameter as " ++
    "the declared qubit.")
  | .parameterCount _ n e o => some ("unexpected number of parameters for the QASM instruction " ++ n ++
    ". " ++ e ++ " parameter(s) expected. Offered: " ++ o ++ ".")
  | .qubitTwice _ q => some ("Redefinition of " ++ q)
  | .tooManyQubits d a => some ("More qubits declared (" ++ toString d ++
    ") than available physical qubits (" ++ toString a ++ ").")
  | .qubitUndefined _ q => some ("undefined qubit (" ++ q ++ ") found.")
  | .qubitRemapped _ q => some ("remapping of the qubit " ++ q ++ ".")
  | .targetFormat _ t => some ("the target qubit (" ++ t ++ ") is not an integer.")
  | .qubitUnavailable _ t => some ("physical qubit (" ++ t ++ ") is not available.")
  | .noMap => some "Qubit map not found in the QASM file."
  | .instructionUnknown _ n => some ("unsupported instruction (" ++ n ++ ") found.")
  | .eventKind s => some ("Event " ++ s ++ " should be gates or measurements.")
  | .bitZero => some "Bits start counting at 1 instead of 0"
  | .codewordFormat s => some ("bitfield: n (" ++ s ++ ") is not a positive integer number.")
  | _ => none

def kind : CompileError → FaultKind
  | .operationUnknown l _ | .notAlone l _ | .noQubitDeclared l | .parameterCount l _ _ _
  | .qubitTwice l _ | .qubitUndefined l _ | .qubitRemapped l _ | .targetFormat l _
  | .qubitUnavailable l _ | .instructionUnknown l _ => .malformed (some l)
  | .operationType _ _ | .tooManyQubits _ _ | .noMap => .malformed none
  | .negativeWait => .unset
  | .tooLarge => .overflow
  | .keyMissing => .key
  | .indexInvalid => .index
  | .sortInvalid => .sort
  | .memberMissing => .member
  | .triggerBitZero => .assertion
  | _ => .value

def fault (e : CompileError) : Fault := ⟨e.kind, e.message?⟩

end CompileError

abbrev Step (α : Type) := Except CompileError α

def orError {α : Type} (e : CompileError) : Option α → Step α
  | some a => .ok a
  | none => .error e

/-- The position that an index names: negative indices count from the end. -/
def position? (length : Nat) (i : Int) : Option Nat :=
  if 0 ≤ i then (if i < length then some i.toNat else none)
  else if 0 ≤ i + length then some (i + length).toNat else none

/-! ## Configurations -/

inductive EventKind
  | declare
  | map
  | wait
  | rf
  | flux
  | measurement
  deriving Repr, DecidableEq

namespace EventKind

def name : EventKind → String
  | .declare => "declare"
  | .map => "map"
  | .wait => "wait"
  | .rf => "rf"
  | .flux => "flux"
  | .measurement => "measurement"

def tag : EventKind → String
  | .declare => "<EventType.DECLARE: 2>"
  | .map => "<EventType.MAP: 3>"
  | .wait => "<EventType.WAIT: 4>"
  | .rf => "<EventType.RF: 5>"
  | .flux => "<EventType.FLUX: 6>"
  | .measurement => "<EventType.MEASUREMENT: 7>"

def isGate : EventKind → Bool
  | .rf | .flux | .measurement => true
  | _ => false

def isAlone : EventKind → Bool
  | .wait | .declare | .map => true
  | _ => false

end EventKind

structure Arity where
  shown : String
  count : Option Nat

structure Operation where
  kind : EventKind
  arity : Step Arity
  duration : Int
  listing : Fields

structure Channel where
  latency : Int
  /-- The durations of the stages of a trigger, in clocks. -/
  format : Step (List Int)
  instruction : Step String
  awg : Step Int
  table : Step Int
  triggerBit : Step Int
  codewordBits : Option (Step (List Int))

abbrev QubitChannels := List (String × Channel)

abbrev CodewordTable := List (String × Step Int)

structure Config where
  cycle : Float
  initClocks : Int
  physical : List Int
  qubits : List QubitChannels
  tables : Step (List (Step CodewordTable))
  operations : List (String × Operation)
  qubitMap : Option (List (String × Step Int))

/-! ## Reading values -/

def asIndex : Value → Step Int
  | .int n => .ok n
  | .bool b => .ok (if b then 1 else 0)
  | _ => .error .sortInvalid

def needed (fs : Fields) (k : String) : Step Value := orError .keyMissing (Fields.get? fs k)

def asRecord : Value → Step Fields
  | .record fs => .ok fs
  | _ => .error .sortInvalid

def clocks (cycle : Float) (v : Value) : Step Int :=
  match Number.ofValue? v with
  | none => .error .sortInvalid
  | some n =>
    match (Number.div n (.real cycle)).bind fun x => (Number.real x).truncate with
    | .ok k => .ok k
    | .error e => .error (if e.kind == .overflow then .tooLarge else .valueInvalid)

def numeral (v : Value) : Step (Option Float) :=
  match v with
  | .text s => .ok (Decimal.readReal? s.toList)
  | v =>
    match Number.ofValue? v with
    | none => .error .sortInvalid
    | some n =>
      match n.toFloat with
      | .ok x => .ok (some x)
      | .error _ => .error .tooLarge

def extent : Value → Step Nat
  | .list xs => .ok xs.length
  | .tuple xs => .ok xs.length
  | .text s => .ok s.length
  | .record fs => .ok fs.length
  | _ => .error .sortInvalid

def isIntegerList : Value → Bool
  | .list xs => xs.all fun v => v.int?.isSome
  | .text s => s.isEmpty
  | .record fs => fs.isEmpty
  | _ => false

def nameSet (names : List String) : String := ", ".intercalate (names.map Text.quoted)

/-! ## Checks -/

def requirePositive (v : Value) (e : CompileError) : Step Unit := do
  match ← numeral v with
  | some x => if x > 0 then .ok () else .error e
  | none => .error e

def requireKinds (channels : Value) : Step Unit := do
  let ks ← orError .memberMissing (channels.fields?.map Fields.keys)
  if ks.any fun k => !(["rf", "flux", "measurement"].contains k) then .error .channelKeys

def validate (config : Value) : Step Unit := do
  let fs ← orError .memberMissing config.fields?
  let missing := ["operation dictionary", "hardware specification", "luts"].filter
    fun k => !Fields.has fs k
  if !missing.isEmpty then .error (.configKeys (nameSet missing))
  let hw ← orError .memberMissing (← needed fs "hardware specification").fields?
  let missing := ["qubit list", "init time", "cycle time", "qubit_cfgs"].filter
    fun k => !Fields.has hw k
  if !missing.isEmpty then .error (.hardwareKeys (nameSet missing))
  let list ← needed hw "qubit list"
  let cfgs ← needed hw "qubit_cfgs"
  let n ← extent list
  let m ← extent cfgs
  if n != m then .error .qubitCount
  if !isIntegerList list then .error (.qubitList list.display)
  let init ← needed hw "init time"
  requirePositive init (.initTime init.display)
  let cycle ← needed hw "cycle time"
  requirePositive cycle (.cycleTime cycle.display)
  match cfgs with
  | .list qubits => qubits.forM requireKinds
  | _ => .error .memberMissing

/-! ## Loading -/

/-- The stages of a trigger in clocks; a channel without them shows that when it is used. -/
def formatOf (cycle : Float) : Option Value → Step (Step (List Int))
  | none => .ok (.error .keyMissing)
  | some (.list ds) => do return .ok (← ds.mapM (clocks cycle))
  | some _ => .error .sortInvalid

def channelOf (cycle : Float) (v : Value) : Step Channel := do
  let fs ← asRecord v
  let latency ← clocks cycle (← needed fs "latency")
  let format ← formatOf cycle (Fields.get? fs "format")
  return {
    latency := latency
    format := format
    instruction := (needed fs "qumis").map Value.display
    awg := (needed fs "awg_nr").bind asIndex
    table := (needed fs "lut").bind asIndex
    triggerBit := (needed fs "trigger bit").bind asIndex
    codewordBits := (Fields.get? fs "codeword bit").map fun v =>
      match v with
      | .list bs => bs.mapM asIndex
      | _ => .error .sortInvalid }

def kindOf? : Value → Option EventKind
  | .text "rf" => some .rf
  | .text "flux" => some .flux
  | .text "measurement" => some .measurement
  | _ => none

def arityOf (fs : Fields) : Step Arity := do
  let v ← needed fs "parameters"
  let count : Option Nat := match v with
    | .real x => (Decimal.truncate? x).bind fun n =>
      if 0 ≤ n && (Number.real x).eq (.int n) then some n.toNat else none
    | v => v.int?.bind fun n => if 0 ≤ n then some n.toNat else none
  return ⟨v.display, count⟩

def operationOf (cycle : Float) (name : String) (v : Value) : Step Operation := do
  let fs ← asRecord v
  let type ← needed fs "type"
  match type with
  | .list _ | .record _ => .error .sortInvalid
  | _ => .ok ()
  let kind ← orError (.operationType type.display name) (kindOf? type)
  let duration ← clocks cycle (← needed fs "duration")
  return ⟨kind, arityOf fs, duration, Fields.put "duration" (.int duration) fs⟩

def builtinOperations (initClocks : Int) : List (String × Operation) :=
  let entry (kind : EventKind) (n : Int) (count : Option Nat) (more : Fields) : Operation :=
    ⟨kind, .ok ⟨Decimal.intText n, count⟩, initClocks,
      [("parameters", .int n), ("type", .text kind.name)] ++ more⟩
  [("Idx", entry .wait 1 (some 1) []), ("qubit", entry .declare (-1) none []),
    ("init_all", entry .wait 0 (some 0) [("duration", .int initClocks)]),
    ("Map", entry .map 2 (some 2) [])]

def physicalOf : Value → Step (List Int)
  | .list xs => xs.mapM asIndex
  | _ => .ok []

def asList : Value → Step (List Value)
  | .list xs => .ok xs
  | _ => .error .sortInvalid

def qubitChannelsOf (cycle : Float) (v : Value) : Step QubitChannels := do
  (← asRecord v).mapM fun (k, v) => do return (k, ← channelOf cycle v)

def userOperationsOf (cycle : Float) (dict : Fields) : Step (List (String × Operation)) :=
  dict.mapM fun (k, v) => do return (k, ← operationOf cycle k v)

def codewordTablesOf : Option Value → Step (List (Step CodewordTable))
  | some (.list ts) => .ok (ts.map fun t => (asRecord t).map fun t => t.map fun (k, v) => (k, asIndex v))
  | _ => .error .sortInvalid

def qubitMapOf : Option Value → Step (Option (List (String × Step Int)))
  | none => .ok none
  | some (.record m) => .ok (some (m.map fun (k, v) => (k, asIndex v)))
  | some _ => .error .sortInvalid

/-- All operations by their names in lower case: the built-in ones, unless the user has others. -/
def allOperations (initClocks : Int) (user : List (String × Operation)) : List (String × Operation) :=
  Assoc.ofPairs ((Assoc.ofPairs (builtinOperations initClocks ++ user)).map fun (k, o) => (Text.lower k, o))

def Config.load (config : Value) : Step Config := do
  validate config
  let fs ← asRecord config
  let hw ← asRecord (← needed fs "hardware specification")
  let cycle := (← numeral (← needed hw "cycle time")).getD 0
  let initClocks ← clocks cycle (← needed hw "init time")
  let _ ← clocks cycle (.int 300)
  let physical ← physicalOf (← needed hw "qubit list")
  let cfgs ← asList (← needed hw "qubit_cfgs")
  let qubits ← cfgs.mapM (qubitChannelsOf cycle)
  let user ← userOperationsOf cycle (← asRecord (← needed fs "operation dictionary"))
  let qubitMap ← qubitMapOf (Fields.get? fs "qubit_map")
  return {
    cycle := cycle, initClocks := initClocks, physical := physical, qubits := qubits
    tables := codewordTablesOf (Fields.get? fs "luts"), operations := allOperations initClocks user
    qubitMap := qubitMap }

/-! ## Dumping -/

def changeField (k : String) (f : Value → Value) : Value → Value
  | .record fs =>
    match Fields.get? fs k with
    | some v => .record (Fields.put k (f v) fs)
    | none => .record fs
  | v => v

def changeFields (f : Value → Value) : Value → Value
  | .record fs => .record (fs.map fun (k, v) => (k, f v))
  | v => v

def changeItems (f : Value → Value) : Value → Value
  | .list xs => .list (xs.map f)
  | v => v

def changeTimes (f : Value → Value) (c : Value) : Value := changeField "format" (changeItems f) (changeField "latency" f c)

def changeChannels (f : Value → Value) : Value → Value :=
  changeField "hardware specification" (changeField "qubit_cfgs" (changeItems (changeFields (changeTimes f))))

def inClocks (cycle : Float) (v : Value) : Value :=
  match clocks cycle v with
  | .ok n => .int n
  | .error _ => v

def inNanoseconds (cycle : Float) (v : Value) : Value :=
  match Number.ofValue? v with
  | some n => .real (n.toFloatInf * cycle)
  | none => v

def heldType (v : Value) : Value :=
  match kindOf? v with
  | some kind => .text kind.tag
  | none => v

def holdOperation (cycle : Float) (o : Value) : Value :=
  changeField "type" heldType (changeField "duration" (inClocks cycle) o)

/-- The name that is written for a held type; a measurement is called `measure`. -/
def writtenType? (v : Value) : Option String :=
  if v.text? = some EventKind.rf.tag then some "rf"
  else if v.text? = some EventKind.flux.tag then some "flux"
  else if v.text? = some EventKind.measurement.tag then some "measure"
  else none

structure Tables where
  cycle : Float
  config : Value

def Tables.ofConfig (cycle : Float) (config : Value) : Tables where
  cycle := cycle
  config := changeChannels (inClocks cycle)
    (changeField "operation dictionary" (changeFields (holdOperation cycle)) config)

def dumpOperation (cycle : Float) (o : Value) : Value × Option CompileError :=
  let o := changeField "duration" (inNanoseconds cycle) o
  match o.get? "type" with
  | none => (o, none)
  | some type =>
    match writtenType? type with
    | some name => (changeField "type" (fun _ => .text name) o, none)
    | none => (o, some (.typeUnexpected type.display))

/-- Operations one after the other, up to the first with a wrong type. -/
def dumpOperations (cycle : Float) : Fields → Fields × Option CompileError
  | [] => ([], none)
  | (k, o) :: r =>
    match dumpOperation cycle o with
    | (o, some e) => ((k, o) :: r, some e)
    | (o, none) => ((k, o) :: (dumpOperations cycle r).1, (dumpOperations cycle r).2)

def operationsOf (config : Value) : Fields := ((config.get? "operation dictionary").bind Value.fields?).getD []

/-- Writes the configuration. The times and types are changed in the tables themselves, also when writing fails. -/
def Tables.dump (t : Tables) : Tables × Step Value :=
  let (ops, e) := dumpOperations t.cycle (operationsOf t.config)
  let config := changeField "operation dictionary" (fun _ => .record ops) t.config
  match e with
  | some e => ({ t with config := config }, .error e)
  | none =>
    let config := changeChannels (inNanoseconds t.cycle) config
    ({ t with config := config }, .ok config)

end QubitLab.Qasm
