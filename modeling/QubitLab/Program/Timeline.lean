import QubitLab.Program.Basic

/-!
# Timelines of compiled programs

A compiled program names its qubit registers at the top, and a timed listing has lines with a start time and the
operations that begin there. `timeline` reads the events off the two texts; the functions after it pick, split and
shift them. `replaceFlux` numbers the flux pulses of each kernel for a generator that plays whole waveforms.
-/

namespace QubitLab.Program

structure Event where
  start : Value
  operation : Value
  targets : Value
  line : Value

namespace Event

def toValue (e : Event) : Value := .tuple [e.start, e.operation, e.targets, e.line]

def ofValue (v : Value) : Attempt Event := do
  match ← v.each with
  | [a, b, c, d] => return ⟨a, b, c, d⟩
  | _ => fail .value

def mentions (word : Value) (e : Event) : Attempt Bool := do
  match word, e.operation with
  | .text w, .text s => return Text.contains w s
  | w, v => return (← v.each).any fun x => x.display == w.display

end Event

/-! ## Reading -/

def withoutLast {α : Type} (n : Nat) (xs : List α) : List α := xs.take (xs.length - n)

def timedName (file : String) : String := String.ofList (withoutLast 4 file.toList) ++ "tqisa"

def startTime (line : String) : Attempt Int := do
  let t ← orFail .value (Decimal.readInt? 10 ((Text.splitOn ":" line).headD "").toList)
  if !Text.contains "bs" line then return t
  let rest := ((Text.splitOn "bs" line).drop 1).headD ""
  let c ← orFail .index rest.toList[1]?
  return t + (← orFail .value (Decimal.readInt? 10 [c]))

def targetNumber? (s : String) : Option Value :=
  let s := Text.trim s
  if s.toList.all Char.isDigit && !s.isEmpty then (Decimal.readInt? 10 s.toList).map .int else none

/-- The members of a list of targets: numbers, or pairs of them in parentheses. -/
def readTargets? : Nat → List Char → Option (List Value)
  | 0, _ => none
  | fuel + 1, s =>
    match s.dropWhile Chars.isBlank with
    | [] => some []
    | '(' :: r => do
      let inner := r.takeWhile (· != ')')
      let rest := (r.dropWhile (· != ')')).drop 1
      if !r.contains ')' then none
      let parts := (Text.splitOn "," (String.ofList inner)).filter fun p => !(Text.trim p).isEmpty
      let xs ← parts.mapM targetNumber?
      let more ← readTargets? fuel ((rest.dropWhile Chars.isBlank).dropWhile (· == ','))
      return .tuple xs :: more
    | s => do
      let x ← targetNumber? (String.ofList (s.takeWhile (· != ',')))
      let more ← readTargets? fuel ((s.dropWhile (· != ',')).drop 1)
      return x :: more

def targetBelow (v w : Value) : Bool :=
  let keys (v : Value) : List Int := match v with
    | .tuple xs => xs.filterMap Value.int?
    | v => v.int?.toList
  decide (keys v < keys w)

def sortTargets (xs : List Value) : List Value :=
  let ys := xs.mergeSort fun v w => !targetBelow w v
  ys.foldr (fun v acc => match acc with
    | w :: _ => if !targetBelow v w && !targetBelow w v then acc else v :: acc
    | [] => [v]) []

def readRegister (s : String) : Attempt Value :=
  match (Text.trim s).toList with
  | '\x7b' :: r =>
    match r.reverse with
    | '\x7d' :: inner =>
      let body := inner.reverse
      match readTargets? (body.length + 1) body with
      | some [] => .ok (.record [])
      | some xs => .ok (.list (sortTargets xs))
      | none => fail (.malformed (some 1))
    | _ => fail (.malformed (some 1))
  | _ => fail (.malformed (some 1))

def registerMap (text : String) : Attempt (List (String × Value)) := do
  let top := (Text.fileLines text).takeWhile fun l => !Text.contains "start" l
  top.foldlM (fun acc l => do
    if !(Text.contains "smis" l || Text.contains "smit" l) then return acc
    let cs := l.toList
    let stop := (Chars.find? [','] cs).getD (cs.length - 1)
    let name := String.ofList ((cs.take stop).drop 5)
    let start := (Chars.find? ['\x7b'] cs).getD (cs.length - 1)
    return Assoc.put name (← readRegister (String.ofList (cs.drop start))) acc) []

def operationOf (registers : List (String × Value)) (s : String) : Attempt (String × Value) := do
  match Text.splitOn " " s with
  | [op, r] => return (op, ← orFail .key (registers.lookup r))
  | _ => fail .value

def bundleParts : List Char → List Char → List String
  | acc, [] => [String.ofList acc.reverse]
  | acc, a :: '|' :: b :: r =>
    if Chars.isBlank a && Chars.isBlank b then String.ofList acc.reverse :: bundleParts [] r
    else bundleParts (a :: acc) ('|' :: b :: r)
  | acc, a :: r => bundleParts (a :: acc) r

def instructionEvent (registers : List (String × Value)) (t : Int) (i : Nat) (s : String) : Attempt Event := do
  let (op, targets) ← operationOf registers (Text.trim s)
  return ⟨.int t, .text op, targets, .ofNat i⟩

def lineEvents (registers : List (String × Value)) (l : String) (i : Nat) : Attempt (List Event) := do
  if !Text.contains "bs" l then return []
  let t ← startTime l
  let body ← orFail .index ((Text.splitOn "bs " l)[1]?)
  let body := body.toList.drop 1
  let instrs := if Text.contains "|" l then bundleParts [] body else [String.ofList body]
  instrs.mapM (instructionEvent registers t i)

def timeline (program timed : String) : Attempt (List Event) := do
  let registers ← registerMap program
  let parts ← (Text.fileLines timed).zipIdx.mapM fun (l, i) => lineEvents registers l i
  return parts.flatten

/-! ## Selecting -/

def positionsOf (word : Value) (es : List Event) : Attempt (List Nat) := do
  let hits ← es.mapM fun e => e.mentions word
  return hits.zipIdx.filterMap fun (b, i) => if b then some i else none

def eventsOf (word : Value) (es : List Event) : Attempt (List Event) := do
  return (← positionsOf word es).filterMap fun i => es[i]?

/-- The events in groups that end with an operation; the first event of all is left out. -/
def splitOnEvent (word : Value) (es : List Event) : Attempt (List (List Event)) := do
  let stops ← positionsOf word es
  let starts := 0 :: withoutLast 1 stops
  if stops.length < starts.length then fail .index
  return (starts.zip stops).map fun (a, b) => (es.take (b + 1)).drop (a + 1)

def shiftToEvent (word : Value) (es : List Event) : Attempt (List Event) := do
  let hits ← positionsOf word es
  match hits.head?.bind (es[·]?) with
  | none => if es.isEmpty then return [] else fail .unset
  | some r =>
    let origin ← r.start.number
    es.mapM fun e => do return { e with start := (← (← e.start.number).sub origin).toValue }

/-! ## Flux pulses -/

def fluxGroups (es : List Event) : Attempt (List (List Event)) := do
  (← splitOnEvent (.text "meas") es).mapM fun g => do shiftToEvent (.text "cw") (← eventsOf (.text "fl") g)

def twoDigits (n : Nat) : String := Text.padLeft '0' 2 (Decimal.natText n)

def recode (lines : List String) (e : Event) (new : String) : Attempt (List String) := do
  let n ← orFail .sort e.line.int?
  let n ← orFail .index (Value.position? lines.length n)
  let l ← orFail .index lines[n]?
  let old ← orFail .sort e.operation.text?
  return lines.set n (Text.replace old new l)

/-- The lines of a program in which the first flux pulse of each kernel has the number of the kernel, and the others
the number zero. -/
def replaceFlux (lines : List String) (groups : List (List Event)) : Attempt (List String) :=
  groups.zipIdx.foldlM (fun lines (g, k) =>
    g.zipIdx.foldlM (fun lines (e, i) =>
      recode lines e ("fl_cw_" ++ (if i == 0 then twoDigits (k + 1) else "00"))) lines) lines

def numberFlux (program timed : String) : Attempt (List String × List (List Event)) := do
  let groups ← fluxGroups (← timeline program timed)
  return (← replaceFlux (Text.fileLines program) groups, groups)

def modifiedName (file : String) : String := String.ofList (withoutLast 5 file.toList) ++ "_mod.qisa"

end QubitLab.Program
