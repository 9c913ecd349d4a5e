import QubitLab.Text.Quoted
import QubitLab.Value.Basic

/-!
# Parts of nested values

`render` writes a value inside messages and file names: texts in quotes, lists in brackets, tuples in
parentheses, records in braces. `display` is the same except that a text stands without quotes.

A path is a list of keys and positions. `follow` walks along a path, `place` puts a value at the end of one.
-/

namespace QubitLab.Value

/-! ## The text of a value -/

def showComplex (z : Complex) : String :=
  let part (x : Float) := Decimal.withSign (Decimal.plainDigits 16 false) x
  let im := part z.im
  let im := if im.startsWith "-" then im else "+" ++ im
  if z.re == 0 && z.re.toBits == 0 then part z.im ++ "j" else "(" ++ part z.re ++ im ++ "j)"

mutual

def render : Value → String
  | .null => "None"
  | .bool b => if b then "True" else "False"
  | .int n => Decimal.intText n
  | .real x => Decimal.plain x
  | .complex z => showComplex z
  | .text s => Text.quoted s
  | .bytes bs => "b'" ++ String.join (bs.map fun b => String.singleton (Char.ofNat b)) ++ "'"
  | .list xs => "[" ++ String.intercalate ", " (renderItems xs) ++ "]"
  | .tuple [x] => "(" ++ render x ++ ",)"
  | .tuple xs => "(" ++ String.intercalate ", " (renderItems xs) ++ ")"
  | .record fs => "\x7b" ++ String.intercalate ", " (renderFields fs) ++ "\x7d"
  | .bools t => "[" ++ String.intercalate " " (t.data.toList.map fun b => if b then "True" else "False") ++ "]"
  | .ints t => "[" ++ String.intercalate " " (t.data.toList.map Decimal.intText) ++ "]"
  | .reals t => "[" ++ String.intercalate " " (t.data.toList.map Decimal.plain) ++ "]"

def renderItems : List Value → List String
  | [] => []
  | v :: r => render v :: renderItems r

def renderFields : List (String × Value) → List String
  | [] => []
  | (k, v) :: r => (Text.quoted k ++ ": " ++ render v) :: renderFields r

end

def display : Value → String
  | .text s => s
  | v => render v

/-! ## Parts of nested values -/

/-- The position of an index in a list; a negative one counts from the end. -/
def position? (size : Nat) (n : Int) : Option Nat :=
  let i := if n < 0 then n + size else n
  if 0 ≤ i ∧ i < size then some i.toNat else none

def isKey : Value → Bool
  | .list _ | .record _ => false
  | _ => true

def item (v key : Value) : Attempt Value :=
  match v with
  | .record fs =>
    if !key.isKey then fail .sort
    else match key with
      | .text k => Fields.get fs k
      | _ => fail .key
  | .list xs | .tuple xs => do
    let n ← orFail .sort key.int?
    let i ← orFail .index (position? xs.length n)
    orFail .index xs[i]?
  | .text s => do
    let n ← orFail .sort key.int?
    let i ← orFail .index (position? s.length n)
    return .text (String.ofList ((s.toList.drop i).take 1))
  | _ => fail .sort

def follow (v : Value) (path : List Value) : Attempt Value := path.foldlM item v

def place (new : Value) : Value → List Value → Attempt Value
  | _, [] => fail .index
  | .record fs, [k] => if k.isKey then .ok (.record (Fields.put k.display new fs)) else fail .sort
  | .list xs, [k] => do
    let n ← orFail .sort k.int?
    let i ← orFail .index (position? xs.length n)
    return .list (xs.set i new)
  | _, [_] => fail .sort
  | .record fs, k :: k' :: path => do
    let w ← place new (← item (.record fs) k) (k' :: path)
    return .record (Fields.put k.display w fs)
  | .list xs, k :: k' :: path => do
    let w ← place new (← item (.list xs) k) (k' :: path)
    let n ← orFail .sort k.int?
    let i ← orFail .index (position? xs.length n)
    return .list (xs.set i w)
  | v, k :: k' :: path => do place new (← item v k) (k' :: path)

def slices {α : Type} (wrap : Tensor α → Value) (t : Tensor α) : Attempt (List Value) :=
  match t.shape with
  | [] => fail .sort
  | n :: r =>
    let size := r.foldl (· * ·) 1
    .ok ((List.range n).map fun i => wrap ⟨r, t.data.extract (i * size) (i * size + size)⟩)

def plain : Value → Value
  | .bools ⟨[], xs⟩ => .bool (xs.getD 0 false)
  | .ints ⟨[], xs⟩ => .int (xs.getD 0 0)
  | .reals ⟨[], xs⟩ => .real (xs.getD 0 0)
  | v => v

/-- The values that a value can be gone through: items, keys, characters, parts of an array. -/
def each : Value → Attempt (List Value)
  | .list xs | .tuple xs => .ok xs
  | .text s => .ok (s.toList.map fun c => .text (String.singleton c))
  | .record fs => .ok (fs.map fun (k, _) => .text k)
  | .bytes bs => .ok (bs.map fun (b : Nat) => .int b)
  | .bools t => return (← slices .bools t).map plain
  | .ints t => return (← slices .ints t).map plain
  | .reals t => return (← slices .reals t).map plain
  | _ => fail .sort

end QubitLab.Value
