import QubitLab.Decimal.Numeral
import QubitLab.Text.Search

/-!
# The control store

A line of the control store says what one operation code triggers: a condition, and a kind of control with a
codeword for the left and for the right microinstruction. `Line.word` packs a line into 22 bits,
`Line.ofWord` unpacks a word. `Line.make` checks the ranges of the five fields in order.

A store holds 256 packed lines. It has two written forms: a text with one row per line below a header
(`Store.dump`, read by `Store.load`), and four bytes per line, lowest first (`Store.bytes`, read by
`wordsOfBytes`). Reading a text sets the lines one after the other; a row that cannot be read stops the
reading, and the rows before it stay.
-/

namespace QubitLab.Microcode

/-! ## Control store lines -/

structure Line where
  condition : Nat
  leftKind : Nat
  leftCodeword : Nat
  rightKind : Nat
  rightCodeword : Nat
  deriving Repr, DecidableEq

inductive StoreError
  | outOfRange (n lo hi : Int)
  | lineNumber
  | noPlace
  | badText
  | byteCount
  deriving Repr, DecidableEq

def StoreError.fault : StoreError → Fault
  | .outOfRange n lo hi => .because .value ("Parameter " ++ Decimal.intText n ++ " out of range: [" ++
      Decimal.intText lo ++ ", " ++ Decimal.intText hi ++ "].")
  | .lineNumber => .because .value "line number (\x7b\x7d) in the file exceeds the maximum value (256)."
  | .noPlace => .of .index
  | .badText => .of .value
  | .byteCount => .because .value "The input binary microcode should be a multiple of 4."

/-- The natural that an integer is, if it is at most `hi`. -/
def field (hi : Nat) (n : Int) : Except StoreError Nat :=
  if 0 ≤ n ∧ n ≤ hi then .ok n.toNat else .error (.outOfRange n 0 hi)

namespace Line

def make (condition leftKind leftCodeword rightKind rightCodeword : Int) : Except StoreError Line := do
  let c ← field 3 condition
  let k ← field 3 leftKind
  let w ← field 255 leftCodeword
  let k' ← field 3 rightKind
  let w' ← field 255 rightCodeword
  return ⟨c, k, w, k', w'⟩

/-- The packed line: two bits of condition, then two bits of kind and eight of codeword on each side. -/
def word (l : Line) : Nat :=
  l.condition * Nat.pow 2 20 + l.leftKind * Nat.pow 2 18 + l.leftCodeword * Nat.pow 2 10 + l.rightKind * Nat.pow 2 8 +
    l.rightCodeword

def ofWord (n : Int) : Line where
  condition := (n / Nat.pow 2 20 % 4).toNat
  leftKind := (n / Nat.pow 2 18 % 4).toNat
  leftCodeword := (n / Nat.pow 2 10 % 256).toNat
  rightKind := (n / Nat.pow 2 8 % 4).toNat
  rightCodeword := (n % 256).toNat

def fields (l : Line) : List Nat := [l.condition, l.leftKind, l.leftCodeword, l.rightKind, l.rightCodeword]

def column (width n : Nat) : String := Text.padLeft ' ' width (Decimal.natText n)

def columns (l : Line) : String :=
  column 5 l.condition ++ "       " ++ column 3 l.leftKind ++ "      " ++ column 6 l.leftCodeword ++ "     " ++
    column 6 l.rightKind ++ "     " ++ column 5 l.rightCodeword ++ " "

def kindName : Nat → String
  | 0 => "None"
  | 1 => "Mw"
  | 2 => "Flux"
  | _ => "Meas"

def side (codeword kind : Nat) : String := column 3 codeword ++ " " ++ Text.padRight ' ' 6 ("(" ++ kindName kind ++ ")")

def short (l : Line) : String :=
  side l.leftCodeword l.leftKind ++ " " ++
    (if l.rightKind = 0 then "" else side l.rightCodeword l.rightKind ++ "  ") ++
    (if l.condition = 0 then "" else "condition: " ++ Decimal.natText l.condition)

end Line

/-! ## The control store -/

abbrev Store := Vector Nat 256

namespace Store

def empty : Store := Vector.replicate 256 0

/-- The place of a line number; a negative one counts from the end. -/
def place? (n : Int) : Option (Fin 256) :=
  let i := if n < 0 then n + 256 else n
  if h : 0 ≤ i ∧ i < 256 then some ⟨i.toNat, by omega⟩ else none

def at? (s : Store) (n : Int) : Option Nat := (place? n).map fun i => s.get i

def insert (s : Store) (n condition leftKind leftCodeword rightKind rightCodeword : Int) :
    Except StoreError Store := do
  if n > 256 then .error .lineNumber
  let l ← Line.make condition leftKind leftCodeword rightKind rightCodeword
  match place? n with
  | some i => return s.set i l.word
  | none => .error .noPlace

/-! ## Text form -/

def header : String := "OpTypeLeft  CW_Left  OpTypeRight  CW_Right  Condition"

def bytesHeader : String := "Condition  OpTypeLeft  CW_Left  OptypeRight  CW_Right"

def row (i word : Nat) : String := "  " ++ Text.padRight ' ' 3 (Decimal.natText i) ++ "  " ++ (Line.ofWord word).columns

def dump (s : Store) : List String := ("      " ++ header) :: s.toList.zipIdx.map fun (w, i) => row i w

inductive Reader
  | lenient
  | strict
  deriving DecidableEq

def rowNumbers? (s : String) : Option (List Int) :=
  (Text.words (String.ofList (s.toList.filter (· != ':')))).mapM fun w => Decimal.readInt? 10 w.toList

def loadRow (r : Reader) (s : Store) (text : String) : Except StoreError Store :=
  if r = .lenient ∧ Text.words text = [] then .ok s
  else match rowNumbers? text with
    | some [n, c, k, w, k', w'] => s.insert n c k w k' w'
    | _ => .error .badText

def loadRows (r : Reader) (s : Store) : List String → Store × Option StoreError
  | [] => (s, none)
  | t :: rest =>
    match loadRow r s t with
    | .ok s' => loadRows r s' rest
    | .error e => (s, some e)

def load (r : Reader) (s : Store) (text : String) : Store × Option StoreError :=
  loadRows r s ((Text.fileLines text).drop 1)

/-! ## Byte form -/

def wordBytes (n : Nat) : List Nat := [n % 256, n / 256 % 256, n / 65536 % 256, n / 16777216 % 256]

def bytes (s : Store) : List Nat := s.toList.flatMap wordBytes

end Store

def wordsOfBytes : List Nat → Except StoreError (List Nat)
  | [] => .ok []
  | a :: b :: c :: d :: r => do
    let ws ← wordsOfBytes r
    return (a + 256 * b + 65536 * c + 16777216 * d) :: ws
  | _ => .error .byteCount

def describeBytes (bs : List Nat) : Except StoreError (List String) := do
  let ws ← wordsOfBytes bs
  return Store.bytesHeader :: ws.map fun (w : Nat) => (Line.ofWord w).columns

/-- A store with distinct operations: microwave codewords in the first half, pairs of flux codewords in the
second. -/
def Store.demo (s : Store) : Store :=
  let one (i : Nat) : Line := if i < 128 then ⟨0, 1, i, 0, 0⟩ else ⟨0, 2, (i - 128) % 7 + 1, 2, (i - 124) % 7 + 1⟩
  Vector.ofFn fun i => if i.val = 0 then s.get i else (one i.val).word

end QubitLab.Microcode
