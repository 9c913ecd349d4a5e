import QubitLab.Decimal.Notation
import QubitLab.Text.Letter
import QubitLab.Value.Number

/-!
# Reading numerals

`readInt?` reads an integer numeral in a base: a sign, an optional base mark, digits with single
underscores between them, blanks around. `readReal?` reads a decimal numeral (digits, point,
exponent, or a name of a value that is not finite) to the nearest double.
-/

namespace QubitLab.Decimal

/-!
## Digits in a base

`radixText` writes a number in a base with digits and letters. The quotient of each step is the nearest double,
cut toward zero, so the digits of a number with more than 53 bits may differ from those of the number.
-/

def radixDigits : List Char := "0123456789abcdefghijklmnopqrstuvwxyzABCDEFGHIJKLMNOPQRSTUVWXYZ".toList

def radixDigit (n : Int) : Attempt Char :=
  let i := if n < 0 then n + radixDigits.length else n
  if i < 0 then fail .index else orFail .index (radixDigits[i.toNat]?)

/-- The lowest digit of a number, and the quotient that is left. -/
def radixStep (base x : Number) : Attempt (Char × Int) := do
  let d ← radixDigit (← (← x.mod base).truncate)
  let q ← match x, base with
    | .int n, .int b => do
      let q ← orFail .overflow (quotient? n.natAbs b.natAbs)
      pure (if (n < 0) != (b < 0) then -(q : Int) else q)
    | _, _ => (Number.real (← x.div base)).truncate
  return (d, q)

/-- The digits of a number, lowest first; `fuel` bounds their number. -/
def radixSteps (base : Number) : Nat → Number → Attempt (List Char)
  | 0, _ => .ok []
  | fuel + 1, x => do
    if Number.eq x (.int 0) then return []
    let (d, q) ← radixStep base x
    return d :: (← radixSteps base fuel (.int q))

def radixFuel : Number → Nat
  | .int n => n.natAbs
  | .real _ => 2200

def zeroFill (width : Nat) : List Char → List Char
  | '-' :: r => '-' :: zeroPad (width - 1) r
  | '+' :: r => '+' :: zeroPad (width - 1) r
  | s => zeroPad width s

def radixText (x base : Number) (width : Option Int) : Attempt String := do
  let filled (s : List Char) : String := String.ofList (zeroFill (width.getD 0).toNat s)
  if Number.eq x (.int 0) then return filled ['0']
  let neg := Number.lt x (.int 0)
  let ds ← radixSteps base (radixFuel x) x.abs
  return filled ((if neg then ['-'] else []) ++ ds.reverse)

/-! ## Reading numerals -/

def digitValue? (c : Char) : Option Nat :=
  match Chars.digit? c with
  | some d => some d
  | none =>
    let n := c.toNat
    if 97 ≤ n && n ≤ 122 then some (n - 87) else if 65 ≤ n && n ≤ 90 then some (n - 55) else none

def takeSign : List Char → Bool × List Char
  | '-' :: r => (true, r)
  | '+' :: r => (false, r)
  | s => (false, s)

/-- Digits of a base with single underscores between them; `prev` says whether the last character
was a digit. -/
def readDigits? (base acc : Nat) (prev : Bool) : List Char → Option Nat
  | [] => if prev then some acc else none
  | '_' :: r => if prev then readDigits? base acc false r else none
  | c :: r =>
    match digitValue? c with
    | some d => if d < base then readDigits? base (acc * base + d) true r else none
    | none => none

/-- The digits behind a base mark such as `0x`, which an underscore may follow. -/
def dropBaseMark (base : Nat) (s : List Char) : List Char :=
  let rest? : Option (List Char) := match s with
    | '0' :: c :: r =>
      if (base = 16 && (c == 'x' || c == 'X')) || (base = 8 && (c == 'o' || c == 'O')) ||
        (base = 2 && (c == 'b' || c == 'B')) then some r else none
    | _ => none
  match rest? with
  | some ('_' :: r) => r
  | some r => r
  | none => s

def readInt? (base : Nat) (s : List Char) : Option Int :=
  let (neg, r) := takeSign (Chars.trim s)
  (readDigits? base 0 false (dropBaseMark base r)).map fun n => if neg then -(n : Int) else n

/-! ## Decimal numerals -/

/-- The digits at the start of a text, underscores allowed between two digits: their values, and the
rest. -/
def spanDigits (prev : Bool) : List Char → List Nat × List Char
  | [] => ([], [])
  | '_' :: c :: r =>
    if prev && (Chars.digit? c).isSome then
      let (ds, t) := spanDigits true r
      ((Chars.digit? c).getD 0 :: ds, t)
    else ([], '_' :: c :: r)
  | c :: r =>
    match Chars.digit? c with
    | some d => let (ds, t) := spanDigits true r; (d :: ds, t)
    | none => ([], c :: r)

def ofDigits (ds : List Nat) : Nat := ds.foldl (fun a d => a * 10 + d) 0

def readExponent? : List Char → Option Int
  | [] => some 0
  | c :: r =>
    if c == 'e' || c == 'E' then
      let (neg, t) := takeSign r
      match spanDigits false t with
      | ([], _) => none
      | (ds, []) => some (if neg then -(ofDigits ds : Int) else ofDigits ds)
      | _ => none
    else none

/-- The double nearest to `m * 10 ^ e`, infinite when too large. -/
def scaled (m : Nat) (e : Int) : Float :=
  let size : Int := (Nat.toDigits 10 m).length + e
  if m = 0 then 0.0
  else if size > 400 then 1.0 / 0.0
  else if size < -400 then 0.0
  else
    let r := if 0 ≤ e then ratio? false (m * Nat.pow 10 e.toNat) 1 else ratio? false m (Nat.pow 10 (-e).toNat)
    r.getD (1.0 / 0.0)

def readMagnitude? (s : List Char) : Option Float :=
  let word := s.map Char.toLower
  if word == "inf".toList || word == "infinity".toList then some (1.0 / 0.0)
  else if word == "nan".toList then some (0.0 / 0.0)
  else
    let (whole, r) := spanDigits false s
    let (places, t) := match r with
      | '.' :: q => spanDigits false q
      | _ => ([], r)
    if whole.isEmpty && places.isEmpty then none
    else (readExponent? t).map fun e => scaled (ofDigits (whole ++ places)) (e - places.length)

def readReal? (s : List Char) : Option Float :=
  let (neg, r) := takeSign (Chars.trim s)
  (readMagnitude? r).map fun x => if neg then -x else x

end QubitLab.Decimal
