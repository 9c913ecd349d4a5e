import QubitLab.Decimal.Numeral

/-!
# JSON texts

A record text holds one value: `null`, `true`, `false`, a number, a text in double quotes, a list in
brackets or a record in braces. A number without point and exponent is an integer of any size. The words
`NaN`, `Infinity` and `-Infinity` are numbers too. A key that stands twice keeps its first place and
its last value. Reading ends because each step leaves a shorter rest; the depth of nesting is bounded by
the length of the text.

Records are written on one line. Characters beyond ASCII are written as escapes of four hexadecimal digits, those
beyond the basic plane as a surrogate pair.
-/

namespace QubitLab.Json

/-! ## Reading data records -/

def isGap (c : Char) : Bool := c == ' ' || c == '\n' || c == '\t' || c == '\r'

def skip (s : List Char) : List Char := s.dropWhile isGap

def hex4? : List Char → Option (Nat × List Char)
  | a :: b :: c :: d :: r => do
    let digit (c : Char) : Option Nat :=
      if c.isDigit then some (c.toNat - 48)
      else if 'a' ≤ c && c ≤ 'f' then some (c.toNat - 87)
      else if 'A' ≤ c && c ≤ 'F' then some (c.toNat - 55) else none
    let a ← digit a
    let b ← digit b
    let c ← digit c
    let d ← digit d
    some (((a * 16 + b) * 16 + c) * 16 + d, r)
  | _ => none

def simpleEscape? : Char → Option Char
  | '"' => some '"'
  | '\\' => some '\\'
  | '/' => some '/'
  | 'b' => some (Char.ofNat 8)
  | 'f' => some (Char.ofNat 12)
  | 'n' => some '\n'
  | 'r' => some '\r'
  | 't' => some '\t'
  | _ => none

/-- The rest of a text behind its opening quote: its characters, and what follows the closing quote.
Two escapes that form a surrogate pair give one character. -/
def readChars? (fuel : Nat) (acc : List Char) (s : List Char) : Option (List Char × List Char) :=
  match fuel, s with
  | 0, _ => none
  | _, [] => none
  | _ + 1, '"' :: r => some (acc.reverse, r)
  | fuel + 1, '\\' :: 'u' :: r =>
    match hex4? r with
    | none => none
    | some (h, r) =>
      let pair? : Option (Nat × List Char) :=
        if 0xd800 ≤ h && h < 0xdc00 then
          match r with
          | '\\' :: 'u' :: q =>
            match hex4? q with
            | some (l, q) => if 0xdc00 ≤ l && l < 0xe000 then
                some (0x10000 + (h - 0xd800) * 1024 + (l - 0xdc00), q) else none
            | none => none
          | _ => none
        else none
      match pair? with
      | some (n, q) => readChars? fuel (Char.ofNat n :: acc) q
      | none => readChars? fuel (Char.ofNat h :: acc) r
  | fuel + 1, '\\' :: c :: r =>
    match simpleEscape? c with
    | some e => readChars? fuel (e :: acc) r
    | none => none
  | fuel + 1, c :: r => if c.toNat < 32 then none else readChars? fuel (c :: acc) r

def readNumber? (s : List Char) : Option (Value × List Char) :=
  let (neg, r) := match s with
    | '-' :: r => (true, r)
    | _ => (false, s)
  let whole := r.takeWhile Char.isDigit
  let r := r.dropWhile Char.isDigit
  if whole.isEmpty || (whole.length > 1 && whole.head? == some '0') then none
  else
    let (places, r, hasPoint) := match r with
      | '.' :: q => let ds := q.takeWhile Char.isDigit
        if ds.isEmpty then ([], r, false) else (ds, q.dropWhile Char.isDigit, true)
      | _ => ([], r, false)
    let (e, r, hasExp) : Int × List Char × Bool := match r with
      | c :: q =>
        if c == 'e' || c == 'E' then
          let (eneg, t) := Decimal.takeSign q
          let ds := t.takeWhile Char.isDigit
          if ds.isEmpty then (0, r, false)
          else
            let n : Int := Decimal.ofDigits (ds.map fun c => c.toNat - 48)
            (if eneg then -n else n, t.dropWhile Char.isDigit, true)
        else (0, r, false)
      | [] => (0, r, false)
    let digits := (whole ++ places).map fun c => c.toNat - 48
    if hasPoint || hasExp then
      let x := Decimal.scaled (Decimal.ofDigits digits) (e - places.length)
      some (.real (if neg then -x else x), r)
    else
      let n : Int := Decimal.ofDigits digits
      some (.int (if neg then -n else n), r)

def readWord? (s : List Char) : Option (Value × List Char) :=
  let word? (w : String) (v : Value) : Option (Value × List Char) :=
    if s.take w.length == w.toList then some (v, s.drop w.length) else none
  (word? "null" .null) <|> (word? "true" (.bool true)) <|> (word? "false" (.bool false)) <|>
    (word? "NaN" (.real (0.0 / 0.0))) <|> (word? "Infinity" (.real (1.0 / 0.0))) <|>
    (word? "-Infinity" (.real (-1.0 / 0.0)))

mutual

def readValue? (fuel : Nat) (s : List Char) : Option (Value × List Char) :=
  match fuel with
  | 0 => none
  | fuel + 1 =>
    match skip s with
    | '"' :: r => (readChars? (r.length + 1) [] r).map fun (cs, q) => (.text (String.ofList cs), q)
    | '[' :: r =>
      match skip r with
      | ']' :: q => some (.list [], q)
      | q => readItems? fuel [] q
    | '{' :: r =>
      match skip r with
      | '}' :: q => some (.record [], q)
      | q => readFields? fuel [] q
    | q => (readWord? q) <|> (readNumber? q)

def readItems? (fuel : Nat) (acc : List Value) (s : List Char) : Option (Value × List Char) :=
  match fuel with
  | 0 => none
  | fuel + 1 =>
    match readValue? fuel s with
    | none => none
    | some (v, r) =>
      match skip r with
      | ',' :: q => readItems? fuel (v :: acc) q
      | ']' :: q => some (.list (v :: acc).reverse, q)
      | _ => none

def readFields? (fuel : Nat) (acc : Fields) (s : List Char) : Option (Value × List Char) :=
  match fuel with
  | 0 => none
  | fuel + 1 =>
    match skip s with
    | '"' :: r =>
      match readChars? (r.length + 1) [] r with
      | none => none
      | some (k, q) =>
        match skip q with
        | ':' :: q =>
          match readValue? fuel q with
          | none => none
          | some (v, r) =>
            match skip r with
            | ',' :: q => readFields? fuel ((String.ofList k, v) :: acc) q
            | '}' :: q => some (.record (Fields.ofPairs ((String.ofList k, v) :: acc).reverse), q)
            | _ => none
        | _ => none
    | _ => none

end

def read? (s : List Char) : Option Value :=
  match readValue? (2 * s.length + 2) s with
  | some (v, r) => if (skip r).isEmpty then some v else none
  | none => none

/-! ## Writing data records -/

def hexText (n : Nat) : List Char :=
  let ds := Nat.toDigits 16 n
  List.replicate (4 - ds.length) '0' ++ ds

def charText (c : Char) : List Char :=
  let n := c.toNat
  if c == '"' then ['\\', '"']
  else if c == '\\' then ['\\', '\\']
  else if c == '\n' then ['\\', 'n']
  else if c == '\r' then ['\\', 'r']
  else if c == '\t' then ['\\', 't']
  else if n == 8 then ['\\', 'b']
  else if n == 12 then ['\\', 'f']
  else if 32 ≤ n && n < 127 then [c]
  else if n == 127 then [c]
  else if n < 0x10000 then '\\' :: 'u' :: hexText n
  else
    let m := n - 0x10000
    ('\\' :: 'u' :: hexText (0xd800 + m / 1024)) ++ ('\\' :: 'u' :: hexText (0xdc00 + m % 1024))

def quoted (s : String) : String := String.ofList ('"' :: (s.toList.flatMap charText) ++ ['"'])

mutual

/-- A value of scalars, texts, lists and records on one line. -/
def write : Value → String
  | .bool b => if b then "true" else "false"
  | .int n => Decimal.intText n
  | .text s => quoted s
  | .list xs => "[" ++ ",".intercalate (writeItems xs) ++ "]"
  | .record fs => "\x7b" ++ ",".intercalate (writeFields fs) ++ "\x7d"
  | _ => "null"

def writeItems : List Value → List String
  | [] => []
  | v :: r => write v :: writeItems r

def writeFields : List (String × Value) → List String
  | [] => []
  | (k, v) :: r => (quoted k ++ ":" ++ write v) :: writeFields r

end

end QubitLab.Json
