import QubitLab.Decimal.Numeral
import QubitLab.Value.Tree

/-!
# Templates

A template is a text with fields in braces: the number of an argument with items of it, an optional conversion, and an
optional specification of fill, alignment, width and precision, which may hold fields itself. Doubled braces stand for
one brace. `fill` writes one text into a template.
-/

namespace QubitLab.Template

inductive Piece
  | literal (s : List Char)
  | field (name : List Char) (conversion : Option Char) (spec : List Char)

/-- The name of a field, the character that ends it and the rest; brackets hide such characters. -/
def takeName (acc : List Char) (inBrackets : Bool) : List Char → Option (List Char × Char × List Char)
  | [] => none
  | c :: r =>
    if inBrackets then takeName (c :: acc) (c != ']') r
    else if c == '{' then none
    else if c == '}' || c == ':' || c == '!' then some (acc.reverse, c, r)
    else takeName (c :: acc) (c == '[') r

def takeSpec (acc : List Char) (depth : Nat) : List Char → Option (List Char × List Char)
  | [] => none
  | c :: r =>
    if c == '{' then takeSpec (c :: acc) (depth + 1) r
    else if c == '}' then
      if depth = 0 then some (acc.reverse, r) else takeSpec (c :: acc) (depth - 1) r
    else takeSpec (c :: acc) depth r

def takeField (s : List Char) : Option (Piece × List Char) := do
  let (name, stop, r) ← takeName [] false s
  match stop with
  | '}' => some (.field name none [], r)
  | ':' =>
    let (spec, r) ← takeSpec [] 0 r
    some (.field name none spec, r)
  | _ =>
    match r with
    | c :: '}' :: r => some (.field name (some c) [], r)
    | c :: ':' :: r =>
      let (spec, r) ← takeSpec [] 0 r
      some (.field name (some c) spec, r)
    | _ => none

def piecesWith : Nat → List Char → List Char → Option (List Piece)
  | 0, _, _ => none
  | _ + 1, acc, [] => some (if acc.isEmpty then [] else [.literal acc.reverse])
  | fuel + 1, acc, '{' :: '{' :: r => piecesWith fuel ('{' :: acc) r
  | fuel + 1, acc, '}' :: '}' :: r => piecesWith fuel ('}' :: acc) r
  | _ + 1, _, '}' :: _ => none
  | fuel + 1, acc, '{' :: r => do
    let (p, r) ← takeField r
    let rest ← piecesWith fuel [] r
    return (if acc.isEmpty then [] else [.literal acc.reverse]) ++ p :: rest
  | fuel + 1, acc, c :: r => piecesWith fuel (c :: acc) r

def pieces (s : List Char) : Option (List Piece) := piecesWith (s.length + 1) [] s

/-! ## Names of fields -/

def index? (s : List Char) : Option Nat :=
  if s.isEmpty || !s.all (fun c => (Chars.digit? c).isSome) then none
  else some (Decimal.ofDigits (s.filterMap Chars.digit?))

/-- The part of a text that a name goes on to: a text has characters by number, and no members. -/
def part : Nat → String → List Char → Attempt String
  | _, s, [] => .ok s
  | 0, _, _ => fail .value
  | _ + 1, _, '.' :: r => if r.isEmpty || r.head? == some '.' || r.head? == some '[' then fail .value else fail .member
  | fuel + 1, s, '[' :: r => do
    let key := r.takeWhile (· != ']')
    if key.isEmpty || key.length = r.length then fail .value
    let n ← orFail .sort (index? key)
    let c ← orFail .index s.toList[n]?
    part fuel (String.singleton c) (r.drop (key.length + 1))
  | _ + 1, _, _ => fail .value

def argument (s : String) (name : List Char) : Attempt String := do
  let first := name.takeWhile fun c => c != '.' && c != '['
  let n ← orFail .key (index? first)
  if n ≠ 0 then fail .index
  part name.length s (name.drop first.length)

/-- How empty field names count: not yet used, the next number, or names are numbered by hand. -/
inductive Numbering
  | unused
  | next (n : Nat)
  | byHand

def Numbering.name (n : Numbering) (name : List Char) : Attempt (List Char × Numbering) :=
  if name.isEmpty then
    match n with
    | .unused => .ok (['0'], .next 1)
    | .next k => .ok (Nat.toDigits 10 k, .next (k + 1))
    | .byHand => fail .value
  else if name.all Chars.isDigitLike then
    match n with
    | .next _ => fail .value
    | _ => .ok (name, .byHand)
  else .ok (name, n)

/-! ## Specifications -/

def takeNat (s : List Char) : Option Nat × List Char :=
  let ds := s.takeWhile fun c => (Chars.digit? c).isSome
  let rest := s.dropWhile fun c => (Chars.digit? c).isSome
  (if ds.isEmpty then none else some (Decimal.ofDigits (ds.filterMap Chars.digit?)), rest)

def isAlign (c : Char) : Bool := "<>^=".toList.contains c

/-- The fill and the alignment in front of a specification, and the rest of it. -/
def takeAlign : List Char → Char × Char × List Char
  | c :: d :: r => if isAlign d then (c, d, r) else if isAlign c then (' ', c, d :: r) else (' ', '<', c :: d :: r)
  | [c] => if isAlign c then (' ', c, []) else (' ', '<', [c])
  | [] => (' ', '<', [])

/-- Writes a text as a specification says. -/
def write (s spec : List Char) : Option (List Char) := do
  let (fill, align, r) := takeAlign spec
  let (width, r) := takeNat r
  let (precision, r) ← match r with
    | '.' :: r =>
      match takeNat r with
      | (some p, r) => some (p, r)
      | (none, _) => none
    | r => some (s.length, r)
  let body := s.take precision
  let gap := width.getD 0 - body.length
  let filled (n : Nat) := List.replicate n fill
  if !r.isEmpty && r != ['s'] then none
  else match align with
    | '<' => some (body ++ filled gap)
    | '>' => some (filled gap ++ body)
    | '^' => some (filled (gap / 2) ++ body ++ filled (gap - gap / 2))
    | _ => none

/-! ## Filling -/

def convert (s : String) : Option Char → Attempt String
  | none | some 's' => .ok s
  | some 'r' | some 'a' => .ok (Text.quoted s)
  | some _ => fail .value

/-- Fills a template; specifications are filled to the depth `depth`. -/
def fillWith (s : String) : Nat → Numbering → List Char → Attempt (List Char × Numbering)
  | 0, _, _ => fail .value
  | depth + 1, numbering, template => do
    let ps ← orFail .value (pieces template)
    ps.foldlM (fun (out, numbering) p =>
      match p with
      | .literal l => .ok (out ++ l, numbering)
      | .field name conversion spec => do
        let (name, numbering) ← numbering.name name
        let v ← convert (← argument s name) conversion
        let (spec, numbering) ← fillWith s depth numbering spec
        return (out ++ (← orFail .value (write v.toList spec)), numbering)) ([], numbering)

def fill (template s : String) : Attempt String := do
  return String.ofList (← fillWith s 3 .unused template.toList).1

end QubitLab.Template
