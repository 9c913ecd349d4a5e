import QubitLab.Decimal.Numeral
import QubitLab.Text.Search
import QubitLab.Value.Tree

/-!
# Signatures

A signature is a line of words, one for each parameter of an operation. A bare word is a parameter that has to be given.
A mark behind the word says what the default is: `?` null, `+` true, `-` false, and behind `=` stands a number or a text;
`=@` takes the next of some values. A star behind the name makes an array of a list that is given.

Arguments are values by name.
-/

namespace QubitLab

/-- A parameter: its name, its default if it has one, and whether lists given for it become arrays. -/
structure Parameter where
  name : String
  default? : Option Value := none
  isArray : Bool := false

def need (name : String) : Parameter := ⟨name, none, false⟩

def may (name : String) (v : Value) : Parameter := ⟨name, some v, false⟩

namespace Parameter

def readDefault (s : String) : Value :=
  match Decimal.readInt? 10 s.toList, Decimal.readReal? s.toList with
  | some n, _ => .int n
  | none, some x => .real x
  | none, none => .text s

/-- The parameters of the words of a signature, with values for the defaults that it leaves open. -/
def ofWords : List String → List Value → List Parameter
  | [], _ => []
  | w :: r, vs =>
    let name := w.toList.takeWhile fun c => !("*?+-=".toList.contains c)
    let rest := w.toList.drop name.length
    let isArray := rest.head? == some '*'
    let mark := String.ofList (if isArray then rest.drop 1 else rest)
    let of (default? : Option Value) : Parameter := ⟨String.ofList name, default?, isArray⟩
    match mark, vs with
    | "", _ => of none :: ofWords r vs
    | "?", _ => of (some .null) :: ofWords r vs
    | "+", _ => of (some (.bool true)) :: ofWords r vs
    | "-", _ => of (some (.bool false)) :: ofWords r vs
    | "=@", v :: vs => of (some v) :: ofWords r vs
    | m, _ => of (some (readDefault (String.ofList (m.toList.drop 1)))) :: ofWords r vs

end Parameter

def signature (line : String) (vs : List Value := []) : List Parameter := Parameter.ofWords (Text.words line) vs

instance : Coe String (List Parameter) := ⟨fun line => signature line⟩

/-! ## Arguments -/

abbrev Arguments := String → Value

def intArg (v : Value) : Attempt Int := orFail .sort v.int?

def textArg (v : Value) : Attempt String := orFail .sort v.text?

def numberArg (v : Value) : Attempt Number := orFail .sort (Number.ofValue? v)

def floatArg (v : Value) : Attempt Float := do (← numberArg v).toFloat

def listArg (v : Value) : Attempt (List Value) := orFail .sort v.items?

def recordArg (v : Value) : Attempt Fields := orFail .sort v.fields?

end QubitLab
