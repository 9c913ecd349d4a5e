import QubitLab.Decimal.Numeral

/-!
# Rectangular arrays of nested lists

A nested list is rectangular when all items of a level have the same extents. `toArray` gives the array of
a rectangular list, with the narrowest element type that holds all its leaves: truth values, integers
or doubles. A scalar stays a scalar.
-/

namespace QubitLab.Value

mutual

def extents? : Value → Option (List Nat)
  | .list xs => extentsOfItems? xs
  | .tuple xs => extentsOfItems? xs
  | .bools t => some t.shape
  | .ints t => some t.shape
  | .reals t => some t.shape
  | _ => some []

def extentsOfItems? (xs : List Value) : Option (List Nat) :=
  match extentsOfEach? xs with
  | none => none
  | some [] => some [0]
  | some (s :: r) => if r.all (· == s) then some (xs.length :: s) else none

def extentsOfEach? : List Value → Option (List (List Nat))
  | [] => some []
  | v :: r =>
    match extents? v, extentsOfEach? r with
    | some s, some ss => some (s :: ss)
    | _, _ => none

end

mutual

def leaves : Value → List Value
  | .list xs => leavesOfItems xs
  | .tuple xs => leavesOfItems xs
  | .bools t => t.data.toList.map .bool
  | .ints t => t.data.toList.map .int
  | .reals t => t.data.toList.map .real
  | v => [v]

def leavesOfItems : List Value → List Value
  | [] => []
  | v :: r => leaves v ++ leavesOfItems r

end

/-- The element types, from the narrowest to the widest. -/
inductive Element
  | bool
  | int
  | real
  | other
  deriving DecidableEq

def Element.rank : Element → Nat
  | .bool => 0
  | .int => 1
  | .real => 2
  | .other => 3

def element : Value → Element
  | .bool _ => .bool
  | .int _ => .int
  | .real _ => .real
  | _ => .other

def Element.max (a b : Element) : Element := if a.rank < b.rank then b else a

/-- The double of a number; whole numbers that are too large become infinite. -/
def toFloat? : Value → Option Float
  | .real x => some x
  | .int n => some (Number.int n).toFloatInf
  | .bool b => some (if b then 1 else 0)
  | _ => none

def allSome {α β : Type} (f : α → Option β) (xs : List α) : Option (Array β) :=
  xs.foldl (fun acc x => match acc, f x with
    | some a, some y => some (a.push y)
    | _, _ => none) (some #[])

/-- The array of a nested list; scalars stay as they are. -/
def toArray (v : Value) : Attempt Value :=
  match v with
  | .list _ | .tuple _ =>
    match extents? v with
    | none => fail .value
    | some shape =>
      let ls := leaves v
      let kind := ls.foldl (fun k l => Element.max k l.element) Element.bool
      if ls.isEmpty then .ok (.reals ⟨shape, #[]⟩)
      else
        match kind with
        | .bool => .ok (.bools ⟨shape, (ls.map truth).toArray⟩)
        | .int => orFail .sort ((allSome int? ls).map fun d => .ints ⟨shape, d⟩)
        | .real => orFail .sort ((allSome toFloat? ls).map fun d => .reals ⟨shape, d⟩)
        | .other => fail .sort
  | v => .ok v

mutual

/-- Replaces the words for numbers that are not finite by these numbers. -/
def readWords : Value → Value
  | .text s => if s == "nan" then .real (0.0 / 0.0) else if s == "inf" then .real (1.0 / 0.0)
    else if s == "-inf" then .real (-1.0 / 0.0) else .text s
  | .list xs => .list (readWordsIn xs)
  | v => v

def readWordsIn : List Value → List Value
  | [] => []
  | v :: r => readWords v :: readWordsIn r

end

end QubitLab.Value
