import QubitLab.Fault

/-!
# Values

Settings, pulse parameters, configuration files and results are trees of values: scalars, texts, lists,
records whose fields keep the order in which they were put, and rectangular arrays of one element type.
An integer and a double of the same size are different values. `Fields.put` replaces the value of a
key in its place or adds the key at the end.
-/

namespace QubitLab

def Function.pi : Float := 3.141592653589793

structure Complex where
  re : Float
  im : Float
  deriving Inhabited

/-- A rectangular array: the extent along each axis and the elements in row-major order. -/
structure Tensor (α : Type) where
  shape : List Nat
  data : Array α
  deriving Inhabited

namespace Tensor

variable {α β : Type}

def ofArray (xs : Array α) : Tensor α := ⟨[xs.size], xs⟩

def map (f : α → β) (t : Tensor α) : Tensor β := ⟨t.shape, t.data.map f⟩

def rank (t : Tensor α) : Nat := t.shape.length

end Tensor

inductive Value
  | null
  | bool (b : Bool)
  | int (n : Int)
  | real (x : Float)
  | complex (z : Complex)
  | text (s : String)
  | bytes (bs : List Nat)
  | list (xs : List Value)
  | tuple (xs : List Value)
  | record (fields : List (String × Value))
  | bools (t : Tensor Bool)
  | ints (t : Tensor Int)
  | reals (t : Tensor Float)
  deriving Inhabited

/-! ## Keyed lists -/

/-- Sets a key of a keyed list: in its place if it is there, else at the end. -/
def Assoc.put {α : Type} (k : String) (v : α) : List (String × α) → List (String × α)
  | [] => [(k, v)]
  | (k', v') :: r => if k' == k then (k, v) :: r else (k', v') :: Assoc.put k v r

def Assoc.putAll {α : Type} (new : List (String × α)) (fs : List (String × α)) : List (String × α) :=
  new.foldl (fun acc (k, v) => Assoc.put k v acc) fs

/-- A keyed list in which each key stands once: the last value of a key, at the key's first place. -/
def Assoc.ofPairs {α : Type} (ps : List (String × α)) : List (String × α) := Assoc.putAll ps []

abbrev Fields := List (String × Value)

namespace Fields

def get? (fs : Fields) (k : String) : Option Value := fs.lookup k

def get (fs : Fields) (k : String) : Attempt Value := orFail .key (get? fs k)

def has (fs : Fields) (k : String) : Bool := (get? fs k).isSome

def put (k : String) (v : Value) (fs : Fields) : Fields := Assoc.put k v fs

def putAll (new : Fields) (fs : Fields) : Fields := Assoc.putAll new fs

def drop (k : String) (fs : Fields) : Fields := fs.filter fun (k', _) => k' != k

def keys (fs : Fields) : List String := fs.map Prod.fst

def ofPairs (ps : Fields) : Fields := Assoc.ofPairs ps

end Fields

namespace Value

def ofInts (xs : List Int) : Value := .list (xs.map .int)

def ofNats (xs : List Nat) : Value := .list (xs.map fun (n : Nat) => .int n)

def ofTexts (xs : List String) : Value := .list (xs.map .text)

def ofNat (n : Nat) : Value := .int n

def ofReals (xs : Array Float) : Value := .reals (.ofArray xs)

def ofIntArray (xs : Array Int) : Value := .ints (.ofArray xs)

def fields? : Value → Option Fields
  | .record fs => some fs
  | _ => none

def get? (v : Value) (k : String) : Option Value := v.fields?.bind fun fs => fs.get? k

def text? : Value → Option String
  | .text s => some s
  | _ => none

def items? : Value → Option (List Value)
  | .list xs => some xs
  | .tuple xs => some xs
  | _ => none

def int? : Value → Option Int
  | .int n => some n
  | .bool b => some (if b then 1 else 0)
  | _ => none

/-- The truth of a value: zero, the empty text, list or record, and null are false. -/
def truth : Value → Bool
  | .null => false
  | .bool b => b
  | .int n => n != 0
  | .real x => x != 0
  | .complex z => z.re != 0 || z.im != 0
  | .text s => !s.isEmpty
  | .bytes bs => !bs.isEmpty
  | .list xs => !xs.isEmpty
  | .tuple xs => !xs.isEmpty
  | .record fs => !fs.isEmpty
  | .bools t => t.data.any id
  | .ints t => t.data.any (· != 0)
  | .reals t => t.data.any (· != 0)

def isNull : Value → Bool
  | .null => true
  | _ => false

end Value

end QubitLab
