import QubitLab.Decimal.Binary
import QubitLab.Value.Basic

/-!
# Numbers that are whole or real

Arithmetic on whole numbers stays exact; as soon as one operand is a double the result is a double, and
division always gives one. `Number.div`, `floorDiv` and `mod` follow the usual rules: a quotient is rounded once, the
remainder has the sign of the divisor.

The arithmetic that the timing of pulses needs: the four operations, an order, and the ways of rounding. Timing is
written for any `Scalar`, so that it runs on numbers as they are given and is reasoned about with exact ones.

Two numbers are the same when they have the same size, whole or not; two texts when they are equal; two lists when
their items are.
-/

namespace QubitLab

/-! ## Numbers that are whole or real -/

inductive Number
  | int (n : Int)
  | real (x : Float)
  deriving Inhabited

namespace Number

def toFloat : Number → Attempt Float
  | .int n => orFail .overflow (Decimal.floatOfInt? n)
  | .real x => .ok x

def toFloatInf : Number → Float
  | .int n => (Decimal.floatOfInt? n).getD (if n < 0 then -1.0 / 0.0 else 1.0 / 0.0)
  | .real x => x

def toValue : Number → Value
  | .int n => .int n
  | .real x => .real x

def ofValue? : Value → Option Number
  | .int n => some (.int n)
  | .bool b => some (.int (if b then 1 else 0))
  | .real x => some (.real x)
  | _ => none

def lift (f : Int → Int → Int) (g : Float → Float → Float) : Number → Number → Attempt Number
  | .int a, .int b => .ok (.int (f a b))
  | a, b => do return .real (g (← a.toFloat) (← b.toFloat))

def add : Number → Number → Attempt Number := lift (· + ·) (· + ·)

def sub : Number → Number → Attempt Number := lift (· - ·) (· - ·)

def mul : Number → Number → Attempt Number := lift (· * ·) (· * ·)

def neg : Number → Number
  | .int n => .int (-n)
  | .real x => .real (-x)

def div : Number → Number → Attempt Float
  | .int a, .int b =>
    if b = 0 then fail .zeroDivision
    else orFail .overflow (Decimal.ratio? ((a < 0) != (b < 0)) a.natAbs b.natAbs)
  | a, b => do
    let x ← a.toFloat
    let y ← b.toFloat
    if y == 0 then fail .zeroDivision else return x / y

def compareIntReal (n : Int) (x : Float) : Ordering :=
  match Decimal.Binary.ofFloat? x with
  | none => if x < 0 then .gt else .lt
  | some b =>
    let m : Int := if b.neg then -(b.num : Int) else b.num
    compare (n * b.den) m

def lt : Number → Number → Bool
  | .int a, .int b => a < b
  | .real a, .real b => a < b
  | .int a, .real b => !b.isNaN && compareIntReal a b == .lt
  | .real a, .int b => !a.isNaN && compareIntReal b a == .gt

def eq : Number → Number → Bool
  | .int a, .int b => a == b
  | .real a, .real b => a == b
  | .int a, .real b => !b.isNaN && compareIntReal a b == .eq
  | .real a, .int b => !a.isNaN && compareIntReal b a == .eq

def le (a b : Number) : Bool := lt a b || eq a b

def abs : Number → Number
  | .int n => .int n.natAbs
  | .real x => .real x.abs

/-- The remainder of two doubles, with the sign of the divisor. -/
def floatMod (x y : Float) : Float :=
  match Decimal.Binary.ofFloat? x, Decimal.Binary.ofFloat? y with
  | some a, some b =>
    if b.mant = 0 then 0.0 / 0.0
    else
      -- the remainder is exact: both magnitudes over a common denominator
      let e := min a.exp b.exp
      let m := a.mant * Nat.pow 2 (a.exp - e).toNat
      let n := b.mant * Nat.pow 2 (b.exp - e).toNat
      let r := m % n
      let mag := if 0 ≤ e then Decimal.ratio? false (r * Nat.pow 2 e.toNat) 1
        else Decimal.ratio? false r (Nat.pow 2 (-e).toNat)
      let rem := mag.getD 0
      let rem := if a.neg then -rem else rem
      if r == 0 then (if b.neg then -0.0 else 0.0)
      else if a.neg != b.neg then rem + y else rem
  | some a, none => if y.isNaN then y
    else if a.mant == 0 then (if y < 0 then -0.0 else 0.0)
    else if a.neg != (y < 0) then y else x
  | none, _ => 0.0 / 0.0

def floorDiv : Number → Number → Attempt Number
  | .int a, .int b => if b = 0 then fail .zeroDivision else .ok (.int (Int.fdiv a b))
  | a, b => do
    let x ← a.toFloat
    let y ← b.toFloat
    if y == 0 then fail .zeroDivision
    else
      let q := (x - floatMod x y) / y
      let f := q.floor
      return .real (if q - f > 0.5 then f + 1 else f)

def mod : Number → Number → Attempt Number
  | .int a, .int b => if b = 0 then fail .zeroDivision else .ok (.int (Int.fmod a b))
  | a, b => do
    let x ← a.toFloat
    let y ← b.toFloat
    if y == 0 then fail .zeroDivision else return .real (floatMod x y)

def truncate : Number → Attempt Int
  | .int n => .ok n
  | .real x =>
    match Decimal.truncate? x with
    | some n => .ok n
    | none => if x.isNaN then fail .value else fail .overflow

end Number

namespace Value

def number (v : Value) : Attempt Number := orFail .sort (Number.ofValue? v)

end Value

/-! ## Scalars -/

class Scalar (τ : Type) extends Zero τ, Add τ, Sub τ, Mul τ, Div τ where
  ofInt : Int → τ
  half : τ
  below : τ → τ → Bool
  /-- The whole number next to a scalar toward zero; none if there is none. -/
  truncate? : τ → Option Int
  /-- The remainder with the sign of the divisor; none for a divisor of zero. -/
  remainder? : τ → τ → Option τ
  round : Nat → τ → τ

namespace Number

def total (r : Attempt Number) : Number :=
  match r with
  | .ok x => x
  | .error _ => .real (0 / 0)

def roundPlaces (places : Nat) : Number → Number
  | .int n => .int n
  | .real x =>
    let scale := Float.ofScientific 1 false places
    let y := x * scale
    match Decimal.nearest? y with
    | some n => .real ((if n = 0 then (if y < 0 then -0.0 else 0) else (Number.int n).toFloatInf) / scale)
    | none => .real x

instance : Scalar Number where
  zero := .int 0
  add a b := total (a.add b)
  sub a b := total (a.sub b)
  mul a b := total (a.mul b)
  div a b :=
    match a.div b with
    | .ok x => .real x
    | .error _ => .real (a.toFloatInf / b.toFloatInf)
  ofInt := .int
  half := .real 0.5
  below := Number.lt
  truncate?
    | .int n => some n
    | .real x => Decimal.truncate? x
  remainder? a b := (a.mod b).toOption
  round := roundPlaces

end Number

instance : Scalar Float where
  zero := 0
  add := (· + ·)
  sub := (· - ·)
  mul := (· * ·)
  div := (· / ·)
  ofInt n := (Number.int n).toFloatInf
  half := 0.5
  below a b := decide (a < b)
  truncate? := Decimal.truncate?
  remainder? a b := if b == 0 then none else some (Number.floatMod a b)
  round places x := (Number.roundPlaces places (.real x)).toFloatInf

namespace Scalar

variable {τ : Type} [Scalar τ]

/-- The smallest of some scalars; the first of equal ones. -/
def least? : List τ → Option τ
  | [] => none
  | x :: r => some (r.foldl (fun a b => if below b a then b else a) x)

def greatest? : List τ → Option τ
  | [] => none
  | x :: r => some (r.foldl (fun a b => if below a b then b else a) x)

end Scalar

end QubitLab

namespace QubitLab.Value

/-! ## Equal values -/

mutual

def same : Value → Value → Bool
  | .null, .null => true
  | .text s, .text t => s == t
  | .list xs, .list ys => sameItems xs ys
  | .tuple xs, .tuple ys => sameItems xs ys
  | .record xs, .record ys => xs.length == ys.length && sameFields xs ys
  | v, w =>
    match Number.ofValue? v, Number.ofValue? w with
    | some a, some b => a.eq b
    | _, _ => false

def sameItems : List Value → List Value → Bool
  | [], [] => true
  | v :: r, w :: s => same v w && sameItems r s
  | _, _ => false

def sameFields : List (String × Value) → List (String × Value) → Bool
  | [], _ => true
  | (k, v) :: r, ys =>
    match ys.lookup k with
    | some w => same v w && sameFields r ys
    | none => false

end

instance : BEq Value := ⟨same⟩

end QubitLab.Value
