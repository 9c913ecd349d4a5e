/-!
# Doubles as exact fractions

A finite double is `± mant * 2 ^ exp` for a natural `mant`; `Binary.ofFloat?` reads that form off the
bits, `Binary.num` and `Binary.den` give the magnitude as a fraction. `roundDiv` rounds a quotient of
naturals to the nearest natural, a half going to the even neighbour, and `nearestRatio?` rounds a quotient to
the nearest double by the same rule.
-/

namespace QubitLab.Decimal

/-- The natural nearest to `num / den`; a half goes to the even neighbour. -/
def roundDiv (num den : Nat) : Nat :=
  let q := num / den
  let r := num % den
  if 2 * r < den then q
  else if 2 * r > den then q + 1
  else if q % 2 == 0 then q else q + 1

structure Binary where
  neg : Bool
  mant : Nat
  exp : Int
  deriving Repr, DecidableEq

namespace Binary

def ofFloat? (x : Float) : Option Binary :=
  let bits := x.toBits.toNat
  let neg := bits / Nat.pow 2 63 == 1
  let e : Nat := bits / Nat.pow 2 52 % 2048
  let f : Nat := bits % Nat.pow 2 52
  if e == 2047 then none
  else if e == 0 then some ⟨neg, f, -1074⟩
  else some ⟨neg, Nat.pow 2 52 + f, (e : Int) - 1075⟩

def num (b : Binary) : Nat := b.mant * Nat.pow 2 b.exp.toNat

def den (b : Binary) : Nat := Nat.pow 2 (-b.exp).toNat

end Binary

def bitLength (n : Nat) : Nat := if n = 0 then 0 else n.log2 + 1

/-- The exponent of the last place that is kept of `num / den`, at least that of the least double. -/
def lastPlace (num den : Nat) : Int :=
  let e : Int := (bitLength num : Int) - bitLength den - 53
  max (if num * Nat.pow 2 (-e).toNat < den * Nat.pow 2 e.toNat * Nat.pow 2 53 then e else e + 1) (-1074)

/-- The double nearest to `num / den` (without a sign) in exact form; none if it is too large. -/
def nearestRatio? (num den : Nat) : Option Binary :=
  let e := lastPlace num den
  let m := roundDiv (num * Nat.pow 2 (-e).toNat) (den * Nat.pow 2 e.toNat)
  let b : Binary := if m = Nat.pow 2 53 then ⟨false, Nat.pow 2 52, e + 1⟩ else ⟨false, m, e⟩
  if num = 0 then some ⟨false, 0, -1074⟩ else if Nat.pow 2 52 ≤ b.mant ∧ b.exp > 971 then none else some b

def ratioBits? (num den : Nat) : Option Nat :=
  (nearestRatio? num den).map fun b =>
    if b.mant < Nat.pow 2 52 then b.mant else (b.exp + 1075).toNat * Nat.pow 2 52 + (b.mant - Nat.pow 2 52)

/-- The whole part of the double nearest to `num / den`. -/
def quotient? (num den : Nat) : Option Nat := (nearestRatio? num den).map fun b => b.num / b.den

def ratio? (neg : Bool) (num den : Nat) : Option Float :=
  (ratioBits? num den).map fun b => Float.ofBits (UInt64.ofNat (b + if neg then Nat.pow 2 63 else 0))

def floatOfInt? (n : Int) : Option Float := ratio? (n < 0) n.natAbs 1

/-- The integer part of a finite double, toward zero. -/
def truncate? (x : Float) : Option Int :=
  (Binary.ofFloat? x).map fun b =>
    let n : Int := b.num / b.den
    if b.neg then -n else n

def ceil? (x : Float) : Option Int :=
  (Binary.ofFloat? x).map fun b =>
    if b.neg then -((b.num / b.den : Nat) : Int) else ((b.num + b.den - 1) / b.den : Nat)

def nearest? (x : Float) : Option Int :=
  (Binary.ofFloat? x).map fun b =>
    let n : Int := roundDiv b.num b.den
    if b.neg then -n else n

end QubitLab.Decimal
