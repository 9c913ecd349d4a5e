import QubitLab.Decimal.Binary

/-!
# Writing numbers

`magnitude` is the decimal exponent of a positive fraction, `significant` rounds it to a number of
significant digits, and `shortest` finds the fewest digits that read back as the same double: for
1, 2, … 17 digits it tests the two neighbours of the value on that decimal grid against the interval
of reals that round to the double, and takes the nearer of the neighbours that lie in it.

The notations of a double: `fixed` (a number of places), `exponential` (one digit, places, exponent of
at least two digits), `general` (the shorter of the two for a number of significant digits, without
trailing zeros), and `plain`, the fewest digits that read back, positional for exponents from -4 to 15.
Every notation spells the values that are not finite as `nan`, `inf` and `-inf`.
-/

namespace QubitLab.Decimal

/-! ## Decimal digits of a fraction -/

def digitCount (n : Nat) : Nat := (Nat.toDigits 10 n).length

def powerLe (k : Int) (num den : Nat) : Bool :=
  if 0 ≤ k then den * Nat.pow 10 k.toNat ≤ num else den ≤ num * Nat.pow 10 (-k).toNat

def magnitude (num den : Nat) : Int :=
  let k : Int := (digitCount num : Int) - digitCount den
  if powerLe k num den then k else k - 1

def scaleRound (k : Int) (num den : Nat) : Nat :=
  if 0 ≤ k then roundDiv (num * Nat.pow 10 k.toNat) den else roundDiv num (den * Nat.pow 10 (-k).toNat)

def scaleDown (k : Int) (num den : Nat) : Nat :=
  if 0 ≤ k then num * Nat.pow 10 k.toNat / den else num / (den * Nat.pow 10 (-k).toNat)

/-- The first `n` digits of a positive fraction, rounded, as a natural, and the decimal exponent of
the first of them. -/
def significant (n : Nat) (num den : Nat) : Nat × Int :=
  let e := magnitude num den
  let d := scaleRound ((n : Int) - 1 - e) num den
  if d = Nat.pow 10 n then (Nat.pow 10 (n - 1), e + 1) else (d, e)

/-! ## The fewest digits that read back -/

def compareScaled (a : Nat) (k : Int) (n d : Nat) : Ordering :=
  if 0 ≤ k then compare (a * Nat.pow 10 k.toNat * d) n else compare (a * d) (n * Nat.pow 10 (-k).toNat)

/-- The reals that round to a positive double: four times its magnitude lies between `lo` and `hi`,
the ends included when the last binary digit is even. -/
structure Interval where
  lo : Nat
  hi : Nat
  den : Nat
  closed : Bool

def Interval.of (b : Binary) : Interval :=
  let step := if b.mant == Nat.pow 2 52 && b.exp > -1074 then 1 else 2
  let scale (n : Nat) : Nat := if 0 ≤ b.exp then n * Nat.pow 2 b.exp.toNat else n
  ⟨scale (4 * b.mant - step), scale (4 * b.mant + 2), 4 * b.den, b.mant % 2 == 0⟩

def Interval.has (i : Interval) (a : Nat) (k : Int) : Bool :=
  match compareScaled a k i.lo i.den, compareScaled a k i.hi i.den with
  | .gt, .lt => true
  | .eq, _ => i.closed
  | _, .eq => i.closed
  | _, _ => false

/-- The fewest digits, at least `n` and at most `n + fuel`, that lie in the interval: a natural and the
power of ten it is to be multiplied with. -/
def shortestFrom (b : Binary) (i : Interval) (e : Int) : Nat → Nat → Nat × Int
  | 0, n => (scaleRound ((n : Int) - 1 - e) b.num b.den, e - (n - 1))
  | fuel + 1, n =>
    let k : Int := (n : Int) - 1 - e
    let down := scaleDown k b.num b.den
    let near := scaleRound k b.num b.den
    if i.has near (-k) then (near, -k)
    else if i.has down (-k) then (down, -k)
    else if i.has (down + 1) (-k) then (down + 1, -k)
    else shortestFrom b i e fuel (n + 1)

def dropZeros : Nat → Nat → Int → Nat × Int
  | 0, d, p => (d, p)
  | fuel + 1, d, p => if d % 10 == 0 && d != 0 then dropZeros fuel (d / 10) (p + 1) else (d, p)

/-- The fewest digits that read back as a positive double, as a natural without trailing zeros, and
the decimal exponent of the first of them. -/
def shortest (b : Binary) : Nat × Int :=
  let (d, p) := shortestFrom b (.of b) (magnitude b.num b.den) 16 1
  let (d, p) := dropZeros 20 d p
  (d, p + digitCount d - 1)

/-! ## Writing numbers -/

def natText (n : Nat) : String := String.ofList (Nat.toDigits 10 n)

def intText (n : Int) : String := if n < 0 then "-" ++ natText n.natAbs else natText n.natAbs

def zeroPad (width : Nat) (s : List Char) : List Char := List.replicate (width - s.length) '0' ++ s

def pointed (places d : Nat) (keepPoint : Bool) : List Char :=
  let ds := zeroPad (places + 1) (Nat.toDigits 10 d)
  let whole := ds.take (ds.length - places)
  if places = 0 then (if keepPoint then whole ++ ['.'] else whole)
  else whole ++ '.' :: ds.drop (ds.length - places)

/-- The exponent part of a number: sign and at least two digits. -/
def exponentText (e : Int) : List Char := 'e' :: (if e < 0 then '-' else '+') :: zeroPad 2 (Nat.toDigits 10 e.natAbs)

def fixedDigits (places : Nat) (keepPoint : Bool) (b : Binary) : List Char :=
  pointed places (scaleRound places b.num b.den) keepPoint

def dropPlaceZeros (s : List Char) : List Char :=
  if s.contains '.' then
    let t := (s.reverse.dropWhile (· == '0'))
    (if t.head? == some '.' then t.drop 1 else t).reverse
  else s

/-- The magnitude with `n` significant digits, positional when the exponent is from -4 to `n - 1`. -/
def generalDigits (n : Nat) (keepZeros : Bool) (b : Binary) : List Char :=
  let n := if n = 0 then 1 else n
  let (d, e) := if b.mant = 0 then (0, (0 : Int)) else significant n b.num b.den
  let tidy (s : List Char) := if keepZeros then s else dropPlaceZeros s
  if e < -4 || e ≥ n then tidy (pointed (n - 1) d keepZeros) ++ exponentText e
  else if 0 ≤ (n : Int) - 1 - e then
    tidy (pointed ((n : Int) - 1 - e).toNat d keepZeros)
  else Nat.toDigits 10 d

/-- The fewest digits that read back, positional when the exponent is from `-4` to `top - 1`; a number
without places gets one zero behind the point when `pointZero`. -/
def plainDigits (top : Int) (pointZero : Bool) (b : Binary) : List Char :=
  if b.mant = 0 then (if pointZero then ['0', '.', '0'] else ['0'])
  else
    let (d, e) := shortest b
    let n := digitCount d
    if e < -4 || e ≥ top then pointed (n - 1) d false ++ exponentText e
    else if (n : Int) ≤ e + 1 then
      Nat.toDigits 10 (d * Nat.pow 10 (e + 1 - n).toNat) ++ (if pointZero then ['.', '0'] else [])
    else pointed ((n : Int) - 1 - e).toNat d false

def withSign (f : Binary → List Char) (x : Float) : String :=
  match Binary.ofFloat? x with
  | some b => String.ofList (if b.neg then '-' :: f b else f b)
  | none => if x.isNaN then "nan" else if x < 0 then "-inf" else "inf"

def fixed (places : Nat) (x : Float) : String := withSign (fixedDigits places false) x

def general (n : Nat) (x : Float) : String := withSign (generalDigits n false) x

def plain (x : Float) : String := withSign (plainDigits 16 true) x

end QubitLab.Decimal
