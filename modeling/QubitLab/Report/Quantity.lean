import QubitLab.Decimal.Notation
import QubitLab.Value.Number

/-!
# Reported quantities

Doubles are reported with a limited number of significant digits, so that a report does not depend on
the last bits of a computation. The numbers of one array share one power of ten, chosen from the largest
of them: `exponent` is the power for `digits` digits and never below `-14`. `quantise` rounds each
number to the nearest multiple, a half to the even one. `reported` turns a value into one of scalars,
texts, lists and records only.

A value with a unit is reported with a letter for a power of a thousand. `scale?` gives the factor and the unit
with its letter; a unit that takes no letters, or a value beyond the letters, gives the factor 1.
-/

namespace QubitLab.Report

open Decimal

/-! ## Reported quantities -/

def exponent (digits : Nat) (xs : Array Float) : Int :=
  let top := xs.foldl (fun m x => if x.isFinite && x.abs > m then x.abs else m) 0.0
  match Binary.ofFloat? top with
  | some b => if b.mant = 0 then 0
    else max ((significant 9 b.num b.den).2 - ((digits : Int) - 1)) (-14)
  | none => 0

/-- A number as a multiple of a power of ten; a word if it is not finite. -/
def multiple (k : Int) (x : Float) : Value :=
  match Binary.ofFloat? x with
  | some b =>
    let n : Int := scaleRound (-k) b.num b.den
    .int (if b.neg then -n else n)
  | none => .text (if x.isNaN then "nan" else if x < 0 then "-inf" else "inf")

def isNonzero : Value → Bool
  | .int n => n != 0
  | .text _ => false
  | _ => false

/-- The shared power of ten and the multiples; the power is 0 when all multiples are 0. -/
def quantise (digits : Nat) (xs : Array Float) : Int × Array Value :=
  let k := exponent digits xs
  let ms := xs.map (multiple k)
  (if ms.any isNonzero then k else 0, ms)

def number (digits : Nat) (x : Float) : Value :=
  let (k, ms) := quantise digits #[x]
  .record [("exp", .int k), ("m", ms.getD 0 .null)]

def numbers (digits : Nat) (shape : List Nat) (xs : Array Float) : Value :=
  let (k, ms) := quantise digits xs
  .record ([("exp", .int k), ("m", .list ms.toList)] ++
    (if shape.length == 1 then [] else [("shape", .ofNats shape)]))

def complexNumber (digits : Nat) (z : Complex) : Value :=
  let (k, ms) := quantise digits #[z.re, z.im]
  .record [("exp", .int k), ("re", ms.getD 0 .null), ("im", ms.getD 1 .null)]

def nest : List Nat → List Value → Value
  | [], xs => xs.headD .null
  | [_], xs => .list xs
  | n :: r, xs =>
    let size := r.foldl (· * ·) 1
    .list ((List.range n).map fun i => nest r ((xs.drop (i * size)).take size))

def mergeRuns : List (Nat × Value) → List Value → List Value
  | acc, [] => acc.reverse.map fun (n, v) => .list [.ofNat n, v]
  | [], v :: r => mergeRuns [(1, v)] r
  | (n, w) :: acc, v :: r =>
    let same : Bool := match v, w with
      | .int a, .int b => a == b
      | .text a, .text b => a == b
      | _, _ => false
    if same then mergeRuns ((n + 1, w) :: acc) r else mergeRuns ((1, v) :: (n, w) :: acc) r

def runs (digits : Nat) (xs : Array Float) : Value :=
  let (k, ms) := quantise digits xs
  .record [("n", .ofNat xs.size), ("exp", .int k), ("runs", .list (mergeRuns [] ms.toList))]

def intRuns (xs : Array Int) : Value :=
  .record [("n", .ofNat xs.size), ("exp", .int 0),
    ("runs", .list (mergeRuns [] (xs.toList.map .int)))]

def numericList? (xs : List Value) : Option (Array Float) :=
  let hasReal := xs.any fun v => match v with
    | .real _ => true
    | _ => false
  if !hasReal then none
  else xs.foldl (fun acc v => match acc, v with
    | some a, .real x => some (a.push x)
    | some a, .int n => (floatOfInt? n).map a.push
    | _, _ => none) (some #[])

mutual

def reported (digits : Nat) : Value → Value
  | .null => .null
  | .bool b => .bool b
  | .int n => .int n
  | .real x => number digits x
  | .complex z => complexNumber digits z
  | .text s => .text s
  | .bytes bs => .ofNats bs
  | .list xs =>
    match numericList? xs with
    | some a => numbers digits [a.size] a
    | none => .list (reportedItems digits xs)
  | .tuple xs =>
    match numericList? xs with
    | some a => numbers digits [a.size] a
    | none => .list (reportedItems digits xs)
  | .record fs => .record (reportedFields digits fs)
  | .bools t => nest t.shape (t.data.toList.map .bool)
  | .ints t => nest t.shape (t.data.toList.map .int)
  | .reals t => if t.shape.isEmpty then number digits (t.data.getD 0 0) else numbers digits t.shape t.data

def reportedItems (digits : Nat) : List Value → List Value
  | [] => []
  | v :: r => reported digits v :: reportedItems digits r

def reportedFields (digits : Nat) : List (String × Value) → List (String × Value)
  | [] => []
  | (k, v) :: r => (k, reported digits v) :: reportedFields digits r

end

end QubitLab.Report

namespace QubitLab.Report

/-! ## Units with scale letters -/

def scaledUnits : List String :=
  ["m", "s", "g", "W", "J", "V", "A", "F", "T", "Hz", "Ohm", "S", "N", "C", "px", "b", "B", "K", "Bar", "Vpeak",
   "Vpp", "Vp", "Vrms", "$\\Phi_0$", "A/s"]

def scaleLetters : List String := ["y", "z", "a", "f", "p", "n", "μ", "m", "", "k", "M", "G", "T", "P", "E", "Z", "Y"]

def scaleLetter? (power : Float) : Option String := do
  let n ← Decimal.truncate? power
  if n % 3 = 0 ∧ -24 ≤ n ∧ n ≤ 24 then scaleLetters[((n + 24) / 3).toNat]? else none

def scaleMagnitude? : Value → Option Float
  | .int n => if n.natAbs < Nat.pow 2 64 then Decimal.floatOfInt? n.natAbs else none
  | .bool b => some (if b then 1 else 0)
  | .real x => some x.abs
  | _ => none

def scale? (v : Value) (unit : String) : Option (Float × String) := do
  if !scaledUnits.contains unit then none
  else
    let x ← scaleMagnitude? v
    let thirds ← match Number.floorDiv (.real x.log10) (.int 3) with
      | .ok (.real q) => some q
      | _ => none
    let power := thirds * 3
    let letter ← scaleLetter? power
    return (Float.pow 10 (-power), letter ++ unit)

end QubitLab.Report
