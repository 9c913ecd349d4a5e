import QubitLab.Decimal.Numeral
import QubitLab.Signal.Basic

/-!
# Hardware models of the corrections

The hardware handles `paths` samples at a time and pipelines the averaging over `stages` steps. The plain model
(`averaged`) corrects with the moving exponential average of the block means, the pipelined model
(`pipelined`) with `stages` interleaved averages, and the sample-wise model (`unrolled`) does the latter for
every sample instead of every block. Coefficients are rounded to the multiples that the multipliers hold.

The correction of a bias tee and of an exponential decay are first order filters, given here by their
coefficients. The same arithmetic serves doubles and exact numbers.

A bounce adds to the signal a scaled copy of itself, some samples later. The hardware keeps the samples of that
time in a shift register and adds its oldest entry. `bounceKernel` is the response that this amounts to.
-/

namespace QubitLab.Distortion

open Signal

/-! ## Coefficients -/

/-- The shift, in bits, that brings a small coefficient into the range of the multiplier: 0, 4, 8 or 12. -/
def coefficientShift (x : Float) : Float :=
  if x == 0 then 0
  else
    let s := (-(Float.log2 x.abs) / 4).floor * 4
    if s.isNaN then s else if s < 0 then 0 else if s > 12 then 12 else s

def roundHalfEven (x : Float) : Float :=
  if x.abs >= 4503599627370496 then x
  else
    let f := x.floor
    let d := x - f
    let r := if d < 0.5 then f else if d > 0.5 then f + 1 else if (f / 2).floor * 2 == f then f else f + 1
    if r == 0 && (x < 0 || 1 / x < 0) then -0.0 else r

/-- A coefficient at a given shift: 18 bits after the point and as many more as the shift says. -/
def roundCoefficientAt (shift x : Float) : Float :=
  let scale := Float.exp2 (18 + shift)
  roundHalfEven (x * scale) / scale

def roundCoefficient (x : Float) : Float := roundCoefficientAt (coefficientShift x) x

/-! ## Models -/

variable {α : Type} [Zero α] [Add α] [Sub α] [Mul α]

/-- Moving averages: each follows the entry `lag` places before, where `lag` is the number of entries in `past`. -/
def trail (rate : α) : List α → List α → List α
  | [], _ => []
  | _, [] => []
  | p :: past, x :: xs =>
    let u := p + rate * (x - p)
    u :: trail rate (past ++ [u]) xs

def blend (k : α) (xs us : List α) : List α := xs.zipWith (fun x u => x + k * (u - x)) us

def padded (size : Nat) (xs : List α) : List α :=
  xs ++ List.replicate ((xs.length + size - 1) / size * size - xs.length) (xs.getLastD 0)

def blockBiasTee? [One α] [Div α] (k : α) (paths : Nat) (xs : List α) : Option (List α) :=
  let acc := held paths (runningSums 0 ((blocks paths xs).map total))
  (combine? (fun a x => a + a - x) acc xs).bind fun ds => combine? (fun x d => x + 1 / k * d) xs ds

variable [Div α] [NatCast α]

def averaged (rate k : α) (paths : Nat) (xs : List α) : List α :=
  let us := trail (rate * (paths : α)) [0] ((blocks paths xs).map mean)
  blend k xs (List.replicate paths 0 ++ held paths us)

/-- The pipelined model; its result has the length of the padded signal. -/
def pipelined (round : α → α) (rate k : α) (paths stages : Nat) (xs : List α) : List α :=
  let ys := padded (stages * paths) xs
  let means := (blocks paths ys).map mean
  let us := trail (round (rate * ((paths * stages : Nat) : α))) (List.replicate stages 0) (movingMean stages means)
  blend (round k) ys (List.replicate paths 0 ++ held paths us)

def unrolled (round : α → α) (rate k : α) (paths stages : Nat) (xs : List α) : List α :=
  let width := stages * paths
  let us := trail (round (rate * (width : α))) (List.replicate width 0) (movingMean width xs)
  blend (round k) xs (0 :: us)

/-! ## Real-time corrections of linear distortions -/

variable {α : Type} [Zero α] [One α] [Add α] [Sub α] [Neg α] [Mul α] [Div α]

/-- The correction of a bias tee, `k` being twice its time constant in samples. -/
def biasTee (k : α) : Stage α := ⟨((k + 1) / k, -(k - 1) / k), (1, -1)⟩

def decayWeight [LE α] [DecidableLE α] (amp rate : α) : α :=
  if 0 ≤ amp then amp / (1 + amp - rate) else -amp / (1 + amp) / (1 - rate)

/-- The correction of a decay of relative height `amp`; `rate` is the part of the decay within one sample. -/
def decay [LE α] [DecidableLE α] (amp rate : α) : Stage α :=
  let k := decayWeight amp rate
  let num := if 0 ≤ amp then (1 - k + k * rate, -(1 - k) * (1 - rate))
    else (1 + k - k * rate, -(1 + k) * (1 - rate))
  ⟨num, (1, -(1 - rate))⟩

def correct (s : Stage α) (inverse : Bool) (xs : List α) : List α :=
  if inverse then s.inverse.run xs else s.run xs

/-- The corrected signal, or what the inverse of the correction makes of one; none if the output has no coefficient. -/
def correct? [BEq α] (s : Stage α) (inverse : Bool) (xs : List α) : Option (List α) :=
  if (if inverse then s.num.1 else s.den.1) == 0 then none else some (correct s inverse xs)

/-- The part of a decay within one sample, for a time constant in samples. -/
def decayRate (span : Float) : Float := 1 - Float.exp (-1 / span)

/-! ## Correction of a single bounce -/

inductive BounceError
  | delay (samples : Int)
  | amplitude
  | scope
  | register
  | short
  | count (isLarge : Bool)
  deriving DecidableEq

/-- The fault for an error; that of a delay has a text only if the limit is a whole number. -/
def BounceError.fault (nanoseconds amp : String) (limit? : Option Int) : BounceError → Fault
  | .delay n => { kind := .value, message := limit?.map fun limit =>
      s!"\nThe maximum delay (\"{Decimal.intText n}\"/ {nanoseconds}ns)needs to be less than {Decimal.intText limit} " ++
      "(bufsize-8) AWG samples to save hardware resources.\n" ++
      "The delay needs to be at least 1 AWG sample.\")\n" }
  | .amplitude => .because .value s!"The amplitude ({amp}) needs to be between -1 and 1."
  | .scope => .of .zeroDivision
  | .register => .of .value
  | .short => .because .value "The delay needs to be at least one sample."
  | .count isLarge => .of (if isLarge then .overflow else .value)

variable {α : Type}

/-- The register after a sample was put in `n` times, the newest entry in front. -/
def shift (n : Nat) (x : α) (register : List α) : List α := (List.replicate n x ++ register).take register.length

/-- Adds the oldest entry of the register to each sample. A sample comes with the number of times that it is
put into the register; more than the register holds is an error. -/
def addBounce [Zero α] [Add α] [Mul α] (amp : α) : List α → List (Nat × α) → Except BounceError (List α)
  | _, [] => .ok []
  | register, (n, x) :: xs =>
    if register.length < n then .error .register
    else do
      let ys ← addBounce amp (shift n x register) xs
      return (x + amp * register.getLastD 0) :: ys

section Bounce

variable {τ : Type} [Scalar τ]

def wholeOf (x : τ) : Except BounceError Int :=
  match Scalar.truncate? x with
  | some n => .ok n
  | none => .error (.count (Scalar.below x 0 || Scalar.below 0 x))

def samplesWithin (rate delay : τ) : Except BounceError Int := wholeOf (Scalar.round 0 (rate * delay))

/-- How often each of `count` samples is put into the register when the register moves `rate` times per sample. -/
def ticks (rate : τ) : Nat → τ → Int → Except BounceError (List Nat)
  | 0, _, _ => .ok []
  | count + 1, now, before => do
    let n ← wholeOf (now + rate)
    let step := (n - before).toNat
    let rest ← ticks rate count (now + rate) (if step = 0 then before else n)
    return step :: rest

/-- A bounce, and what its correction works with: the rates of the generator and of the scope, and the size of the buffer. -/
structure Bounce (τ : Type) where
  delay : τ
  amp : τ
  rate : τ
  scope : τ
  size : τ

def Bounce.correct (b : Bounce τ) (round : τ → τ) (xs : List τ) : Except BounceError (List τ) := do
  let d ← samplesWithin b.rate b.delay
  if !(1 ≤ d && Scalar.below (Scalar.ofInt d) (b.size - Scalar.ofInt 8)) then throw (.delay d)
  if !(Scalar.below (Scalar.ofInt (-1)) b.amp && Scalar.below b.amp (Scalar.ofInt 1)) then throw .amplitude
  if (Scalar.remainder? b.rate b.scope).isNone then throw .scope
  let counts ← ticks (b.rate / b.scope) xs.length 0 0
  addBounce (round b.amp) (List.replicate d.toNat 0) (counts.zip xs)

def bounceKernel (rate delay amp : τ) : Except BounceError (List τ) := do
  let d ← samplesWithin rate delay
  if d < 1 then throw .short
  return Scalar.ofInt 1 :: List.replicate (d.toNat - 1) 0 ++ [amp]

end Bounce

def delayed? [Zero α] (d : Int) (xs : List α) : Option (List α) :=
  (spread? (xs.length - cutPlace xs.length d) (upTo (-d) xs)).map fun ys =>
    List.replicate (cutPlace xs.length d) 0 ++ ys

end QubitLab.Distortion
