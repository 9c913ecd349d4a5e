import QubitLab.Fault

/-!
# Signals

A signal is a list of samples. The operations here use only the arithmetic of the samples, so they work in
double precision and in exact arithmetic alike. Cuts are given by a place; a negative place counts from the
end, and a place outside the signal is moved to its nearest end.

A filter with the coefficients `num` and `den` turns the signal `x` into the signal `y` with
`den.1 * y[n] + den.2 * y[n-1] = num.1 * x[n] + num.2 * x[n-1]`, both signals being zero before their start.
Swapping the two pairs gives the inverse filter.
-/

namespace QubitLab

/-! ## Signals -/

instance natCastFloat : NatCast Float := ⟨Nat.toFloat⟩

namespace Signal

variable {α β γ : Type}

/-! ## Cuts -/

def cutPlace (size : Nat) (i : Int) : Nat := if i < 0 then (i + size).toNat else min i.toNat size

def upTo (i : Int) (xs : List α) : List α := xs.take (cutPlace xs.length i)

def between (i j : Int) (xs : List α) : List α := (xs.take (cutPlace xs.length j)).drop (cutPlace xs.length i)

def blocks (size : Nat) (xs : List α) : List (List α) :=
  (List.range ((xs.length + size - 1) / size)).map fun i => (xs.drop (i * size)).take size

def held (count : Nat) (xs : List α) : List α := xs.flatMap (List.replicate count)

def combine? (f : α → β → γ) (xs : List α) (ys : List β) : Option (List γ) :=
  if xs.length = ys.length then some (xs.zipWith f ys)
  else
    match xs, ys with
    | [x], ys => some (ys.map (f x))
    | xs, [y] => some (xs.map (f · y))
    | _, _ => none

/-- A row of `size` entries as it is, or a single entry repeated. -/
def spread? (size : Nat) (xs : List α) : Option (List α) :=
  if xs.length = size then some xs
  else
    match xs with
    | [x] => some (List.replicate size x)
    | _ => none

/-! ## Sums -/

section Sums

variable [Zero α] [Add α]

def total (xs : List α) : α := xs.foldl (· + ·) 0

def runningSums (start : α) : List α → List α
  | [] => []
  | x :: xs => (start + x) :: runningSums (start + x) xs

def mean [Div α] [NatCast α] (xs : List α) : α := total xs / (xs.length : α)

/-- Adds two signals; the longer one goes on alone. -/
def mix : List α → List α → List α
  | [], ys => ys
  | xs, [] => xs
  | x :: xs, y :: ys => (x + y) :: mix xs ys

def dot [Mul α] (xs ys : List α) : α := total (xs.zipWith (· * ·) ys)

/-- The convolution of two signals: each sample of the first starts a scaled copy of the second. -/
def convolve [Mul α] : List α → List α → List α
  | [], _ => []
  | x :: xs, ys => mix (ys.map (x * ·)) (0 :: convolve xs ys)

/-- The mean over the last `width` samples, samples before the start counting as zero. -/
def movingMean [Div α] [NatCast α] (width : Nat) (xs : List α) : List α :=
  (List.range xs.length).map fun m => total ((xs.take (m + 1)).reverse.take width) / (width : α)

end Sums

end Signal

end QubitLab

namespace QubitLab.Signal

/-! ## First order recursive filters -/

structure Stage (α : Type) where
  num : α × α
  den : α × α

namespace Stage

variable {α : Type}

def inverse (s : Stage α) : Stage α := ⟨s.den, s.num⟩

variable [Add α] [Sub α] [Mul α] [Div α]

/-- Runs the filter on a signal; `carry` is what earlier samples add to the next output. -/
def runFrom (s : Stage α) (carry : α) : List α → List α
  | [] => []
  | x :: xs =>
    let y := s.num.1 / s.den.1 * x + carry
    y :: runFrom s (s.num.2 / s.den.1 * x - s.den.2 / s.den.1 * y) xs

def run [Zero α] (s : Stage α) (xs : List α) : List α := s.runFrom 0 xs

end Stage

end QubitLab.Signal
