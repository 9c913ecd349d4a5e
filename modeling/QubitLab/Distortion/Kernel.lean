import QubitLab.Matrix.Elimination

/-!
# Precompensation kernels

How a line answers to a unit step at time zero, and the impulse response that belongs to it: the difference of the step
response at two times one unit apart.

A line with the impulse response `c` turns a signal into its convolution with `c`. The kernel of `c` is the signal
whose convolution with `c` is the unit impulse. `kernelOf` finds it sample by sample, `kernelOfMatrix?`
as the first column of the inverse of the filter matrix.
-/

namespace QubitLab.Distortion

/-! ## Step responses -/

def unitStep (t : Float) : Float := if t >= 0 then 1 else 0

def unitSquare (width start t : Float) : Float := unitStep (t - start) - unitStep (t - start - width)

def bounceStep (amp time rate t : Float) : Float :=
  (1 - amp) * unitStep t + amp * (if t + 1 / rate / 2 > time then 1 else 0) * unitStep t

def impulse (step : Float → Float) (width t : Float) : Float := step t - step (t - width)

end QubitLab.Distortion

namespace QubitLab.Distortion

open Signal

/-! ## Precompensation kernels -/

section Exact

variable {α : Type} [Zero α] [One α] [Add α] [Sub α] [Mul α] [Div α]

/-- The first `n + 1` samples of the kernel of a response with first sample `c0`, the last one in front. -/
def kernelReversed (c0 : α) (cs : List α) : Nat → List α
  | 0 => [1 / c0]
  | n + 1 =>
    let ks := kernelReversed c0 cs n
    (0 - dot cs ks) / c0 :: ks

/-- The kernel of a response, of the same length; none if the response starts with zero. -/
def kernelOf? [BEq α] : List α → Option (List α)
  | [] => none
  | c0 :: cs => if c0 == 0 then none else some (kernelReversed c0 cs cs.length).reverse

/-- The filter matrix of a response: the sum of the matrices that have a sample `k` of it on the `k`-th diagonal below the
middle one, and zeros elsewhere. -/
def filterMatrix (c : List α) : List (List α) :=
  (List.range c.length).map fun i => (List.range c.length).map fun j =>
    total ((List.range c.length).map fun k => if i = j + k then c.getD k 0 else 0)

def kernelOfMatrix? [BEq α] (prefer : α → α → Bool) (rows : List (List α)) : Option (List α) :=
  (Matrix.inverse? prefer rows).map (Matrix.column 0)

/-- The impulse response of sampled steps: the first sample, and then the differences of neighbours. -/
def stepDifferences (xs : List α) : List α := xs.take 1 ++ xs.tail.zipWith (· - ·) xs

def polynomial (coeffs : List α) (x : α) : α := coeffs.foldl (fun y c => y * x + c) 0

end Exact

def unitImpulse (n : Nat) : List Float := (List.range n).map fun i => if i = 0 then 1 else 0

def normalised (xs : List Float) : List Float :=
  let s := total xs
  xs.map (· / s)

def sampleTimes (n : Nat) (rate : Float) : List Float := (List.range n).map fun i => i.toFloat / rate

end QubitLab.Distortion
