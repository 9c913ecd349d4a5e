import QubitLab.Signal.Basic

/-!
# Statistics of double precision data

Sums are formed pairwise: up to 128 numbers in eight interleaved rows, more by halving. A number that is not a
number makes the largest and every percentile such.
-/

namespace QubitLab.Statistics

/-! ## Sums -/

/-- The sum of at most 128 numbers in eight interleaved rows, the rest behind. -/
def sumRows (xs : List Float) : Float :=
  let whole := xs.length / 8 * 8
  if whole = 0 then Signal.total xs
  else
    let row (j : Nat) : Float :=
      match (List.range (whole / 8)).filterMap fun i => xs[8 * i + j]? with
      | [] => 0
      | y :: ys => ys.foldl (· + ·) y
    let s := ((row 0 + row 1) + (row 2 + row 3)) + ((row 4 + row 5) + (row 6 + row 7))
    (xs.drop whole).foldl (· + ·) s

def sumHalves : Nat → List Float → Float
  | 0, xs => sumRows xs
  | depth + 1, xs =>
    if xs.length ≤ 128 then sumRows xs
    else
      let half := xs.length / 2 / 8 * 8
      sumHalves depth (xs.take half) + sumHalves depth (xs.drop half)

def sum (xs : List Float) : Float := sumHalves 40 xs

def mean (xs : List Float) : Float := sum xs / xs.length.toFloat

def variance (xs : List Float) : Float :=
  let m := mean xs
  mean (xs.map fun x => (x - m) * (x - m))

def deviation (xs : List Float) : Float := (variance xs).sqrt

/-! ## Order -/

def larger (x y : Float) : Float := if x.isNaN || y.isNaN then x + y else if x < y then y else x

def maximum? : List Float → Option Float
  | [] => none
  | x :: xs => some (xs.foldl larger x)

def sorted (xs : List Float) : List Float := xs.mergeSort fun a b => a ≤ b || b.isNaN

def between (a b t : Float) : Float := if t >= 0.5 then b - (b - a) * (1 - t) else a + (b - a) * t

def quantile (part : Float) (xs : List Float) : Float :=
  let n := xs.length
  if n = 0 || xs.any Float.isNaN then 0 / 0
  else
    let s := sorted xs
    let place := (n.toFloat - 1) * part
    let i := place.floor.toUInt64.toNat
    between (s.getD i 0) (s.getD (min (i + 1) (n - 1)) 0) (place - place.floor)

def percentile (percent : Float) (xs : List Float) : Float := quantile (percent / 100) xs

end QubitLab.Statistics
