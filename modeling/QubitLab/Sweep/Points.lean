import QubitLab.Value.Number

/-!
# Points on a line

Evenly spaced points, given by their number (`spaced`) or by their distance (`stepped`). With a number of
points the last one is the stop itself; with a distance the stop is never reached, so a caller who wants it
moves the stop by a hundredth of a step.
-/

namespace QubitLab.Sweep

def spaced (start stop : Float) (num : Nat) (endpoint : Bool := true) : Array Float :=
  let parts := if endpoint then num - 1 else num
  let delta := stop - start
  let step := delta / parts.toFloat
  let point (i : Nat) : Float :=
    if parts = 0 then i.toFloat * delta + start
    else if step == 0 then i.toFloat / parts.toFloat * delta + start
    else i.toFloat * step + start
  Array.ofFn fun (i : Fin num) =>
    if endpoint && num > 1 && i.val + 1 == num then stop else point i.val

def stepped (start stop step : Float) : Attempt (Array Float) := do
  if step == 0 then fail .zeroDivision
  let n := (stop - start) / step
  let count ← orFail .value (Decimal.ceil? n)
  let second := start + step
  let delta := second - start
  return Array.ofFn fun (i : Fin count.toNat) =>
    if i.val = 0 then start else if i.val = 1 then second else start + i.val.toFloat * delta

/-- The values that a ramp passes through, `step` apart, the target last. -/
def ramp (start stop rate interval : Number) : Attempt (List Value) := do
  let step ← rate.mul interval
  let distance ← stop.sub start
  let isInf := match rate with
    | .real x => x.isInf
    | .int _ => false
  if !isInf && Number.lt step distance.abs then
    let step ← step.toFloat
    let a ← start.toFloat
    let b ← stop.toFloat
    let step := if Number.lt stop start then -step else step
    let xs ← stepped (a + step) (b + step / 10) step
    return if xs.isEmpty then [stop.toValue] else xs.toList.map .real
  else return [stop.toValue]

end QubitLab.Sweep
