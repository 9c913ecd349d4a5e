import QubitLab.Console.Command
import QubitLab.Distortion.Hardware
import QubitLab.Distortion.Kernel

/-!
# Commands on distortions

Kernels that undo the response of a line, and corrections in real time.
-/

namespace QubitLab.Console

open Distortion Signal

/-! ## Kernels -/

def sampleCount (length rate : Value) : Attempt Int := do (← (← numberArg length).mul (← numberArg rate)).truncate

/-- The kernel of a response; an empty one has no first column. -/
def kernelValue (c : List Float) : Attempt (List Float) :=
  if c.isEmpty then fail .index else orFail .linearAlgebra (kernelOf? c)

def bounceKernelOf (amp time length rate : Value) : Attempt (List Float) := do
  let n ← sampleCount length rate
  let amp ← floatArg amp
  let time ← floatArg time
  let rate ← floatArg rate
  let ks ← if amp.abs > 0 then do
      discard (divisor rate)
      kernelValue ((sampleTimes n.toNat rate).map (impulse (bounceStep amp time rate) (1 / rate)))
    else if n < 0 then fail .value else if n = 0 then fail .index else pure (unitImpulse n.toNat)
  return normalised ks

def kernelCommands : List Command := [
  define "kf.kernel_biastee" "t_kernel* tau" fun a => do
    let tau ← divisor (← floatArg (a "tau"))
    match ← seriesArg .member (a "t_kernel") with
    | [] => fail .index
    | _ :: rest => return seriesValue (1 :: rest.map fun _ => 1 / tau),
  define "kf.filter_matrix_from_htilde" "htilde* t?" fun a => do
    let c ← seriesArg .sort (a "htilde")
    let n ← if (a "t").isNull then .ok (c.length : Int) else intArg (a "t")
    if n ≤ 0 then return .real 0
    if c.length < n then fail .index
    return rowsValue n.toNat (filterMatrix (c.take n.toNat)),
  define "kf.kernel_from_filter_matrix" "A*" fun a => do
    let t ← floatTensor (a "A")
    match t.shape with
    | [n, m] =>
      if n ≠ m then fail .linearAlgebra
      if n = 0 then fail .index
      return seriesValue (← orFail .linearAlgebra ((rowsOf t).bind (kernelOfMatrix? Matrix.larger)))
    | _ => fail .linearAlgebra,
  define "kf.bounce_kernel" "amp=0.02 time=4 length=601 sampling_rate=1" fun a => do
    return seriesValue (← bounceKernelOf (a "amp") (a "time") (a "length") (a "sampling_rate")),
  define "kf.decay_kernel" (signature "amp=@ tau=11000 length=2000 offset=1 sampling_rate=1" [.real (-1)]) fun a => do
    let amp ← floatArg (a "amp")
    let offset ← divisor (← floatArg (a "offset"))
    let r := amp / offset
    let height := r / (← divisor (r + 1))
    let tau := (amp + 1) * (← floatArg (a "tau"))
    let n ← sampleCount (a "length") (a "sampling_rate")
    let rate ← floatArg (a "sampling_rate")
    return seriesValue (stepDifferences ((sampleTimes n.toNat rate).map fun t => (1 - height * Float.exp (-t / tau)) / offset)),
  define "kf.poly_kernel" "coeffs length=601 sampling_rate=1" fun a => do
    let n ← sampleCount (a "length") (a "sampling_rate")
    let cs ← floatTensor (← (a "coeffs").toArray)
    return seriesValue (stepDifferences ((sampleTimes n.toNat (← floatArg (a "sampling_rate"))).map (polynomial cs.data.toList))),
  define "kv.poly_kernel" "coeffs length=601" fun a => do
    let n ← orFail .value (Decimal.ceil? (← floatArg (a "length")))
    let cs ← floatTensor (← (a "coeffs").toArray)
    return seriesValue (stepDifferences ((sampleTimes n.toNat 1).map (polynomial cs.data.toList)))]

/-! ## Corrections -/

def pathsArg (v : Value) : Attempt Nat := do
  let n ← intArg v
  if n < 0 then fail .value else return n.toNat

mutual

def roundCoefficients (shift : Value) : Value → Attempt Value
  | .record fs => do return .record (← roundFields fs)
  | .list xs => do return .list (← roundItems xs)
  | v => do
    let x ← floatArg v
    match shift with
    | .null => return .real (roundCoefficient x)
    | .int s => if s < -18 then fail .value else return .real (roundCoefficientAt (Float.ofInt s) x)
    | s => return .real (roundCoefficientAt (← floatArg s) x)

def roundItems : List Value → Attempt (List Value)
  | [] => .ok []
  | v :: r => do
    let w ← roundCoefficients .null v
    let ws ← roundItems r
    return w :: ws

def roundFields : List (String × Value) → Attempt (List (String × Value))
  | [] => .ok []
  | (k, v) :: r => do
    let w ← roundCoefficients .null v
    let ws ← roundFields r
    return (k, w) :: ws

end

def roundingOf (v : Value) : Float → Float := if v.truth then roundCoefficient else id

def bounceSeries (a : String → Value) (r : Except BounceError (List Number)) : Attempt (List Float) := do
  let limit? := (Number.ofValue? (a "bufsize")).bind fun
    | .int n => some (n - 8)
    | .real _ => none
  let nanoseconds := Decimal.fixed 2 ((← floatArg (a "delay")) * 1e9)
  return (← r.mapError (BounceError.fault nanoseconds (a "amp").display limit?)).map Number.toFloatInf

def correctionCommands : List Command := [
  define "kz.bias_tee_correction" "ysig* tau sampling_rate=1 inverse-" fun a => do
    let k ← divisor (2 * (← floatArg (a "tau")) * (← floatArg (a "sampling_rate")))
    filtered (biasTee k) (a "inverse") (a "ysig"),
  define "kz.exponential_decay_correction" "ysig* tau amp sampling_rate=1 inverse-" fun a => do
    let amp ← floatArg (a "amp")
    let rate ← rateOf (a "sampling_rate") (a "tau") amp
    filtered (decay amp rate) (a "inverse") (a "ysig"),
  define "kz.bounce_correction" "ysig* tau amp sampling_rate=1 inverse-" fun a => do
    let length := (← (Number.int 8).mul (← numberArg (a "tau"))).toValue
    let kernel ← bounceKernelOf (a "amp") (a "tau") length (a "sampling_rate")
    if (a "inverse").truth then failWith .sort "exceptions must derive from BaseException"
    let xs ← seriesArg .sort (a "ysig")
    if xs.isEmpty then fail .value
    return seriesValue ((convolve xs kernel).take xs.length),
  define "kz.sigdelay" "sig* d" fun a => do
    let xs ← seriesArg .member (a "sig")
    return seriesValue (← orFail .value (delayed? (← intArg (a "d")) xs)),
  define "kz.coef_round" "value force_bshift?" fun a =>
    roundCoefficients (a "force_bshift") (a "value"),
  define "kz.multipath_bias_tee" "sig* k paths" fun a => do
    let paths ← pathsArg (a "paths")
    let xs ← seriesArg .member (a "sig")
    if paths = 0 then fail .zeroDivision
    let k ← divisor (← floatArg (a "k"))
    return seriesValue (← orFail .value (blockBiasTee? k paths xs)),
  define "kz.multipath_filter" "sig* alpha k paths" fun a => do
    let paths ← pathsArg (a "paths")
    let xs ← seriesArg .member (a "sig")
    if paths = 0 then fail .zeroDivision
    return seriesValue (averaged (← floatArg (a "alpha")) (← floatArg (a "k")) paths xs),
  define "kz.multipath_filter2" "sig* alpha k paths ppl hw_rounding+" fun a => do
    return seriesValue (← pipelinedOf (roundingOf (a "hw_rounding")) (← floatArg (a "alpha")) (← floatArg (a "k"))
      (a "paths") (a "ppl") (a "sig")),
  define "kz.multipath_filter3" "sig* alpha k paths ppl hw_rounding+" fun a => do
    return seriesValue (← unrolledOf (roundingOf (a "hw_rounding")) (← floatArg (a "alpha")) (← floatArg (a "k"))
      (a "paths") (a "ppl") (a "sig")),
  define "kz.first_order_bounce_corr" "sig* delay amp awg_sample_rate scope_sample_rate? bufsize=256 sim_hw_delay-"
      fun a => do
    let rate ← numberArg (a "awg_sample_rate")
    let scope ← if (a "scope_sample_rate").isNull then .ok rate else numberArg (a "scope_sample_rate")
    let b : Bounce Number := ⟨← numberArg (a "delay"), ← numberArg (a "amp"), rate, scope, ← numberArg (a "bufsize")⟩
    let corrected := fun xs => bounceSeries a (b.correct (fun x => .real (roundCoefficientAt 0 x.toFloatInf)) xs)
    -- What is wrong with the bounce comes before what is wrong with the signal.
    discard (corrected [])
    let ys ← corrected ((← seriesArg .sort (a "sig")).map .real)
    if (a "sim_hw_delay").truth then
      let x := 72 / (← divisor (← rate.div scope))
      if x.isNaN then fail .value
      let d ← orFail .overflow (Decimal.nearest? x)
      return seriesValue (← orFail .value (delayed? d ys))
    else return seriesValue ys,
  define "kz.first_order_bounce_kern" "delay amp sampling_rate" fun a => do
    let kernel := bounceKernel (← numberArg (a "sampling_rate")) (← numberArg (a "delay")) (← numberArg (a "amp"))
    return seriesValue (← bounceSeries a kernel)]
where
  filtered (s : Stage Float) (inverse signal : Value) : Attempt Value := do
    return seriesValue (← orFail .value (correct? s inverse.truth (← seriesArg .value signal)))
  rateOf (sampling tau : Value) (amp : Float) : Attempt Float := do
    return decayRate (← divisor ((← floatArg sampling) * (← floatArg tau) * (1 + amp)))
  pipelinedOf (round : Float → Float) (rate k : Float) (paths ppl signal : Value) : Attempt (List Float) := do
    let paths ← pathsArg paths
    let stages ← pathsArg ppl
    let xs ← seriesArg .member signal
    if paths = 0 || stages = 0 then fail .zeroDivision
    if xs.isEmpty then fail .member
    return pipelined round rate k paths stages xs
  unrolledOf (round : Float → Float) (rate k : Float) (paths ppl signal : Value) : Attempt (List Float) := do
    let paths ← intArg paths
    let stages ← intArg ppl
    if stages * paths < 1 then fail .value
    let xs ← seriesArg .value signal
    return unrolled round rate k paths.toNat stages.toNat xs

def distortionCommands : List Command := kernelCommands ++ correctionCommands

end QubitLab.Console
