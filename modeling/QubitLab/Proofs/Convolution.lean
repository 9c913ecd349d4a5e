import Mathlib.Data.List.GetD
import Mathlib.RingTheory.PowerSeries.Basic
import QubitLab.Proofs.PackedSamples
import QubitLab.Distortion.Hardware

/-!
# Convolutions

A signal is the row of coefficients of a power series (`series`), and the convolution of two signals is the product of
their series (`series_convolve`). The shift register of the correction of a bounce gives each sample back after as many
steps as it has places (`addBounce_ones`). `correct_eq_convolve`: so the correction is the convolution of the signal with
the response of the bounce, as far as the signal goes.
-/

namespace QubitLab.Signal

open PowerSeries

variable {F : Type} [CommRing F]

/-- The power series that has the samples of a signal as its coefficients. -/
noncomputable def series (xs : List F) : F⟦X⟧ := PowerSeries.mk fun n => xs.getD n 0

@[simp]
theorem coeff_series (xs : List F) (n : Nat) : coeff n (series xs) = xs.getD n 0 := coeff_mk n _

theorem series_nil : series ([] : List F) = 0 := by
  ext n
  simp

theorem series_cons (x : F) (xs : List F) : series (x :: xs) = C x + X * series xs := by
  ext n
  cases n with
  | zero => simp
  | succ n => simp [coeff_succ_X_mul]

theorem series_mix (xs ys : List F) : series (mix xs ys) = series xs + series ys := by
  induction xs generalizing ys with
  | nil => simp [mix, series_nil]
  | cons x xs ih =>
    cases ys with
    | nil => simp [mix, series_nil]
    | cons y ys =>
      rw [mix, series_cons, series_cons, series_cons, ih, map_add]
      ring

theorem series_map_mul (x : F) (ys : List F) : series (ys.map (x * ·)) = C x * series ys := by
  ext n
  rw [coeff_C_mul, coeff_series, coeff_series, List.getD_eq_getElem?_getD, List.getD_eq_getElem?_getD, List.getElem?_map]
  cases ys[n]? <;> simp

theorem series_convolve (xs ys : List F) : series (convolve xs ys) = series xs * series ys := by
  induction xs with
  | nil => rw [convolve, series_nil, zero_mul]
  | cons x xs ih => rw [convolve, series_mix, series_map_mul, series_cons, series_cons, ih, map_zero]; ring

theorem series_append (xs ys : List F) : series (xs ++ ys) = series xs + X ^ xs.length * series ys := by
  induction xs with
  | nil => simp [series_nil]
  | cons x xs ih => rw [List.cons_append, series_cons, ih, series_cons, List.length_cons, pow_succ']; ring

theorem series_replicate_append (k : Nat) (xs : List F) : series (List.replicate k 0 ++ xs) = X ^ k * series xs := by
  have hzero : series (List.replicate k (0 : F)) = 0 := by
    ext n
    simp
  rw [series_append, hzero, zero_add, List.length_replicate]

omit [CommRing F] in
theorem length_mix [Zero F] [Add F] (xs ys : List F) : (mix xs ys).length = max xs.length ys.length := by
  induction xs generalizing ys with
  | nil => simp [mix]
  | cons x xs ih => cases ys <;> simp [mix, ih, Nat.add_max_add_right]

theorem length_le_length_convolve (xs ys : List F) : xs.length ≤ (convolve xs ys).length := by
  induction xs with
  | nil => exact Nat.zero_le _
  | cons x xs ih =>
    rw [convolve, length_mix, List.length_cons, List.length_cons]
    omega

/-- The beginning of a convolution is known by its coefficients. -/
theorem take_convolve_eq {xs ys zs : List F} (hlen : zs.length = xs.length)
    (h : ∀ n < xs.length, coeff n (series xs * series ys) = zs.getD n 0) : (convolve xs ys).take xs.length = zs := by
  have hle := length_le_length_convolve xs ys
  apply List.ext_getElem (by simp [hlen, hle])
  intro n hn hn'
  have hc := h n (hlen ▸ hn')
  rw [← series_convolve, coeff_series, List.getD_eq_getElem _ _ (by omega), List.getD_eq_getElem _ _ hn'] at hc
  rw [List.getElem_take, hc]

end QubitLab.Signal

namespace QubitLab.Distortion

open Signal PowerSeries

theorem wholeOf_intCast (n : ℤ) : wholeOf (n : ℚ) = .ok n := by rw [wholeOf, truncate?_intCast]

theorem samplesWithin_eq (rate delay : ℚ) : samplesWithin rate delay = .ok (nearestWhole (rate * delay)) := by
  rw [samplesWithin, round_zero, wholeOf_intCast]

/-- A register that moves once per sample takes every sample once. -/
theorem ticks_one (n : Nat) (m : ℤ) : ticks (1 : ℚ) n m m = .ok (List.replicate n 1) := by
  induction n generalizing m with
  | zero => rfl
  | succ n ih =>
    have hnext : (m : ℚ) + 1 = ((m + 1 : ℤ) : ℚ) := by push_cast; rfl
    have hstep : (m + 1 - m).toNat = 1 := by omega
    rw [ticks, hnext, wholeOf_intCast]
    simp only [bind, Except.bind, hstep, one_ne_zero, if_false, ih, pure, Except.pure, List.replicate_succ]

/-- The register gives back what it holds, the oldest entry first, and then the samples that were put in. -/
theorem addBounce_ones (amp : ℚ) {register : List ℚ} (h : register ≠ []) (xs : List ℚ) :
    addBounce amp register ((List.replicate xs.length 1).zip xs) =
      .ok (xs.zipWith (fun x r => x + amp * r) (register.reverse ++ xs)) := by
  induction xs generalizing register with
  | nil => rfl
  | cons x xs ih =>
    obtain ⟨init, last, rfl⟩ : ∃ init last, register = init ++ [last] :=
      ⟨_, _, (List.dropLast_append_getLast h).symm⟩
    have hshift : shift 1 x (init ++ [last]) = x :: init := by simp [shift]
    have hroom : ¬ (init ++ [last]).length < 1 := by simp
    rw [List.length_cons, List.replicate_succ, List.zip_cons_cons, addBounce, if_neg hroom, hshift,
      ih (List.cons_ne_nil x init)]
    simp [bind, Except.bind, pure, Except.pure]

/-- A convolution with two samples adds to the signal a part of itself, later. -/
theorem take_convolve_pair (k : Nat) (a : ℚ) (xs : List ℚ) :
    (convolve xs (1 :: List.replicate k 0 ++ [a])).take xs.length =
      xs.zipWith (fun x r => x + a * r) (List.replicate (k + 1) 0 ++ xs) := by
  have hkernel : series (1 :: List.replicate k 0 ++ [a]) = 1 + C a * X ^ (k + 1) := by
    rw [List.cons_append, series_cons, series_replicate_append, series_cons, series_nil, map_one]
    ring
  apply take_convolve_eq (by simp)
  intro n hn
  have hlate : n < (List.replicate (k + 1) (0 : ℚ) ++ xs).length := by simp; omega
  rw [hkernel, mul_add, mul_one, mul_left_comm, mul_comm (series xs), ← series_replicate_append, map_add, coeff_C_mul,
    coeff_series, coeff_series, List.getD_eq_getElem _ _ hn, List.getD_eq_getElem _ _ hlate,
    List.getD_eq_getElem _ _ (by simp; omega), List.getElem_zipWith]

/-- **The correction of a bounce is the convolution** with its response, as far as the signal goes: for every signal, every
delay that comes to at least one sample and fits into the buffer, every amplitude between -1 and 1 and every way of
rounding it, where the scope samples at the rate of the generator. -/
theorem correct_eq_convolve (round : ℚ → ℚ) {delay amp rate size : ℚ} (hfirst : 1 ≤ nearestWhole (rate * delay))
    (hlast : nearestWhole (rate * delay) < size - 8) (hlow : -1 < amp) (hhigh : amp < 1) (xs : List ℚ) :
    ∃ kernel, bounceKernel rate delay (round amp) = .ok kernel ∧
      (Bounce.mk delay amp rate rate size).correct round xs = .ok ((convolve xs kernel).take xs.length) := by
  obtain ⟨k, hk⟩ : ∃ k : ℕ, nearestWhole (rate * delay) = k + 1 := ⟨(nearestWhole (rate * delay) - 1).toNat, by omega⟩
  have hrate : rate ≠ 0 := by
    rintro rfl
    rw [zero_mul, ← Int.cast_zero, nearestWhole_intCast] at hfirst
    omega
  have hdelay : (decide (1 ≤ nearestWhole (rate * delay)) &&
      Scalar.below (Scalar.ofInt (nearestWhole (rate * delay))) (size - Scalar.ofInt 8)) = true := by
    rw [Bool.and_eq_true, decide_eq_true_iff, below_iff]
    exact ⟨hfirst, by exact_mod_cast hlast⟩
  have hamp : (Scalar.below (Scalar.ofInt (-1)) amp && Scalar.below amp (Scalar.ofInt 1)) = true := by
    rw [Bool.and_eq_true, below_iff, below_iff]
    exact ⟨by exact_mod_cast hlow, by exact_mod_cast hhigh⟩
  have hscope : (Scalar.remainder? rate rate).isNone = false := by simp [Scalar.remainder?, hrate]
  have hticks : ticks (rate / rate) xs.length 0 0 = .ok (List.replicate xs.length 1) := by
    rw [div_self hrate]
    exact ticks_one xs.length 0
  have hcount : (nearestWhole (rate * delay)).toNat = k + 1 := by omega
  refine ⟨1 :: List.replicate k 0 ++ [round amp], ?_, ?_⟩
  · rw [bounceKernel, samplesWithin_eq]
    simp only [bind, Except.bind, not_lt.2 hfirst, if_false, pure, Except.pure, hcount, Nat.add_sub_cancel]
    exact congrArg (fun x => Except.ok (x :: List.replicate k 0 ++ [round amp])) Int.cast_one
  · have hadd := addBounce_ones (round amp) (List.replicate_succ_ne_nil (n := k) (a := (0 : ℚ))) xs
    rw [List.reverse_replicate, ← take_convolve_pair] at hadd
    rw [Bounce.correct, samplesWithin_eq]
    simp only [bind, Except.bind, hdelay, hamp, hscope, hticks, Bool.not_true, Bool.false_eq_true, if_false, hcount]
    exact hadd

/-- A delay of one sample and a half, rounded to the even number, and an amplitude cut to eighths. -/
theorem correct_eq_convolve_halves : (1 ≤ nearestWhole (2 * (3 / 4)) ∧ (nearestWhole (2 * (3 / 4)) : ℚ) < 12 - 8 ∧
    -1 < (3 / 10 : ℚ) ∧ (3 / 10 : ℚ) < 1) ∧
    ∃ kernel, bounceKernel 2 (3 / 4) ((⌊8 * (3 / 10 : ℚ)⌋ : ℚ) / 8) = .ok kernel ∧
      (Bounce.mk (3 / 4) (3 / 10) 2 2 12 : Bounce ℚ).correct (fun x => ⌊8 * x⌋ / 8) [1, 2, -1, 3] =
        .ok ((convolve [1, 2, -1, 3] kernel).take 4) := by
  have h : 1 ≤ nearestWhole (2 * (3 / 4)) ∧ (nearestWhole (2 * (3 / 4)) : ℚ) < 12 - 8 := by decide +kernel
  exact ⟨⟨h.1, h.2, by norm_num, by norm_num⟩,
    correct_eq_convolve (fun x => ⌊8 * x⌋ / 8) h.1 h.2 (by norm_num) (by norm_num) [1, 2, -1, 3]⟩

end QubitLab.Distortion
