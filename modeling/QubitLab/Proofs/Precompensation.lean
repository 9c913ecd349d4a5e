import Mathlib.Algebra.BigOperators.NatAntidiagonal
import Mathlib.RingTheory.PowerSeries.Inverse
import QubitLab.Proofs.Convolution
import QubitLab.Proofs.Elimination
import QubitLab.Distortion.Kernel

/-!
# Precompensation kernels

The filter matrix of a response takes a signal to the first samples of its convolution with the response
(`apply_filterMatrix`). `convolve_kernel`: the kernel that is found sample by sample has the unit impulse as its
convolution with the response, and it is the first column of the inverse of the filter matrix, whether this matrix is
summed up from its diagonals or filled in from its first column.
-/

namespace QubitLab.Distortion

open Signal QubitLab.Matrix Finset PowerSeries

variable {F : Type} [Field F]

/-! ## Filter matrices -/

/-- The matrix that is constant along its diagonals, by its first column and its first row. -/
def toeplitz (column row : List F) : List (List F) :=
  (List.range column.length).map fun i => (List.range row.length).map fun j =>
    if j ≤ i then column.getD (i - j) 0 else row.getD (j - i) 0

theorem filterMatrix_eq_toeplitz (c : List F) : filterMatrix c = toeplitz c (List.replicate c.length 0) := by
  rw [filterMatrix, toeplitz, List.length_replicate]
  refine List.map_congr_left fun i hi => List.map_congr_left fun j _ => ?_
  rw [List.mem_range] at hi
  rw [Signal.total_eq_sum]
  change ∑ k ∈ range c.length, (if i = j + k then c.getD k 0 else 0) = _
  split
  next hij =>
    rw [sum_eq_single_of_mem (i - j) (mem_range.2 (by omega)) fun k _ hk => if_neg (by omega), if_pos (by omega)]
  next hij =>
    rw [sum_eq_zero fun k _ => if_neg (by omega)]
    simp

theorem length_filterMatrix (c : List F) : (filterMatrix c).length = c.length := by simp [filterMatrix]

/-- The matrix takes a signal to the first coefficients of a product of power series. -/
theorem apply_filterMatrix (c v : List F) :
    apply (filterMatrix c) v = (List.range c.length).map fun i => coeff i (series c * series v) := by
  rw [filterMatrix_eq_toeplitz, apply, toeplitz, List.map_map, List.length_replicate]
  refine List.map_congr_left fun i hi => ?_
  rw [List.mem_range] at hi
  have hentry (j : Nat) (hj : j < c.length) : ((List.range c.length).map fun j =>
      if j ≤ i then c.getD (i - j) 0 else (List.replicate c.length 0).getD (j - i) 0).getD j 0 =
      if j ≤ i then c.getD (i - j) 0 else 0 := by
    simp [hj]
  rw [Function.comp, dot_comm, dot_eq_sum, mul_comm (series c), coeff_mul]
  simp only [coeff_series]
  rw [Nat.sum_antidiagonal_eq_sum_range_succ fun a b => v.getD a 0 * c.getD b 0, List.length_map, List.length_range]
  symm
  refine sum_subset_zero_on_sdiff (range_subset_range.2 hi) (fun j hj => ?_) fun j hj => ?_
  · rw [mem_sdiff, mem_range, mem_range] at hj
    rw [hentry j hj.1, if_neg (by omega), mul_zero]
  · rw [mem_range] at hj
    rw [hentry j (by omega), if_pos (by omega)]

/-- A response that starts at once tells signals apart. -/
theorem apply_filterMatrix_inj {c0 : F} (h0 : c0 ≠ 0) {cs v w : List F} (hv : v.length = (c0 :: cs).length)
    (hw : w.length = (c0 :: cs).length) (h : apply (filterMatrix (c0 :: cs)) v = apply (filterMatrix (c0 :: cs)) w) :
    v = w := by
  rw [apply_filterMatrix, apply_filterMatrix, List.map_inj_left] at h
  have hunit : IsUnit (series (c0 :: cs)) := by
    rw [isUnit_iff_constantCoeff, series_cons]
    simpa using h0
  have hdvd : X ^ (c0 :: cs).length ∣ series (c0 :: cs) * (series v - series w) :=
    X_pow_dvd_iff.2 fun i hi => by rw [mul_sub, map_sub, h i (List.mem_range.2 hi), sub_self]
  rw [hunit.dvd_mul_left, X_pow_dvd_iff] at hdvd
  refine List.ext_getElem (hv.trans hw.symm) fun i hi hi' => ?_
  have hi0 := hdvd i (hv ▸ hi)
  rwa [map_sub, sub_eq_zero, coeff_series, coeff_series, List.getD_eq_getElem _ _ hi, List.getD_eq_getElem _ _ hi'] at hi0

theorem regular_filterMatrix {c0 : F} (h0 : c0 ≠ 0) (cs : List F) : Regular (c0 :: cs).length (filterMatrix (c0 :: cs)) := by
  intro v hv hzero x hx
  have hnull : apply (filterMatrix (c0 :: cs)) v = apply (filterMatrix (c0 :: cs)) (List.replicate (c0 :: cs).length 0) :=
    List.map_congr_left fun r hr => by rw [hzero r hr, dot_replicate_zero]
  rw [apply_filterMatrix_inj h0 hv List.length_replicate hnull] at hx
  exact List.eq_of_mem_replicate hx

/-! ## Kernels -/

theorem length_kernelReversed (c0 : F) (cs : List F) (n : Nat) : (kernelReversed c0 cs n).length = n + 1 := by
  induction n with
  | zero => rfl
  | succ n ih => rw [kernelReversed, List.length_cons, ih]

/-- The next sample of the kernel is the one that takes the next coefficient to zero. -/
theorem coeff_kernel {c0 : F} (h0 : c0 ≠ 0) (cs : List F) (n : Nat) : ∀ m ≤ n,
    coeff m (series (c0 :: cs) * series (kernelReversed c0 cs n).reverse) = if m = 0 then 1 else 0 := by
  induction n with
  | zero =>
    intro m hm
    cases Nat.le_zero.1 hm
    rw [kernelReversed, List.reverse_singleton, series_cons, series_cons]
    simp [h0]
  | succ n ih =>
    intro m hm
    have hlen := length_kernelReversed c0 cs n
    have hcs : coeff n (series cs * series (kernelReversed c0 cs n).reverse) = dot cs (kernelReversed c0 cs n) := by
      rw [dot_eq_sum, coeff_mul, Nat.sum_antidiagonal_eq_sum_range_succ fun a b =>
        coeff a (series cs) * coeff b (series (kernelReversed c0 cs n).reverse), hlen]
      refine sum_congr rfl fun k hk => ?_
      rw [mem_range] at hk
      rw [coeff_series, coeff_series, List.getD_reverse _ (by omega), hlen, show n + 1 - 1 - (n - k) = k by omega]
    rw [kernelReversed]
    simp only [List.reverse_cons]
    rw [series_append, mul_add, map_add, List.length_reverse, hlen, mul_left_comm, coeff_X_pow_mul']
    rcases Nat.lt_succ_iff_lt_or_eq.1 (Nat.lt_succ_of_le hm) with hm | rfl
    · rw [ih m (by omega), if_neg (not_le.2 hm), add_zero]
    · have hnone : (kernelReversed c0 cs n).reverse.getD (n + 1) 0 = 0 := by
        rw [List.getD_eq_default _ _ (by simp [hlen])]
      rw [if_pos le_rfl, Nat.sub_self, series_cons, add_mul, map_add, coeff_C_mul, coeff_series, hnone, mul_assoc,
        coeff_succ_X_mul, hcs, series_cons, series_nil, if_neg (Nat.succ_ne_zero n)]
      simp [mul_div_cancel₀ _ h0]

/-- **The kernel of a response** undoes it, and it is the same one whether it is found sample by sample or read off the
inverse of either form of the filter matrix. -/
theorem convolve_kernel {prefer : F → F → Bool} [DecidableEq F]
    (hprefer : ∀ a ≠ 0, prefer a 0 = true ∧ prefer 0 a = false) {c0 : F} (h0 : c0 ≠ 0) (cs : List F) :
    ∃ ks, kernelOf? (c0 :: cs) = some ks ∧
      (convolve (c0 :: cs) ks).take (c0 :: cs).length = unitRow (c0 :: cs).length 0 ∧
      kernelOfMatrix? prefer (toeplitz (c0 :: cs) (List.replicate (c0 :: cs).length 0)) = some ks ∧
      kernelOfMatrix? prefer (filterMatrix (c0 :: cs)) = some ks := by
  have hcoeff : ∀ i < (c0 :: cs).length, coeff i (series (c0 :: cs) * series (kernelReversed c0 cs cs.length).reverse) =
      if i = 0 then 1 else 0 := fun i hi => coeff_kernel h0 cs cs.length i (Nat.lt_succ_iff.1 hi)
  have hunit : apply (filterMatrix (c0 :: cs)) (kernelReversed c0 cs cs.length).reverse = unitRow (c0 :: cs).length 0 := by
    rw [apply_filterMatrix]
    exact List.map_congr_left fun i hi => hcoeff i (List.mem_range.1 hi)
  have hcolumn : kernelOfMatrix? prefer (filterMatrix (c0 :: cs)) = some (kernelReversed c0 cs cs.length).reverse := by
    obtain ⟨B, hB, hinv⟩ := inverse?_eq_some (A := filterMatrix (c0 :: cs)) hprefer (by simp [filterMatrix])
      (by rw [length_filterMatrix]; exact regular_filterMatrix h0 cs)
    rw [length_filterMatrix] at hinv
    obtain ⟨hlen, happly⟩ := hinv 0 (Nat.succ_pos _)
    rw [kernelOfMatrix?, hB, Option.map_some,
      apply_filterMatrix_inj h0 hlen (by simp [length_kernelReversed]) (happly.trans hunit.symm)]
  refine ⟨_, by simp [kernelOf?, h0], ?_, by rw [← filterMatrix_eq_toeplitz, hcolumn], hcolumn⟩
  refine take_convolve_eq (by simp [unitRow]) fun i hi => ?_
  rw [hcoeff i hi, unitRow, List.getD_eq_getElem _ _ (by simpa using hi), List.getElem_map, List.getElem_range]

/-- A response that overshoots; the larger number is the better pivot. -/
theorem convolve_kernel_overshoot : (2 : ℚ) ≠ 0 ∧ ∃ ks, kernelOf? [2, 1, (-3 : ℚ)] = some ks ∧
    (convolve [2, 1, -3] ks).take 3 = unitRow 3 0 ∧
    kernelOfMatrix? (fun a b => decide (|b| < |a|)) (toeplitz [2, 1, -3] (List.replicate 3 0)) = some ks ∧
    kernelOfMatrix? (fun a b => decide (|b| < |a|)) (filterMatrix [2, 1, -3]) = some ks :=
  ⟨by norm_num, convolve_kernel (fun a ha => by simpa using ha) (by norm_num) [1, -3]⟩

end QubitLab.Distortion
