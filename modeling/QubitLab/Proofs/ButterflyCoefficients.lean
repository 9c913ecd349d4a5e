import Mathlib.Tactic.LinearCombination
import QubitLab.Proofs.Elimination
import QubitLab.Readout.Butterfly

/-!
# Coefficients of butterfly experiments

The declarations of a prepared state add up to one, and so do the parts of the four pairs of outcomes (`exists_binning`).
The inverse of a matrix of two rows solves the two equations of the matrix (`inverse?_pair`). `solve?_explains`: so the
coefficients that are found give the parts of the pairs back (`Explains`), and they add up to one.
-/

namespace QubitLab.Readout

open List
open QubitLab.Matrix hiding solve?

variable {F : Type} [Field F]

/-- The coefficients of a prepared state account for its pairs of outcomes: the first outcome leaves a state behind,
which is then declared with the probabilities of the two prepared states. -/
structure Explains (zero one b : Binning F) (t : Transitions F) : Prop where
  p00 : b.p00 = zero.declared0 * t.e00 + one.declared0 * t.e01
  p01 : b.p01 = zero.declared1 * t.e00 + one.declared1 * t.e01
  p10 : b.p10 = zero.declared0 * t.e10 + one.declared0 * t.e11
  p11 : b.p11 = zero.declared1 * t.e10 + one.declared1 * t.e11
  total : t.e00 + t.e01 + t.e10 + t.e11 = 1

theorem explains_of_solutions {zero one b : Binning F} {t : Transitions F} (hzero : zero.declared0 + zero.declared1 = 1)
    (hone : one.declared0 + one.declared1 = 1) (hb : b.p00 + b.p01 + b.p10 + b.p11 = 1)
    (h0 : zero.declared0 * t.e00 + one.declared0 * t.e01 = b.p00 ∧ zero.declared1 * t.e00 + one.declared1 * t.e01 = b.p01)
    (h1 : zero.declared0 * t.e10 + one.declared0 * t.e11 = b.p10 ∧ zero.declared1 * t.e10 + one.declared1 * t.e11 = b.p11) :
    Explains zero one b t := by
  refine ⟨h0.1.symm, h0.2.symm, h1.1.symm, h1.2.symm, ?_⟩
  linear_combination h0.1 + h0.2 + h1.1 + h1.2 + hb - (t.e00 + t.e10) * hzero - (t.e01 + t.e11) * hone

/-! ## Shots -/

/-- A matrix of shots: there are some, each of two outcomes or more, and all outcomes are +1 or -1. -/
structure IsShots (Z : List (List F)) : Prop where
  nonempty : Z ≠ []
  columns : ∀ r ∈ Z, 2 ≤ r.length
  signs : ∀ r ∈ Z, ∀ s ∈ r, s = 1 ∨ s = -1

theorem exists_firstTwo {Z : List (List F)} (hcols : ∀ r ∈ Z, 2 ≤ r.length) (hsigns : ∀ r ∈ Z, ∀ s ∈ r, s = 1 ∨ s = -1) :
    ∃ shots, Z.mapM firstTwo = some shots ∧ shots.length = Z.length ∧
      ∀ s ∈ shots, (s.1 = 1 ∨ s.1 = -1) ∧ (s.2 = 1 ∨ s.2 = -1) := by
  induction Z with
  | nil => exact ⟨[], rfl, rfl, by simp⟩
  | cons r Z ih =>
    rw [forall_mem_cons] at hcols hsigns
    obtain ⟨shots, hshots, hlen, hpairs⟩ := ih hcols.2 hsigns.2
    rcases r with _ | ⟨s, _ | ⟨t, r⟩⟩
    · simp at hcols
    · simp at hcols
    · refine ⟨(s, t) :: shots, by rw [mapM_cons, hshots]; rfl, by rw [length_cons, length_cons, hlen], ?_⟩
      exact forall_mem_cons.2 ⟨⟨hsigns.1 s (by simp), hsigns.1 t (by simp)⟩, hpairs⟩

section

variable [CharZero F] [DecidableEq F]

theorem countP_pairs {shots : List (F × F)} (h : ∀ s ∈ shots, (s.1 = 1 ∨ s.1 = -1) ∧ (s.2 = 1 ∨ s.2 = -1)) :
    shots.countP (fun s => s.1 == 1 && s.2 == 1) + shots.countP (fun s => s.1 == 1 && s.2 == -1) +
      shots.countP (fun s => s.1 == -1 && s.2 == 1) + shots.countP (fun s => s.1 == -1 && s.2 == -1) =
      shots.length := by
  have hne : (1 : F) ≠ -1 := by norm_num
  induction shots with
  | nil => rfl
  | cons s shots ih =>
    obtain ⟨⟨h1, h2⟩, h⟩ := forall_mem_cons.1 h
    have := ih h
    simp only [countP_cons, length_cons]
    rcases h1 with h1 | h1 <;> rcases h2 with h2 | h2 <;> simp [h1, h2, hne, hne.symm] <;> omega

theorem exists_binning {Z : List (List F)} (h : IsShots Z) :
    ∃ b : Binning F, binRows? (· == 1) (· == -1) Z = some b ∧ b.declared0 + b.declared1 = 1 ∧
      b.p00 + b.p01 + b.p10 + b.p11 = 1 := by
  obtain ⟨shots, hshots, hlen, hpairs⟩ := exists_firstTwo h.columns h.signs
  refine ⟨binned (· == 1) (· == -1) shots, by rw [binRows?, hshots]; rfl, add_sub_cancel _ _, ?_⟩
  have hne : (shots.length : F) ≠ 0 := by
    rw [hlen, Nat.cast_ne_zero]
    exact fun h0 => h.nonempty (length_eq_zero_iff.1 h0)
  simp only [binned, part]
  rw [← add_div, ← add_div, ← add_div, div_eq_one_iff_eq hne]
  exact_mod_cast countP_pairs hpairs

end

/-! ## Two equations -/

theorem regular_pair {a b c d : F} (hdet : a * d - b * c ≠ 0) : Regular 2 [[a, b], [c, d]] := by
  intro v hv hzero
  obtain ⟨x, y, rfl⟩ := length_eq_two.1 hv
  have h1 : a * x + b * y = 0 := by simpa [dot_cons, dot_nil_right] using hzero [a, b] (by simp)
  have h2 : c * x + d * y = 0 := by simpa [dot_cons, dot_nil_right] using hzero [c, d] (by simp)
  have hx : (a * d - b * c) * x = 0 := by linear_combination d * h1 - b * h2
  have hy : (a * d - b * c) * y = 0 := by linear_combination a * h2 - c * h1
  simp [(mul_eq_zero.1 hx).resolve_left hdet, (mul_eq_zero.1 hy).resolve_left hdet]

variable [DecidableEq F] {prefer : F → F → Bool}

/-- The inverse of a matrix of two rows solves the two equations. -/
theorem inverse?_pair (hprefer : ∀ a ≠ 0, prefer a 0 = true ∧ prefer 0 a = false) {a b c d : F}
    (hdet : a * d - b * c ≠ 0) : ∃ B, inverse? prefer [[a, b], [c, d]] = some B ∧ ∀ x y,
      a * (applyPair B x y).1 + b * (applyPair B x y).2 = x ∧ c * (applyPair B x y).1 + d * (applyPair B x y).2 = y := by
  obtain ⟨B, hB, hcolumn⟩ := inverse?_eq_some hprefer (A := [[a, b], [c, d]]) (by simp) (regular_pair hdet)
  obtain ⟨r, s, rfl⟩ := length_eq_two.1 (show B.length = 2 by simpa [column] using (hcolumn 0 (by simp)).1)
  have h0 : a * r.getD 0 0 + b * s.getD 0 0 = 1 ∧ c * r.getD 0 0 + d * s.getD 0 0 = 0 := by
    simpa [apply, column, unitRow, dot_cons, dot_nil_right, range_succ] using (hcolumn 0 (by simp)).2
  have h1 : a * r.getD 1 0 + b * s.getD 1 0 = 0 ∧ c * r.getD 1 0 + d * s.getD 1 0 = 1 := by
    simpa [apply, column, unitRow, dot_cons, dot_nil_right, range_succ] using (hcolumn 1 (by simp)).2
  refine ⟨_, hB, fun x y => ?_⟩
  have hdot (r : List F) : Signal.dot r [x, y] = r.getD 0 0 * x + r.getD 1 0 * y := by
    simp [dot_eq_sum, Finset.sum_range_succ]
  have happly : applyPair [r, s] x y = (Signal.dot r [x, y], Signal.dot s [x, y]) := rfl
  rw [happly, hdot, hdot]
  constructor
  · linear_combination x * h0.1 + y * h1.1
  · linear_combination x * h0.2 + y * h1.2

/-- **Butterfly coefficients**: the outcomes of shots of two prepared states can be counted, and if the declarations
of the two states form an invertible matrix there are coefficients. They account for all pairs of outcomes, and those of
each state add up to one. -/
theorem solve?_explains [CharZero F] (hprefer : ∀ a ≠ 0, prefer a 0 = true ∧ prefer 0 a = false) {Z0 Z1 : List (List F)}
    (h0 : IsShots Z0) (h1 : IsShots Z1) :
    ∃ b0 b1 : Binning F, binRows? (· == 1) (· == -1) Z0 = some b0 ∧ binRows? (· == 1) (· == -1) Z1 = some b1 ∧
      (b0.declared0 * b1.declared1 - b1.declared0 * b0.declared1 ≠ 0 →
        ∃ t0 t1, solve? prefer b0 b1 = some (t0, t1) ∧ Explains b0 b1 b0 t0 ∧ Explains b0 b1 b1 t1) := by
  obtain ⟨b0, hb0, hd0, hp0⟩ := exists_binning h0
  obtain ⟨b1, hb1, hd1, hp1⟩ := exists_binning h1
  refine ⟨b0, b1, hb0, hb1, fun hdet => ?_⟩
  have hdet' : b1.declared0 * b0.declared1 - b0.declared0 * b1.declared1 ≠ 0 := by rwa [← neg_sub, neg_ne_zero]
  obtain ⟨B, hB, hsolved⟩ := inverse?_pair hprefer hdet
  obtain ⟨B', hB', hsolved'⟩ := inverse?_pair hprefer hdet'
  refine ⟨_, _, by rw [solve?, hB, hB']; rfl, explains_of_solutions hd0 hd1 hp0 (hsolved _ _) (hsolved _ _), ?_⟩
  -- the second matrix has its columns the other way round, and its solutions are unpacked the other way round too
  refine explains_of_solutions hd0 hd1 hp1 ?_ ?_
  · rw [add_comm, add_comm (b0.declared1 * _)]
    exact hsolved' _ _
  · rw [add_comm, add_comm (b0.declared1 * _)]
    exact hsolved' _ _

/-- State 0 is declared right in three shots of four, and state 1 in two of three. -/
theorem solve?_explains_shots : ∃ (b0 b1 : Binning ℚ) (t0 t1 : Transitions ℚ),
    binRows? (· == 1) (· == -1) [[1, 1], [1, 1], [1, -1], [-1, 1]] = some b0 ∧
      binRows? (· == 1) (· == -1) [[-1, -1], [-1, 1], [1, -1]] = some b1 ∧
      b0.declared0 * b1.declared1 - b1.declared0 * b0.declared1 ≠ 0 ∧
      solve? (fun a b => |b| < |a|) b0 b1 = some (t0, t1) ∧ Explains b0 b1 b0 t0 ∧ Explains b0 b1 b1 t1 := by
  have h0 : IsShots [[1, 1], [1, 1], [1, -1], [-1, (1 : ℚ)]] := ⟨by simp, by simp, by simp⟩
  have h1 : IsShots [[-1, -1], [-1, 1], [1, (-1 : ℚ)]] := ⟨by simp, by simp, by simp⟩
  obtain ⟨b0, b1, hb0, hb1, h⟩ := @solve?_explains ℚ _ _ (fun a b => |b| < |a|) _ (by simp) _ _ h0 h1
  have hdet : b0.declared0 * b1.declared1 - b1.declared0 * b0.declared1 ≠ 0 := by
    obtain rfl := Option.some.inj hb0
    obtain rfl := Option.some.inj hb1
    decide +kernel
  obtain ⟨t0, t1, hsolve, hexplain⟩ := h hdet
  exact ⟨b0, b1, t0, t1, hb0, hb1, hdet, hsolve, hexplain⟩

end QubitLab.Readout
