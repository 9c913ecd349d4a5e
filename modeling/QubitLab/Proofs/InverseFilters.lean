import Mathlib.Algebra.Order.Field.Rat
import Mathlib.Tactic.FieldSimp
import Mathlib.Tactic.LinearCombination
import QubitLab.Distortion.Hardware

/-!
# Inverse filters

A filter of the first order ties its output to its input by a difference equation (`Stage.Solves`), in which both stand
alike: the filter with the two pairs of coefficients swapped has the same equation with the two signals swapped. Where
the newest output has a coefficient, the filter gives the only solution (`Stage.run_eq_iff`). So a correction and its
inverse undo each other in both orders (`correct?_inverse`), for a bias tee and for decays of either sign.
-/

namespace QubitLab.Signal.Stage

variable {F : Type} [Field F] {s : Stage F}

/-- The equation of a filter for two signals, after the samples `u` and `v` of them. -/
def Solves (s : Stage F) : F → F → List F → List F → Prop
  | _, _, [], [] => True
  | u, v, x :: xs, y :: ys => s.den.1 * y + s.den.2 * v = s.num.1 * x + s.num.2 * u ∧ s.Solves x y xs ys
  | _, _, _, _ => False

theorem solves_inverse {u v : F} {xs ys : List F} : s.inverse.Solves v u ys xs ↔ s.Solves u v xs ys := by
  induction xs generalizing u v ys with
  | nil => cases ys <;> simp [Solves]
  | cons x xs ih =>
    cases ys with
    | nil => simp [Solves]
    | cons y ys => exact and_congr eq_comm ih

/-- What a filter carries on is what its equation takes from the samples before. -/
theorem runFrom_eq_iff (h : s.den.1 ≠ 0) {u v carry : F} (hcarry : s.den.1 * carry = s.num.2 * u - s.den.2 * v)
    {xs ys : List F} : s.runFrom carry xs = ys ↔ s.Solves u v xs ys := by
  induction xs generalizing u v carry ys with
  | nil => cases ys <;> simp [runFrom, Solves]
  | cons x xs ih =>
    cases ys with
    | nil => simp [runFrom, Solves]
    | cons y ys =>
      have hsample : s.num.1 / s.den.1 * x + carry = y ↔ s.den.1 * y + s.den.2 * v = s.num.1 * x + s.num.2 * u := by
        rw [← mul_right_inj' h, mul_add, hcarry]
        field_simp
        constructor <;> intro h' <;> linear_combination -h'
      rw [runFrom, List.cons.injEq, Solves, hsample]
      refine and_congr_right fun hy => ?_
      rw [hsample.2 hy]
      exact ih (by field_simp)

theorem run_eq_iff (h : s.den.1 ≠ 0) {xs ys : List F} : s.run xs = ys ↔ s.Solves 0 0 xs ys :=
  runFrom_eq_iff h (by simp)

theorem run_inverse_run (hnum : s.num.1 ≠ 0) (hden : s.den.1 ≠ 0) (xs : List F) : s.inverse.run (s.run xs) = xs :=
  (run_eq_iff hnum).2 (solves_inverse.2 ((run_eq_iff hden).1 rfl))

end QubitLab.Signal.Stage

namespace QubitLab.Distortion

open Signal

variable {F : Type} [Field F] [DecidableEq F]

theorem correct?_correct? {s : Stage F} (hnum : s.num.1 ≠ 0) (hden : s.den.1 ≠ 0) (inverse : Bool) (xs : List F) :
    (correct? s inverse xs).bind (correct? s !inverse) = some xs := by
  cases inverse with
  | false => simp [correct?, correct, hnum, hden, Stage.run_inverse_run hnum hden]
  | true =>
    have h : s.run (s.inverse.run xs) = xs := Stage.run_inverse_run (s := s.inverse) hden hnum xs
    simp [correct?, correct, hnum, hden, h]

/-- **Corrections are undone by their inverses**, and the other way round: for every signal, every bias tee and every
decay of either sign whose filter has leading coefficients that are not zero. -/
theorem correct?_inverse [LE F] [DecidableLE F] (inverse : Bool) (xs : List F) :
    (∀ k : F, k ≠ 0 → k + 1 ≠ 0 → (correct? (biasTee k) inverse xs).bind (correct? (biasTee k) !inverse) = some xs) ∧
      ∀ amp rate : F, (decay amp rate).num.1 ≠ 0 →
        (correct? (decay amp rate) inverse xs).bind (correct? (decay amp rate) !inverse) = some xs :=
  ⟨fun _ hk hk' => correct?_correct? (div_ne_zero hk' hk) one_ne_zero inverse xs,
    fun _ _ h => correct?_correct? h one_ne_zero inverse xs⟩

/-- A bias tee, an overshoot and a slow rise, of which the second is inverted first. -/
theorem correct?_inverse_signs : (6 : ℚ) ≠ 0 ∧ (6 + 1 : ℚ) ≠ 0 ∧ (decay (1 / 2) (1 / 4) : Stage ℚ).num.1 ≠ 0 ∧
    (decay (-1 / 2) (1 / 4) : Stage ℚ).num.1 ≠ 0 ∧
    (correct? (biasTee (6 : ℚ)) false [1, 2, -1]).bind (correct? (biasTee 6) true) = some [1, 2, -1] ∧
    (correct? (decay (1 / 2) (1 / 4) : Stage ℚ) true [1, 2, -1]).bind (correct? (decay (1 / 2) (1 / 4)) false) =
      some [1, 2, -1] ∧
    (correct? (decay (-1 / 2) (1 / 4) : Stage ℚ) false [1, 2, -1]).bind (correct? (decay (-1 / 2) (1 / 4)) true) =
      some [1, 2, -1] := by
  have hover : (decay (1 / 2) (1 / 4) : Stage ℚ).num.1 ≠ 0 := by norm_num [decay, decayWeight]
  have hslow : (decay (-1 / 2) (1 / 4) : Stage ℚ).num.1 ≠ 0 := by norm_num [decay, decayWeight]
  exact ⟨by norm_num, by norm_num, hover, hslow, (correct?_inverse false _).1 6 (by norm_num) (by norm_num),
    (correct?_inverse true _).2 _ _ hover, (correct?_inverse false _).2 _ _ hslow⟩

end QubitLab.Distortion
