import Mathlib.Algebra.BigOperators.Group.Finset.Basic
import Mathlib.Data.List.GetD
import Mathlib.Tactic.FieldSimp
import QubitLab.Proofs.FilterModels
import QubitLab.Matrix.Elimination

/-!
# Inverse matrices

Clearing an unknown takes the solutions of a system to those of a smaller one (`dot_clear`). So a system without a pivot has
a solution besides zero when its right sides are zero, and otherwise elimination finds a solution (`solve?_eq_some`).
`inverse?_eq_some`: elimination inverts every square matrix that takes no vector but zero to zero.
-/

namespace QubitLab.Matrix

open Signal Finset

variable {F : Type} [Field F] {n : Nat} {A : List (List F)} {es : List (Equation F)}

theorem dot_nil_right (xs : List F) : dot xs [] = 0 := by simp [dot, Signal.total_eq_sum]

theorem dot_cons (x y : F) (xs ys : List F) : dot (x :: xs) (y :: ys) = x * y + dot xs ys := by
  simp [dot, Signal.total_eq_sum]

theorem dot_eq_sum (xs ys : List F) : dot xs ys = ∑ i ∈ range ys.length, xs.getD i 0 * ys.getD i 0 := by
  induction xs generalizing ys with
  | nil => simp [dot, Signal.total_eq_sum]
  | cons x xs ih =>
    cases ys with
    | nil => simp [dot_nil_right]
    | cons y ys => rw [dot_cons, ih, List.length_cons, sum_range_succ']; simp [add_comm]

theorem dot_comm (xs ys : List F) : dot xs ys = dot ys xs := by
  rw [dot, dot, List.zipWith_comm_of_comm mul_comm]

theorem dot_replicate_zero (xs : List F) (n : Nat) : dot xs (List.replicate n 0) = 0 := by
  rw [dot_eq_sum]
  simp

theorem dot_zipWith (t : F) {as bs : List F} (h : as.length = bs.length) (v : List F) :
    dot (as.zipWith (fun a b => a - t * b) bs) v = dot as v - t * dot bs v := by
  induction as generalizing bs v with
  | nil => simp [List.length_eq_zero_iff.1 h.symm, dot, Signal.total_eq_sum]
  | cons a as ih =>
    cases bs with
    | nil => cases h
    | cons b bs =>
      cases v with
      | nil => simp [dot_nil_right]
      | cons x v => rw [List.zipWith_cons_cons, dot_cons, dot_cons, dot_cons, ih (Nat.succ.inj h)]; ring

/-- What an equation says of values that the pivot equation completes, the cleared one says of the values. -/
theorem dot_clear {a b : F} {as : List F} {e : Equation F} (ha : a ≠ 0) (h : e.1.length = as.length + 1) (xs : List F)
    (y : F) : dot e.1 ((y - dot as xs) / a :: xs) = dot (clear (a :: as, b) e).1 xs + e.1.headD 0 / a * y := by
  obtain ⟨row, d⟩ := e
  obtain ⟨c, cs, rfl⟩ := List.exists_cons_of_length_eq_add_one h
  have hclear : (clear (a :: as, b) (c :: cs, d)).1 = cs.zipWith (fun u v => u - c / a * v) as := rfl
  rw [dot_cons, hclear, dot_zipWith _ (Nat.succ.inj h), List.headD_cons]
  field_simp
  ring

variable {prefer : F → F → Bool}

theorem pick_eq_some (hprefer : ∀ a ≠ 0, prefer a 0 = true ∧ prefer 0 a = false) (hes : es ≠ []) :
    ∃ p others, pick prefer es = some (p, others) ∧ (p :: others).Perm es ∧
      ((∃ e ∈ es, e.1.headD 0 ≠ 0) → p.1.headD 0 ≠ 0) := by
  induction es with
  | nil => exact absurd rfl hes
  | cons e es ih =>
    by_cases hes : es = []
    · subst hes
      exact ⟨e, [], rfl, .refl _, by simp⟩
    obtain ⟨p, others, hpick, hperm, hbest⟩ := ih hes
    rw [pick, hpick]
    simp only
    split
    next hp =>
      refine ⟨p, e :: others, rfl, (List.Perm.swap e p others).trans (hperm.cons e), ?_⟩
      rintro ⟨s, hs, hne⟩ hzero
      rcases List.mem_cons.1 hs with rfl | hs
      · rw [hzero, (hprefer _ hne).2] at hp
        cases hp
      · exact hbest ⟨s, hs, hne⟩ hzero
    next hp =>
      refine ⟨e, p :: others, rfl, hperm.cons e, ?_⟩
      rintro ⟨s, hs, hne⟩ hzero
      rcases List.mem_cons.1 hs with rfl | hs
      · exact hne hzero
      · exact hp (by rw [hzero, (hprefer _ (hbest ⟨s, hs, hne⟩)).1])

/-- The rows take no vector but zero to zero. -/
def Regular (n : Nat) (rows : List (List F)) : Prop :=
  ∀ v : List F, v.length = n → (∀ r ∈ rows, dot r v = 0) → ∀ x ∈ v, x = 0

theorem Regular.exists_headD_ne_zero (hreg : Regular (n + 1) (es.map Prod.fst)) (hwidth : ∀ e ∈ es, e.1.length = n + 1) :
    ∃ e ∈ es, e.1.headD 0 ≠ 0 := by
  by_contra hnone
  push Not at hnone
  refine one_ne_zero (α := F) (hreg (1 :: List.replicate n 0) (by simp) (List.forall_mem_map.2 fun e he => ?_) 1
    List.mem_cons_self)
  obtain ⟨c, cs, hc⟩ := List.exists_cons_of_length_eq_add_one (hwidth e he)
  have hzero := hnone e he
  rw [hc, List.headD_cons] at hzero
  rw [hc, hzero, dot_cons, dot_replicate_zero, zero_mul, add_zero]

variable [DecidableEq F]

theorem solve?_eq_some (hprefer : ∀ a ≠ 0, prefer a 0 = true ∧ prefer 0 a = false) (es : List (Equation F))
    (hcount : es.length = n) (hwidth : ∀ e ∈ es, e.1.length = n) (hreg : Regular n (es.map Prod.fst)) :
    ∃ xs, solve? prefer n es = some xs ∧ xs.length = n ∧ ∀ e ∈ es, dot e.1 xs = e.2 := by
  induction n generalizing es with
  | zero =>
    cases List.length_eq_zero_iff.1 hcount
    exact ⟨[], rfl, rfl, by simp⟩
  | succ n ih =>
    obtain ⟨⟨row, b⟩, others, hpick, hperm, hbest⟩ := pick_eq_some hprefer (List.ne_nil_of_length_eq_add_one hcount)
    have ha := hbest (hreg.exists_headD_ne_zero hwidth)
    have hmem (e : Equation F) : e ∈ es ↔ e = (row, b) ∨ e ∈ others := by rw [← hperm.mem_iff, List.mem_cons]
    obtain ⟨a, as, rfl⟩ := List.exists_cons_of_length_eq_add_one (hwidth (row, b) ((hmem _).2 (.inl rfl)))
    rw [List.headD_cons] at ha
    have has : as.length = n := Nat.succ.inj (hwidth (a :: as, b) ((hmem _).2 (.inl rfl)))
    have hpivot (xs : List F) (y : F) : dot (a :: as) ((y - dot as xs) / a :: xs) = y := by
      rw [dot_cons, mul_div_cancel₀ _ ha, sub_add_cancel]
    have hother (e : Equation F) (he : e ∈ others) : e.1.length = as.length + 1 := by
      rw [hwidth e ((hmem e).2 (.inr he)), has]
    have hcount' : (others.map (clear (a :: as, b))).length = n := by
      have hsize := hperm.length_eq
      rw [List.length_cons, hcount] at hsize
      rw [List.length_map, Nat.succ.inj hsize]
    have hwidth' : ∀ e ∈ others.map (clear (a :: as, b)), e.1.length = n := by
      refine List.forall_mem_map.2 fun e he => ?_
      simp [clear, hother e he, has]
    have hreg' : Regular n ((others.map (clear (a :: as, b))).map Prod.fst) := by
      intro v hv hzero x hx
      rw [List.forall_mem_map, List.forall_mem_map] at hzero
      refine hreg ((0 - dot as v) / a :: v) (by rw [List.length_cons, hv]) (List.forall_mem_map.2 fun e he => ?_) x
        (List.mem_cons_of_mem _ hx)
      rcases (hmem e).1 he with rfl | he
      · exact hpivot v 0
      · rw [dot_clear ha (hother e he), hzero e he, mul_zero, add_zero]
    obtain ⟨xs, hsolve, hlen, hxs⟩ := ih _ hcount' hwidth' hreg'
    refine ⟨(b - dot as xs) / a :: xs, ?_, by rw [List.length_cons, hlen], fun e he => ?_⟩
    · rw [solve?, hpick]
      simp only [List.headD_cons, beq_iff_eq, ha, if_false, hsolve, Option.map_some, List.tail_cons]
    · rcases (hmem e).1 he with rfl | he
      · exact hpivot xs b
      · rw [dot_clear ha (hother e he), hxs _ (List.mem_map_of_mem he)]
        exact sub_add_cancel e.2 _

/-- **Elimination inverts** every square matrix that takes no vector but zero to zero. -/
theorem inverse?_eq_some (hprefer : ∀ a ≠ 0, prefer a 0 = true ∧ prefer 0 a = false)
    (hwidth : ∀ r ∈ A, r.length = A.length) (hreg : Regular A.length A) :
    ∃ B, inverse? prefer A = some B ∧
      ∀ k < A.length, (column k B).length = A.length ∧ apply A (column k B) = unitRow A.length k := by
  have hsolve (k : Nat) : ∃ xs, solve? prefer A.length (A.zip (unitRow A.length k)) = some xs ∧ xs.length = A.length ∧
      apply A xs = unitRow A.length k := by
    have hfst : (A.zip (unitRow A.length k : List F)).map Prod.fst = A := List.map_fst_zip (by simp [unitRow])
    have hsnd : (A.zip (unitRow A.length k : List F)).map Prod.snd = unitRow A.length k := List.map_snd_zip (by simp [unitRow])
    obtain ⟨xs, hxs, hlen, happly⟩ := solve?_eq_some hprefer (A.zip (unitRow A.length k)) (by simp [unitRow])
      (fun e he => hwidth e.1 (List.of_mem_zip he).1) (by rwa [hfst])
    refine ⟨xs, hxs, hlen, ?_⟩
    rw [← hsnd, ← List.map_congr_left happly]
    nth_rewrite 1 [← hfst]
    rw [apply, List.map_map]
    rfl
  choose f hf hlen happly using hsolve
  refine ⟨transpose A.length ((List.range A.length).map f), ?_, fun k hk => ?_⟩
  · have hmap (ks : List Nat) : ks.mapM (fun k => solve? prefer A.length (A.zip (unitRow A.length k))) = some (ks.map f) := by
      induction ks with
      | nil => rfl
      | cons k ks ih =>
        rw [List.mapM_cons, hf, ih]
        rfl
    rw [inverse?]
    simp only [hmap, Option.map_some]
  · have hcolumn : column k (transpose A.length ((List.range A.length).map f)) = f k := by
      refine List.ext_getElem (by simp [column, transpose, hlen]) fun j hj hj' => ?_
      simp [column, transpose, hk, hj']
    rw [hcolumn]
    exact ⟨hlen k, happly k⟩

end QubitLab.Matrix
