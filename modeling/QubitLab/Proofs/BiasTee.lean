import Mathlib.Tactic.FieldSimp
import Mathlib.Tactic.Ring
import QubitLab.Proofs.FilterModels

/-!
# The hardware model of a bias tee

The blockwise correction adds the charge that the signal has left behind up to the end of a block to all samples of the
block; the exact one is a filter of the first order, whose output is a closed form of the same charge
(`runFrom_biasTee_getElem?`). Both agree at the ends of blocks. `blockBiasTee?_agrees_iff`: this is so for the signals that
are rows of whole blocks, and there is no answer for the others, since the row of charges is not cut to the signal.
-/

namespace QubitLab.Signal

variable {α β γ F : Type}

theorem combine?_of_length_eq (f : α → β → γ) {xs : List α} {ys : List β} (h : xs.length = ys.length) :
    combine? f xs ys = some (xs.zipWith f ys) := by
  unfold combine?
  exact if_pos h

/-- Two rows of different lengths go together only if one of them has a single entry, which is repeated. -/
theorem combine?_of_length_ne (f : α → β → γ) {xs : List α} {ys : List β} (h : xs.length ≠ ys.length) :
    (combine? f xs ys).map List.length =
      if xs.length = 1 then some ys.length else if ys.length = 1 then some xs.length else none := by
  unfold combine?
  rw [if_neg h]
  rcases xs with _ | ⟨x, _ | ⟨x', xs⟩⟩
  · rcases ys with _ | ⟨y, _ | ⟨y', ys⟩⟩ <;> simp
  · simp
  · rcases ys with _ | ⟨y, _ | ⟨y', ys⟩⟩ <;> simp

/-- Whole blocks cover a row if and only if their size divides its length. -/
theorem ceil_mul_eq_iff {size : Nat} (hsize : 0 < size) (n : Nat) : (n + size - 1) / size * size = n ↔ size ∣ n := by
  constructor
  · intro h
    exact ⟨(n + size - 1) / size, by rw [Nat.mul_comm, h]⟩
  · rintro ⟨m, rfl⟩
    rw [show size * m + size - 1 = size * m + (size - 1) by omega, Nat.mul_add_div hsize,
      Nat.div_eq_of_lt (by omega), Nat.add_zero, Nat.mul_comm]

variable [Field F]

theorem length_runningSums (start : F) (xs : List F) : (runningSums start xs).length = xs.length := by
  induction xs generalizing start with
  | nil => rfl
  | cons x xs ih => simp [runningSums, ih]

theorem runningSums_getElem? (start : F) {xs : List F} {n : Nat} (hn : n < xs.length) :
    (runningSums start xs)[n]? = some (start + (xs.take (n + 1)).sum) := by
  induction xs generalizing start n with
  | nil => cases hn
  | cons x xs ih =>
    cases n with
    | zero => simp [runningSums]
    | succ n =>
      have hn' : n < xs.length := by simpa using hn
      rw [runningSums, List.getElem?_cons_succ, ih _ hn', List.take_succ_cons, List.sum_cons, add_assoc]

end QubitLab.Signal

namespace QubitLab.Distortion

open Signal

variable {F : Type} [Field F] {k : F} {paths : Nat} {xs : List F}

/-- The correction adds the charge that the signal has left behind so far, counted twice but for the last sample. -/
theorem runFrom_biasTee_getElem? (hk : k ≠ 0) (carry : F) {n : Nat} {x : F} (hx : xs[n]? = some x) :
    ((biasTee k).runFrom carry xs)[n]? = some (x + carry + 1 / k * (2 * (xs.take (n + 1)).sum - x)) := by
  induction xs generalizing carry n with
  | nil => simp at hx
  | cons y xs ih =>
    cases n with
    | zero =>
      obtain rfl : y = x := by simpa using hx
      rw [Stage.runFrom, List.getElem?_cons_zero]
      simp only [biasTee, List.take_succ_cons, List.take_zero, List.sum_singleton, div_one]
      field_simp
      ring_nf
    | succ n =>
      rw [Stage.runFrom, List.getElem?_cons_succ, ih _ (by simpa using hx), List.take_succ_cons, List.sum_cons]
      simp only [biasTee, div_one]
      field_simp
      ring_nf

/-- The charge after each block, held for the samples of the block. -/
def blockCharge (paths : Nat) (xs : List F) : List F := held paths (runningSums 0 ((blocks paths xs).map total))

theorem length_blockCharge (paths : Nat) (xs : List F) :
    (blockCharge paths xs).length = (xs.length + paths - 1) / paths * paths := by
  rw [blockCharge, length_held, length_runningSums]
  simp [blocks]

theorem blockCharge_getElem? (hpaths : 0 < paths) {b : Nat} (hb : (b + 1) * paths ≤ xs.length) :
    (blockCharge paths xs)[(b + 1) * paths - 1]? = some (xs.take ((b + 1) * paths)).sum := by
  have hstep := Nat.add_one_mul b paths
  have hdiv : ((b + 1) * paths - 1) / paths = b := by
    rw [Nat.div_eq_iff hpaths]
    omega
  have hblocks : b < ((blocks paths xs).map total).length := by
    apply (List.getElem?_eq_some_iff.1 _).1
    · exact total ((xs.drop (b * paths)).take paths)
    · rw [List.getElem?_map, blocks_getElem? hpaths hb, Option.map_some]
  rw [blockCharge, held_getElem? hpaths, hdiv, runningSums_getElem? 0 hblocks, zero_add,
    sum_take_blocks hpaths (fun l _ => (total_eq_sum l).trans (div_one _).symm) hb, div_one]

theorem blockBiasTee?_of_dvd (hpaths : 0 < paths) (h : paths ∣ xs.length) : blockBiasTee? k paths xs =
    some (xs.zipWith (fun x d => x + 1 / k * d) ((blockCharge paths xs).zipWith (fun a x => a + a - x) xs)) := by
  have hlength : (blockCharge paths xs).length = xs.length := by
    rw [length_blockCharge, (ceil_mul_eq_iff hpaths _).2 h]
  rw [blockBiasTee?, ← blockCharge, combine?_of_length_eq _ hlength, Option.bind_some, combine?_of_length_eq]
  rw [List.length_zipWith, hlength, Nat.min_self]

/-- At the end of a block all of the charge before is counted. -/
theorem blockBiasTee_blockEnd (hk : k ≠ 0) (hpaths : 0 < paths) {b : Nat} (hb : (b + 1) * paths ≤ xs.length) :
    (xs.zipWith (fun x d => x + 1 / k * d)
      ((blockCharge paths xs).zipWith (fun a x => a + a - x) xs))[(b + 1) * paths - 1]? =
      ((biasTee k).run xs)[(b + 1) * paths - 1]? := by
  have hpos : 0 < (b + 1) * paths := Nat.mul_pos b.succ_pos hpaths
  have hx := List.getElem?_eq_getElem (show (b + 1) * paths - 1 < xs.length by omega)
  rw [List.getElem?_zipWith, List.getElem?_zipWith, blockCharge_getElem? hpaths hb, hx, Stage.run,
    runFrom_biasTee_getElem? hk 0 hx, Nat.sub_add_cancel hpos, add_zero, two_mul]

/-- A signal that ends within a block gets no answer, but a single sample gets that of a whole block. -/
theorem length_blockBiasTee?_of_not_dvd (hpaths : 0 < paths) (h : ¬ paths ∣ xs.length) :
    (blockBiasTee? k paths xs).map List.length = if xs.length = 1 then some paths else none := by
  have hlength := length_blockCharge paths xs
  have hne : (blockCharge paths xs).length ≠ xs.length := hlength ▸ (ceil_mul_eq_iff hpaths _).not.2 h
  have hsingle : (blockCharge paths xs).length ≠ 1 := by
    intro hone
    rw [hlength] at hone
    exact h (Nat.eq_one_of_mul_eq_one_left hone ▸ one_dvd _)
  have hfirst := combine?_of_length_ne (fun a x => a + a - x) hne
  rw [if_neg hsingle] at hfirst
  rw [blockBiasTee?, ← blockCharge]
  split
  · next hone =>
    rw [if_pos hone, Option.map_eq_some_iff] at hfirst
    obtain ⟨ds, hds, hdsl⟩ := hfirst
    rw [hds, Option.bind_some, combine?_of_length_ne _ (hdsl ▸ hne.symm), if_pos hone, hdsl, hlength, hone,
      Nat.add_sub_cancel_left, Nat.div_self hpaths, Nat.one_mul]
  · next hone =>
    rw [if_neg hone, Option.map_eq_none_iff] at hfirst
    rw [hfirst, Option.bind_none, Option.map_none]

/-- **The blockwise correction of a bias tee** gives the samples of a signal, and the exact correction at the end of each
whole block, if and only if the signal ends with a block. Otherwise it counts more entries of charge than there are
samples, which are only taken together where there is one sample. -/
theorem blockBiasTee?_agrees_iff (tau rate : F) (hk : 2 * tau * rate ≠ 0) (hpaths : 1 ≤ paths) (xs : List F) :
    ((∃ ys, blockBiasTee? (2 * tau * rate) paths xs = some ys ∧ ys.length = xs.length ∧
        ∀ b, (b + 1) * paths ≤ xs.length →
          ys[(b + 1) * paths - 1]? = (correct (biasTee (2 * tau * rate)) false xs)[(b + 1) * paths - 1]?) ↔
      paths ∣ xs.length) ∧
      (blockBiasTee? (2 * tau * rate) paths xs = none ↔ ¬ paths ∣ xs.length ∧ xs.length ≠ 1) := by
  by_cases hdvd : paths ∣ xs.length
  · have heq := blockBiasTee?_of_dvd (k := 2 * tau * rate) hpaths hdvd
    refine ⟨iff_of_true ⟨_, heq, ?_, fun b hb => blockBiasTee_blockEnd hk hpaths hb⟩ hdvd,
      iff_of_false (by simp [heq]) fun h => h.1 hdvd⟩
    rw [List.length_zipWith, List.length_zipWith, length_blockCharge, (ceil_mul_eq_iff hpaths _).2 hdvd, Nat.min_self,
      Nat.min_self]
  · have hlength := length_blockBiasTee?_of_not_dvd (k := 2 * tau * rate) hpaths hdvd
    constructor
    · refine iff_of_false ?_ hdvd
      rintro ⟨ys, hys, hsame, -⟩
      rw [hys, Option.map_some, hsame, Option.some_eq_ite_none_right] at hlength
      exact hdvd (dvd_of_eq (Option.some.inj hlength.2).symm)
    · rw [← Option.map_eq_none_iff (f := List.length), hlength]
      simp [hdvd]

/-- Four samples on two paths. -/
theorem blockBiasTee?_agrees_iff_pairs : (2 * 1 * 1 : ℚ) ≠ 0 ∧ 2 ∣ [1, 2, 3, (4 : ℚ)].length ∧
    ∃ ys, blockBiasTee? (2 * 1 * 1 : ℚ) 2 [1, 2, 3, 4] = some ys ∧ ys.length = [1, 2, 3, (4 : ℚ)].length ∧
      ∀ b, (b + 1) * 2 ≤ [1, 2, 3, (4 : ℚ)].length →
        ys[(b + 1) * 2 - 1]? = (correct (biasTee (2 * 1 * 1 : ℚ)) false [1, 2, 3, 4])[(b + 1) * 2 - 1]? :=
  ⟨by norm_num, by decide, (blockBiasTee?_agrees_iff 1 1 (by norm_num) (by decide) _).1.2 (by decide)⟩

/-- Three samples on two paths have no correction, and one sample has two. -/
theorem blockBiasTee?_incomplete : blockBiasTee? (2 : ℚ) 2 [1, 2, 3] = none ∧
    correct (biasTee (2 : ℚ)) false [1, 2, 3] = [3 / 2, 4, 15 / 2] ∧ blockBiasTee? (2 : ℚ) 2 [1] = some [3 / 2, 3 / 2] := by
  decide +kernel

end QubitLab.Distortion
