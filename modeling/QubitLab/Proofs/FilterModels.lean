import Mathlib.Algebra.BigOperators.Group.List.Basic
import Mathlib.Algebra.Field.Basic
import Mathlib.Algebra.Order.Floor.Ring
import Mathlib.Data.Rat.Floor
import QubitLab.Distortion.Hardware

/-!
# The hardware models of a filter

The pipelined model works on means of blocks and keeps one average for each stage, the sample-wise model keeps an average
for each sample of the last blocks. `pipelined_eq_unrolled`: in exact arithmetic both give the same at the first sample of
every block, for every signal and every way of rounding the coefficients. `pipelined_one_eq_averaged`: with one stage and
coefficients that are not rounded, the pipelined model is the plain one.

Sums of blocks are differences of sums of beginnings, so both moving means are the same function of these
(`movingMean_getElem?`, `sum_take_blocks`), and both averages follow the same equation (`trail_getElem?`).
-/

namespace QubitLab.Signal

open List

variable {F : Type} {xs : List F}

theorem blocks_getElem? {size : Nat} (hsize : 0 < size) {b : Nat} (hb : (b + 1) * size ≤ xs.length) :
    (blocks size xs)[b]? = some ((xs.drop (b * size)).take size) := by
  have hlt : b < (xs.length + size - 1) / size := by
    rw [Nat.lt_iff_add_one_le, Nat.le_div_iff_mul_le hsize]
    omega
  rw [blocks, getElem?_map, getElem?_range hlt, Option.map_some]

theorem held_getElem? {count : Nat} (hcount : 0 < count) (xs : List F) (i : Nat) :
    (held count xs)[i]? = xs[i / count]? := by
  induction xs generalizing i with
  | nil => simp [held]
  | cons x xs ih =>
    rw [held, flatMap_cons, ← held]
    rcases Nat.lt_or_ge i count with hi | hi
    · rw [getElem?_append_left (by simpa using hi), getElem?_replicate_of_lt hi, Nat.div_eq_of_lt hi]
      rfl
    · rw [getElem?_append_right (by simpa using hi), length_replicate, ih, Nat.div_eq_sub_div hcount hi]
      rfl

theorem length_held (count : Nat) (xs : List F) : (held count xs).length = xs.length * count := by simp [held]

theorem take_blocks_append {size : Nat} (hsize : 0 < size) {m : Nat} (hm : m * size ≤ xs.length)
    (zs : List F) : (blocks size (xs ++ zs)).take m = (blocks size xs).take m := by
  apply ext_getElem?
  intro b
  rw [getElem?_take, getElem?_take]
  split
  · next hb =>
    have hle : (b + 1) * size ≤ xs.length := (Nat.mul_le_mul_right size hb).trans hm
    have hstep := Nat.add_one_mul b size
    rw [blocks_getElem? hsize hle, blocks_getElem? hsize (by simp; omega), drop_append_of_le_length (by omega),
      take_append_of_le_length (by simp; omega)]
  · rfl

variable [Field F]

theorem total_eq_sum (xs : List F) : total xs = xs.sum := sum_eq_foldl.symm

/-- A moving mean is a difference of sums of beginnings of the signal. -/
theorem movingMean_getElem? (width : Nat) {n : Nat} (hn : n < xs.length) :
    (movingMean width xs)[n]? = some (((xs.take (n + 1)).sum - (xs.take (n + 1 - width)).sum) / (width : F)) := by
  have hlength : (xs.take (n + 1)).length = n + 1 := length_take_of_le hn
  have hsplit := sum_take_add_sum_drop (xs.take (n + 1)) (n + 1 - width)
  rw [take_take, Nat.min_eq_left (Nat.sub_le _ _)] at hsplit
  rw [movingMean, getElem?_map, getElem?_range hn, Option.map_some, total_eq_sum, take_reverse,
    sum_reverse, hlength, ← hsplit, add_sub_cancel_left]

theorem movingMean_one (xs : List F) : movingMean 1 xs = xs := by
  have hlength : (movingMean 1 xs).length = xs.length := by simp [movingMean]
  apply ext_getElem hlength
  intro n hn hn'
  have h := movingMean_getElem? 1 hn'
  rw [sum_take_succ _ _ hn', Nat.add_sub_cancel, add_sub_cancel_left, Nat.cast_one, div_one,
    getElem?_eq_getElem hn] at h
  exact Option.some.inj h

/-- Sums over blocks, up to a common divisor, add up to that of the beginning that the blocks cover. -/
theorem sum_take_blocks {size : Nat} (hsize : 0 < size) {f : List F → F} {c : F}
    (hf : ∀ l, l.length = size → f l = l.sum / c) {m : Nat} (hm : m * size ≤ xs.length) :
    (((blocks size xs).map f).take m).sum = (xs.take (m * size)).sum / c := by
  induction m with
  | zero => simp
  | succ m ih =>
    have hstep := Nat.add_one_mul m size
    have hblock : ((blocks size xs).map f)[m]? = some (((xs.drop (m * size)).take size).sum / c) := by
      rw [getElem?_map, blocks_getElem? hsize hm, Option.map_some, hf]
      rw [length_take_of_le]
      rw [length_drop]
      omega
    rw [take_add_one, hblock, sum_append, ih (by omega), hstep, take_add, sum_append, add_div]
    simp

theorem sum_take_blockMeans {size : Nat} (hsize : 0 < size) {m : Nat} (hm : m * size ≤ xs.length) :
    (((blocks size xs).map mean).take m).sum = (xs.take (m * size)).sum / (size : F) :=
  sum_take_blocks hsize (fun l hl => by rw [mean, total_eq_sum, hl]) hm

end QubitLab.Signal

namespace QubitLab.Distortion

open List Signal

variable {F : Type} [Field F] {xs : List F} {n : Nat}

/-- The equation of the moving averages: each follows the entry that stands as many places before it as `past` has
entries. -/
theorem trail_getElem? (rate : F) {past : List F} (hpast : past ≠ []) {x : F} (hx : xs[n]? = some x) :
    (trail rate past xs)[n]? = (past ++ trail rate past xs)[n]?.map fun p => p + rate * (x - p) := by
  induction xs generalizing past n with
  | nil => simp at hx
  | cons y xs ih =>
    obtain ⟨p, past, rfl⟩ := exists_cons_of_ne_nil hpast
    cases n with
    | zero =>
      obtain rfl : y = x := by simpa using hx
      simp [trail]
    | succ n =>
      have hne : past ++ [p + rate * (y - p)] ≠ [] := by simp
      simpa [trail] using ih hne (by simpa using hx)

/-- Averages that start at rest: an entry is at rest before the first `lag` entries have passed. -/
theorem trail_rest_getElem? (rate : F) {lag : Nat} (hlag : 0 < lag) {x : F} (hx : xs[n]? = some x) :
    (trail rate (List.replicate lag 0) xs)[n]? =
      (if n < lag then some 0 else (trail rate (List.replicate lag 0) xs)[n - lag]?).map fun p => p + rate * (x - p) := by
  rw [trail_getElem? rate (by simp; omega) hx]
  split
  · next h => rw [getElem?_append_left (by simpa using h), getElem?_replicate_of_lt h]
  · next h => rw [getElem?_append_right (by simpa using h), length_replicate]

theorem take_padded (size : Nat) (hn : n ≤ xs.length) : (padded size xs).take n = xs.take n :=
  take_append_of_le_length hn

theorem length_le_length_padded (size : Nat) (xs : List F) : xs.length ≤ (padded size xs).length := by
  rw [padded, length_append]
  exact Nat.le_add_right _ _

/-- **The averages agree.** The average after block `b` of a signal is that after the last sample of the block. -/
theorem pipelined_average (rate : F) {paths stages : Nat} (hpaths : 0 < paths) (hstages : 0 < stages) {ys : List F}
    (hxs : ∀ n ≤ xs.length, ys.take n = xs.take n) (hys : xs.length ≤ ys.length) :
    ∀ b, (b + 1) * paths ≤ xs.length →
      ∃ u, (trail rate (List.replicate stages 0) (movingMean stages ((blocks paths ys).map mean)))[b]? = some u ∧
        (trail rate (List.replicate (stages * paths) 0) (movingMean (stages * paths) xs))[(b + 1) * paths - 1]? =
          some u := by
  intro b
  induction b using Nat.strong_induction_on with
  | _ b ih =>
    intro hb
    have hstep := Nat.add_one_mul b paths
    have hsub : (b + 1) * paths - stages * paths = (b + 1 - stages) * paths := (Nat.sub_mul ..).symm
    have hlast : (b + 1) * paths - 1 + 1 = (b + 1) * paths := by omega
    -- The last `stages` blocks are the last `stages * paths` samples.
    have hmeans : b < ((blocks paths ys).map mean).length :=
      (List.getElem?_eq_some_iff.1 (by rw [getElem?_map, blocks_getElem? hpaths (hb.trans hys)]; rfl)).1
    have hblock := movingMean_getElem? stages hmeans
    have hsample := movingMean_getElem? (stages * paths) (show (b + 1) * paths - 1 < xs.length by omega)
    have hback : (b + 1 - stages) * paths ≤ xs.length := by omega
    rw [sum_take_blockMeans hpaths (hb.trans hys), sum_take_blockMeans hpaths (hback.trans hys), hxs _ hb, hxs _ hback,
      ← sub_div, div_div, ← Nat.cast_mul, Nat.mul_comm paths] at hblock
    rw [hlast, hsub] at hsample
    rw [trail_rest_getElem? rate hstages hblock,
      trail_rest_getElem? rate (Nat.mul_pos hstages hpaths) hsample]
    have hrest : (b + 1) * paths - 1 < stages * paths ↔ b < stages := by
      rw [Nat.lt_iff_add_one_le (m := b), ← Nat.mul_le_mul_right_iff hpaths]
      omega
    by_cases h : b < stages
    · rw [if_pos h, if_pos (hrest.2 h)]
      exact ⟨_, rfl, rfl⟩
    · rw [if_neg h, if_neg (hrest.not.2 h)]
      obtain ⟨u, hu, hu'⟩ := ih (b - stages) (by omega) (by rw [← Nat.sub_add_comm (not_lt.1 h)]; exact hback)
      rw [hu, show (b + 1) * paths - 1 - stages * paths = (b - stages + 1) * paths - 1 by
        rw [← Nat.sub_add_comm (not_lt.1 h)]; omega, hu']
      exact ⟨_, rfl, rfl⟩

/-- **The pipelined and the sample-wise model agree** at the first sample of every block: for every signal, all
coefficients, every way of rounding them, and all numbers of paths and stages. -/
theorem pipelined_eq_unrolled (round : F → F) (rate k : F) {paths stages : Nat} (hpaths : 1 ≤ paths) (hstages : 1 ≤ stages)
    (xs : List F) {i : Nat} (hi : i < xs.length) (hdvd : paths ∣ i) :
    ∃ y, (pipelined round rate k paths stages xs)[i]? = some y ∧ (unrolled round rate k paths stages xs)[i]? = some y := by
  obtain ⟨m, rfl⟩ := hdvd
  rw [Nat.mul_comm] at hi ⊢
  have hpadded := length_le_length_padded (stages * paths) xs
  have hsample : (padded (stages * paths) xs)[m * paths]? = xs[m * paths]? := getElem?_append_left hi
  -- Both models blend the same sample with an average, and that before the first block is zero.
  suffices h : ∃ u, (List.replicate paths 0 ++ held paths (trail (round (rate * ((paths * stages : Nat) : F)))
      (List.replicate stages 0) (movingMean stages ((blocks paths (padded (stages * paths) xs)).map mean))))[m * paths]? =
        some u ∧
      ((0 : F) :: trail (round (rate * ((stages * paths : Nat) : F))) (List.replicate (stages * paths) 0)
        (movingMean (stages * paths) xs))[m * paths]? = some u by
    obtain ⟨u, hu, hu'⟩ := h
    refine ⟨xs[m * paths] + round k * (u - xs[m * paths]), ?_, ?_⟩
    · rw [pipelined, blend, getElem?_zipWith, hsample, hu, getElem?_eq_getElem hi]
    · rw [unrolled, blend, getElem?_zipWith, hu', getElem?_eq_getElem hi]
  cases m with
  | zero => exact ⟨0, by simp [Nat.lt_of_lt_of_le Nat.zero_lt_one hpaths], by simp⟩
  | succ b =>
    have hstep := Nat.add_one_mul b paths
    obtain ⟨u, hu, hu'⟩ := pipelined_average (round (rate * ((stages * paths : Nat) : F))) hpaths hstages
      (fun n hn => take_padded _ hn) hpadded b hi.le
    refine ⟨u, ?_, ?_⟩
    · rw [getElem?_append_right (by simp; omega), length_replicate, held_getElem? hpaths,
        Nat.mul_comm paths, ← hu, hstep, Nat.add_sub_cancel, Nat.mul_div_cancel _ hpaths]
    · rw [← hu', show (b + 1) * paths = (b + 1) * paths - 1 + 1 by omega, getElem?_cons_succ]
      rfl

/-- Two paths and two stages, coefficients cut to eighths, and a signal that ends within a block. -/
theorem pipelined_eq_unrolled_eighths : 4 < [1, 3, -2, 5, (7 : ℚ)].length ∧ 2 ∣ 4 ∧
    ∃ y, (pipelined (fun x : ℚ => ⌊8 * x⌋ / 8) (1 / 5) (3 / 10) 2 2 [1, 3, -2, 5, 7])[4]? = some y ∧
      (unrolled (fun x : ℚ => ⌊8 * x⌋ / 8) (1 / 5) (3 / 10) 2 2 [1, 3, -2, 5, 7])[4]? = some y :=
  ⟨by decide, by decide, pipelined_eq_unrolled _ _ _ (by decide) (by decide) _ (by decide) (by decide)⟩

/-! ## One stage -/

theorem trail_take (rate : F) (past xs : List F) (n : Nat) : (trail rate past xs).take n = trail rate past (xs.take n) := by
  induction n generalizing past xs with
  | zero => cases past <;> simp [trail]
  | succ n ih => cases past <;> cases xs <;> simp [trail, ih]

theorem length_trail (rate : F) {past : List F} (hpast : past ≠ []) (xs : List F) :
    (trail rate past xs).length = xs.length := by
  induction xs generalizing past with
  | nil => simp [trail]
  | cons x xs ih =>
    obtain ⟨p, past, rfl⟩ := exists_cons_of_ne_nil hpast
    simp [trail, ih]

/-- The first averages depend on the whole blocks before them only. -/
theorem held_trail_append (rate : F) (past : List F) {paths : Nat} (hpaths : 0 < paths) (xs zs : List F) {i : Nat}
    (hi : paths + i < xs.length) :
    (held paths (trail rate past ((blocks paths (xs ++ zs)).map mean)))[i]? =
      (held paths (trail rate past ((blocks paths xs).map mean)))[i]? := by
  have hm : (i / paths + 1) * paths ≤ xs.length := by
    have := Nat.div_mul_le_self i paths
    rw [Nat.add_one_mul]
    omega
  have hlt : i / paths < i / paths + 1 := Nat.lt_succ_self _
  rw [held_getElem? hpaths, held_getElem? hpaths, ← getElem?_take_of_lt hlt, trail_take, ← map_take,
    take_blocks_append hpaths hm, map_take, ← trail_take, getElem?_take_of_lt hlt]

/-- The averages held cover all samples, so the plain model gives as many as it takes. -/
theorem length_averaged (rate k : F) {paths : Nat} (hpaths : 1 ≤ paths) (xs : List F) :
    (averaged rate k paths xs).length = xs.length := by
  have hblocks : ((blocks paths xs).map mean).length = (xs.length + paths - 1) / paths := by simp [blocks]
  have hround := Nat.lt_div_mul_add hpaths (a := xs.length + paths - 1)
  rw [averaged, blend, length_zipWith, length_append, length_replicate, length_held,
    length_trail _ (by simp), hblocks]
  omega

/-- **With one stage the pipelined model is the plain one** on the samples of the signal, for every signal and all
coefficients that are not rounded: the block that the signal may leave incomplete is averaged over other samples, but
this average would only reach the block behind it. -/
theorem pipelined_one_eq_averaged (rate k : F) {paths : Nat} (hpaths : 1 ≤ paths) (xs : List F) :
    (pipelined id rate k paths 1 xs).take xs.length = averaged rate k paths xs ∧
      (averaged rate k paths xs).length = xs.length := by
  refine ⟨?_, length_averaged rate k hpaths xs⟩
  apply ext_getElem?
  intro i
  by_cases hi : i < xs.length
  · have hsample : (padded (1 * paths) xs)[i]? = xs[i]? := getElem?_append_left hi
    rw [getElem?_take_of_lt hi, pipelined, averaged, blend, blend, getElem?_zipWith, getElem?_zipWith,
      hsample, Nat.mul_one, movingMean_one, id, id, replicate_one]
    -- Both blend the sample with what the blocks before its own gave.
    by_cases hfirst : i < paths
    · rw [getElem?_append_left (by simpa using hfirst), getElem?_append_left (by simpa using hfirst)]
    · rw [getElem?_append_right (by simpa using hfirst), getElem?_append_right (by simpa using hfirst),
        padded, held_trail_append _ _ hpaths]
      simp; omega
  · rw [getElem?_eq_none (by simp; omega), getElem?_eq_none (by rw [length_averaged _ _ hpaths]; omega)]

/-- Two paths and a signal that ends within a block. -/
theorem pipelined_one_eq_averaged_incomplete : 1 ≤ 2 ∧
    (pipelined id (1 / 5) (3 / 10) 2 1 [1, 3, -2, 5, (7 : ℚ)]).take 5 = averaged (1 / 5) (3 / 10) 2 [1, 3, -2, 5, 7] :=
  ⟨by decide, (pipelined_one_eq_averaged _ _ (by decide) [1, 3, -2, 5, (7 : ℚ)]).1⟩

end QubitLab.Distortion
