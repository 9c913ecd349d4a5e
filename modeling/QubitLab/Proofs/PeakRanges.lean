import Mathlib.Order.Lattice
import QubitLab.Spectrum.Peaks

/-!
# Ranges of peaks

What the search for peaks should report is one place for each run of entries above the threshold, where the run is highest
(`OnePerRun`). The ranges are noted at every place while a run goes on, so every new maximum on its way is reported; the
place where the second run starts only closes the first range, and the next one starts right behind the first run
(`ranges_range'_append`). `onePerRun_bestPlaces_iff`: so the search does what it should exactly when there is at most one
run, and it is nowhere higher than where it starts.
-/

namespace QubitLab.Spectrum

/-! ## Runs -/

section Runs

variable {α : Type} [LT α]

/-- The entry at a place is above a threshold. -/
def Above (t : α) (ys : List α) (i : Nat) : Prop := ∃ y, ys[i]? = some y ∧ t < y

/-- The places from `a` to before `b` are a run above a threshold that goes no further. -/
structure IsRun (t : α) (ys : List α) (a b : Nat) : Prop where
  lt : a < b
  above : ∀ i, a ≤ i → i < b → Above t ys i
  left : ∀ i, i + 1 = a → ¬ Above t ys i
  right : ¬ Above t ys b

/-- There is one place for each run and no other one, and it is where the run is highest. -/
structure OnePerRun [LE α] (t : α) (ys : List α) (places : List Nat) : Prop where
  inside : ∀ i ∈ places, ∃ a b, IsRun t ys a b ∧ a ≤ i ∧ i < b
  one : ∀ a b, IsRun t ys a b → ∃ i, (∀ j, (j ∈ places ∧ a ≤ j ∧ j < b) ↔ j = i) ∧
    ∀ k y z, a ≤ k → k < b → ys[k]? = some y → ys[i]? = some z → y ≤ z

/-- A run that starts at `a` is highest there. -/
def StartsHighest [LE α] (ys : List α) (a b : Nat) : Prop :=
  ∀ k y z, a ≤ k → k < b → ys[k]? = some y → ys[a]? = some z → y ≤ z

theorem Above.lt_length {t : α} {ys : List α} {i : Nat} (h : Above t ys i) : i < ys.length := by
  obtain ⟨y, hy, -⟩ := h
  exact (List.getElem?_eq_some_iff.1 hy).1

theorem mem_placesWhere [DecidableLT α] {t : α} {ys : List α} {i : Nat} :
    i ∈ placesWhere (fun y => t < y) ys ↔ Above t ys i := by
  rw [placesWhere, List.mem_filter, List.mem_range, Option.any_eq_true]
  exact ⟨fun h => by simpa [Above] using h.2, fun h => ⟨h.lt_length, by simpa [Above] using h⟩⟩

/-- Ascending places start with a run of consecutive ones, and there is a gap behind it. -/
theorem exists_range'_append {i : Nat} {r : List Nat} (h : (i :: r).Pairwise (· < ·)) :
    ∃ n rest, i :: r = List.range' i (n + 1) ++ rest ∧ ∀ j ∈ rest, i + (n + 1) < j := by
  induction r generalizing i with
  | nil => exact ⟨0, [], rfl, by simp⟩
  | cons j r ih =>
    obtain ⟨hi, hr⟩ := List.pairwise_cons.1 h
    by_cases hj : j = i + 1
    · subst hj
      obtain ⟨n, rest, heq, hrest⟩ := ih hr
      refine ⟨n + 1, rest, by rw [heq, List.range'_succ (n := n + 1)]; rfl, fun k hk => ?_⟩
      have := hrest k hk
      omega
    · refine ⟨0, j :: r, rfl, fun k hk => ?_⟩
      have hij := hi j List.mem_cons_self
      rcases List.mem_cons.1 hk with rfl | hk
      · omega
      · have := (List.pairwise_cons.1 hr).1 k hk
        omega

theorem isRun_range' {t : α} {ys : List α} {a n : Nat} (before rest : List Nat)
    (hmem : ∀ i, i ∈ before ++ (List.range' a (n + 1) ++ rest) ↔ Above t ys i) (hbefore : ∀ j ∈ before, j + 1 < a)
    (hrest : ∀ j ∈ rest, a + (n + 1) < j) : IsRun t ys a (a + (n + 1)) := by
  have hplace : ∀ i, Above t ys i → i + 1 < a ∨ (a ≤ i ∧ i < a + (n + 1)) ∨ a + (n + 1) < i := by
    intro i hi
    rw [← hmem, List.mem_append, List.mem_append, List.mem_range'_1] at hi
    exact hi.imp (hbefore i) (Or.imp_right (hrest i))
  refine ⟨by omega, fun i ha hb => (hmem i).1 (by simp; omega), fun i hi h => ?_, fun h => ?_⟩
  · have := hplace i h
    omega
  · have := hplace _ h
    omega

theorem IsRun.eq_of_mem {t : α} {ys : List α} {a b c d : Nat} (h : IsRun t ys a b) (h' : IsRun t ys c d) (hac : a ≤ c)
    (hcb : c < b) : a = c ∧ b = d := by
  have hstart : a = c := by
    by_contra hne
    exact h'.left (c - 1) (by omega) (h.above (c - 1) (by omega) (by omega))
  refine ⟨hstart, ?_⟩
  have hdb : ¬ d < b := fun hlt => h'.right (h.above d (hac.trans h'.lt.le) hlt)
  have hbd : ¬ b < d := fun hlt => h.right (h'.above b (hstart ▸ h.lt.le) hlt)
  omega

end Runs

/-! ## Ranges -/

theorem rangesFrom_range' (low high n : Nat) (rest : List Nat) :
    rangesFrom ⟨true, low, high, high + 1⟩ (List.range' (high + 1) n ++ rest) =
      (List.range' (high + 1) n).map (low, ·) ++ rangesFrom ⟨true, low, high + n, high + n + 1⟩ rest := by
  induction n generalizing high with
  | zero => rfl
  | succ n ih =>
    rw [List.range'_succ, List.cons_append, rangesFrom, RangeState.add, if_pos rfl, if_pos rfl, ih,
      Nat.add_right_comm high 1 n]
    rfl

theorem ranges_range'_append (a n : Nat) (rest : List Nat) :
    ranges (List.range' a (n + 1) ++ rest) =
      (List.range' a (n + 1)).map (a, ·) ++ rangesFrom ⟨true, a, a + n, a + n + 1⟩ rest := by
  rw [List.range'_succ, List.cons_append, ranges, rangesFrom, RangeState.add]
  simp only [Bool.false_eq_true, if_false]
  rw [rangesFrom_range']
  rfl

section Search

variable {α : Type} {beats : α → α → Bool} {ys : List α}

theorem bestFrom_le (best : α) {place i : Nat} (h : place ≤ i) (xs : List α) :
    bestFrom beats best place i xs ≤ i + xs.length := by
  induction xs generalizing best place i with
  | nil => exact h
  | cons x xs ih =>
    rw [bestFrom, List.length_cons, Nat.add_comm xs.length, ← Nat.add_assoc]
    split
    · exact ih x (Nat.le_succ i)
    · exact ih best (Nat.le_succ_of_le h)

theorem bestOf_le_length (beats : α → α → Bool) (xs : List α) : bestOf beats xs ≤ xs.length := by
  cases xs with
  | nil => exact le_refl 0
  | cons x xs => exact (bestFrom_le x (Nat.zero_le 1) xs).trans (Nat.add_comm 1 _).le

/-- An entry that nothing beats stays the best one. -/
theorem bestFrom_eq {best : α} {xs : List α} (h : ∀ y ∈ xs, beats y best = false) (place i : Nat) :
    bestFrom beats best place i xs = place := by
  induction xs generalizing i with
  | nil => rfl
  | cons x xs ih =>
    rw [bestFrom, h x List.mem_cons_self, if_neg Bool.false_ne_true]
    exact ih (fun y hy => h y (List.mem_cons_of_mem x hy)) (i + 1)

theorem mem_bestPlaces {places : List Nat} {i : Nat} : i ∈ bestPlaces beats ys places ↔
    i < ys.length ∧ ∃ range ∈ ranges places, bestInRange beats ys range = i := by
  simp [bestPlaces]

theorem bestInRange_le (beats : α → α → Bool) (ys : List α) {a h : Nat} (hle : a ≤ h) : bestInRange beats ys (a, h) ≤ h := by
  rw [bestInRange]
  split
  · exact hle
  · have := bestOf_le_length beats ((ys.take h).drop a)
    simp only [List.length_drop, List.length_take] at this ⊢
    omega

end Search

section Main

variable {α : Type} [LinearOrder α] {t : α} {ys : List α} {a n : Nat} {rest : List Nat}

theorem bestInRange_eq (hhigh : StartsHighest ys a (a + (n + 1))) (hlen : a + n < ys.length) {h : Nat} (hlow : a ≤ h)
    (hh : h < a + (n + 1)) : bestInRange (fun y z => z < y) ys (a, h) = a := by
  rw [bestInRange]
  split
  · rfl
  next hne =>
    have ha : a < (ys.take h).length := by
      simp only at hne
      rw [List.length_take]
      omega
    rw [List.drop_eq_getElem_cons ha, bestOf, bestFrom_eq, Nat.add_zero]
    intro y hy
    obtain ⟨k, hk⟩ := List.mem_iff_getElem?.1 hy
    rw [List.getElem?_drop] at hk
    have hkh : a + 1 + k < h := by
      have := (List.getElem?_eq_some_iff.1 hk).1
      rw [List.length_take] at this
      omega
    rw [List.getElem?_take_of_lt hkh] at hk
    rw [List.getElem_take, decide_eq_false_iff_not, not_lt]
    exact hhigh _ _ _ (by omega) (by omega) hk (List.getElem?_eq_getElem _)

/-- The first place of the first run is always reported. So a single run has to be highest there. -/
theorem onePerRun_range' (hrun : IsRun t ys a (a + (n + 1)))
    (hall : ∀ c d, IsRun t ys c d → a = c ∧ a + (n + 1) = d) :
    OnePerRun t ys (bestPlaces (fun y z => z < y) ys (List.range' a (n + 1))) ↔ StartsHighest ys a (a + (n + 1)) := by
  have hranges := ranges_range'_append a n []
  rw [List.append_nil, rangesFrom, List.append_nil] at hranges
  have hlen : a + n < ys.length := (hrun.above (a + n) (by omega) (by omega)).lt_length
  have hfirst : a ∈ bestPlaces (fun y z => z < y) ys (List.range' a (n + 1)) := by
    refine mem_bestPlaces.2 ⟨by omega, (a, a), ?_, if_pos rfl⟩
    rw [hranges]
    exact List.mem_map_of_mem (List.mem_range'_1.2 (by omega))
  constructor
  · intro h
    obtain ⟨i, hi, hmax⟩ := h.one _ _ hrun
    obtain rfl := (hi a).1 ⟨hfirst, le_rfl, hrun.lt⟩
    exact hmax
  · intro hhigh
    have honly : ∀ i ∈ bestPlaces (fun y z => z < y) ys (List.range' a (n + 1)), i = a := by
      intro i hi
      obtain ⟨-, range, hrange, rfl⟩ := mem_bestPlaces.1 hi
      rw [hranges] at hrange
      obtain ⟨h, hh, rfl⟩ := List.mem_map.1 hrange
      obtain ⟨hlow, hh⟩ := List.mem_range'_1.1 hh
      exact bestInRange_eq hhigh hlen hlow hh
    refine ⟨fun i hi => ⟨a, _, hrun, ?_⟩, fun c d hcd => ⟨a, fun j => ⟨fun hj => honly j hj.1, ?_⟩, ?_⟩⟩
    · obtain rfl := honly i hi
      exact ⟨le_rfl, hrun.lt⟩
    · obtain ⟨rfl, rfl⟩ := hall c d hcd
      rintro rfl
      exact ⟨hfirst, le_rfl, hrun.lt⟩
    · obtain ⟨rfl, rfl⟩ := hall c d hcd
      exact hhigh

/-- With a second run the search reports the place behind the first one, or nothing of the second one, if it is a single
place at the end. -/
theorem not_onePerRun_append {b d : Nat} (r : List Nat) (hrun : IsRun t ys a (a + (n + 1))) (hab : a + (n + 1) < b)
    (hsecond : IsRun t ys b d) :
    ¬ OnePerRun t ys (bestPlaces (fun y z => z < y) ys (List.range' a (n + 1) ++ b :: r)) := by
  intro h
  have hranges := ranges_range'_append a n (b :: r)
  rw [rangesFrom, RangeState.add, if_pos rfl, if_neg (by simp only; omega)] at hranges
  cases r with
  | nil =>
    obtain ⟨i, hi, -⟩ := h.one _ _ hsecond
    obtain ⟨hplace, hbi, -⟩ := (hi i).2 rfl
    obtain ⟨-, range, hrange, rfl⟩ := mem_bestPlaces.1 hplace
    obtain ⟨high, hlow, hhigh, rfl⟩ : ∃ high, a ≤ high ∧ high ≤ a + n ∧ range = (a, high) := by
      rw [hranges, List.mem_append, List.mem_map] at hrange
      rcases hrange with ⟨high, hmem, rfl⟩ | hlast
      · have := List.mem_range'_1.1 hmem
        exact ⟨high, by omega, by omega, rfl⟩
      · exact ⟨a + n, by omega, le_rfl, by simpa [rangesFrom] using hlast⟩
    have := bestInRange_le (fun y z : α => decide (z < y)) ys hlow
    omega
  | cons c r =>
    have hplace : a + n + 1 ∈ bestPlaces (fun y z => z < y) ys (List.range' a (n + 1) ++ b :: c :: r) := by
      have hlen := (hsecond.above b le_rfl hsecond.lt).lt_length
      refine mem_bestPlaces.2 ⟨by omega, (a + n + 1, a + n + 1), ?_, if_pos rfl⟩
      rw [hranges]
      simp [rangesFrom, RangeState.add]
    obtain ⟨c, d, hcd, hlow, hhigh⟩ := h.inside _ hplace
    exact hrun.right (hcd.above _ hlow hhigh)

/-- **When the search reports one peak per run**: exactly when there is at most one run above the threshold, and it is
nowhere higher than where it starts. -/
theorem onePerRun_bestPlaces_iff (t : α) (ys : List α) :
    OnePerRun t ys (bestPlaces (fun y z => z < y) ys (placesWhere (fun y => t < y) ys)) ↔
      (∀ a b c d, IsRun t ys a b → IsRun t ys c d → a = c) ∧ ∀ a b, IsRun t ys a b → StartsHighest ys a b := by
  have hmem (i : Nat) : i ∈ placesWhere (fun y => t < y) ys ↔ Above t ys i := mem_placesWhere
  have hsorted : (placesWhere (fun y => t < y) ys).Pairwise (· < ·) := List.pairwise_lt_range.filter _
  generalize placesWhere (fun y => decide (t < y)) ys = places at hmem hsorted ⊢
  cases places with
  | nil =>
    have hnone (a b : Nat) : ¬ IsRun t ys a b := fun h => by simpa using (hmem a).2 (h.above a le_rfl h.lt)
    refine ⟨fun _ => ⟨fun a b _ _ h => absurd h (hnone a b), fun a b h => absurd h (hnone a b)⟩, fun _ => ⟨?_, ?_⟩⟩
    · intro i hi
      obtain ⟨-, range, hrange, -⟩ := mem_bestPlaces.1 hi
      cases hrange
    · exact fun a b h => absurd h (hnone a b)
  | cons a r =>
    obtain ⟨n, rest, heq, hrest⟩ := exists_range'_append hsorted
    rw [heq] at hmem hsorted ⊢
    have hrun : IsRun t ys a (a + (n + 1)) := isRun_range' [] rest hmem (by simp) hrest
    cases rest with
    | nil =>
      rw [List.append_nil] at hmem ⊢
      have hall (c d : Nat) (hcd : IsRun t ys c d) : a = c ∧ a + (n + 1) = d := by
        have hc := List.mem_range'_1.1 ((hmem c).2 (hcd.above c le_rfl hcd.lt))
        exact hrun.eq_of_mem hcd hc.1 hc.2
      rw [onePerRun_range' hrun hall]
      refine ⟨fun hhigh => ⟨fun c d e f hcd hef => (hall c d hcd).1.symm.trans (hall e f hef).1, fun c d hcd => ?_⟩,
        fun h => h.2 _ _ hrun⟩
      obtain ⟨rfl, rfl⟩ := hall c d hcd
      exact hhigh
    | cons b r =>
      obtain ⟨m, rest, heq', hrest'⟩ := exists_range'_append (List.pairwise_append.1 hsorted).2.1
      have hab : a + (n + 1) < b := hrest b List.mem_cons_self
      have hsecond : IsRun t ys b (b + (m + 1)) := by
        refine isRun_range' (List.range' a (n + 1)) rest (heq' ▸ hmem) (fun j hj => ?_) hrest'
        have := List.mem_range'_1.1 hj
        omega
      exact ⟨fun h => absurd h (not_onePerRun_append r hrun hab hsecond),
        fun h => absurd (h.1 _ _ _ _ hrun hsecond) (by omega)⟩

/-- A run that rises to its end: its two first places are reported, and not the last one. -/
theorem rising_run_fails : IsRun (0 : ℤ) [0, 0, 1, 2, 3] 2 5 ∧ ¬ OnePerRun (0 : ℤ) [0, 0, 1, 2, 3]
    (bestPlaces (fun y z => z < y) [0, 0, 1, 2, (3 : ℤ)] (placesWhere (fun y => 0 < y) [0, 0, 1, 2, (3 : ℤ)])) := by
  have hrun : IsRun (0 : ℤ) [0, 0, 1, 2, 3] 2 5 :=
    isRun_range' (a := 2) (n := 2) [] [] (fun i => by rw [← mem_placesWhere]; exact Iff.rfl) (by simp) (by simp)
  refine ⟨hrun, fun h => ?_⟩
  obtain ⟨i, hi, -⟩ := h.one 2 5 hrun
  have htwo := (hi 2).1 (by decide)
  have hthree := (hi 3).1 (by decide)
  omega

end Main

end QubitLab.Spectrum
