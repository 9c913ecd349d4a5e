import Mathlib.Algebra.BigOperators.Intervals
import Mathlib.Algebra.Order.Field.Basic
import Mathlib.Data.List.Sort
import Mathlib.Data.Rat.Sqrt
import QubitLab.Proofs.Elimination
import QubitLab.Spectrum.Search

/-!
# Dips as mirrored peaks

Data turned over have their dips as peaks. A percentile counts from the other end then, a mean changes its sign and a
deviation stays (`Background.Odd`; `exactBackground` is such for every root and every window), so the thresholds are mirrored
and the same places stand out (`peakPlaces_neg`). What is found as a peak in the data turned over is a dip of the data at the
same place, with the same width and the value negated (`peaks?_neg`), but the main width of the dips is taken from the
shallowest one. `look_neg`: so the dips are mirrored peaks exactly when that one is as wide as the deepest.
-/

namespace QubitLab.Spectrum

/-! ## Changed data -/

section Map

variable {α : Type} (f : α → α) (beats : α → α → Bool)

theorem bestFrom_map (best : α) (place i : Nat) (xs : List α) :
    bestFrom beats (f best) place i (xs.map f) = bestFrom (fun y z => beats (f y) (f z)) best place i xs := by
  induction xs generalizing best place i with
  | nil => rfl
  | cons x xs ih => rw [List.map_cons, bestFrom, bestFrom, ih, ih]

theorem bestOf_map (xs : List α) : bestOf beats (xs.map f) = bestOf (fun y z => beats (f y) (f z)) xs := by
  cases xs with
  | nil => rfl
  | cons x xs => exact bestFrom_map f beats x 0 1 xs

theorem bestPlaces_map (ys : List α) (places : List Nat) :
    bestPlaces beats (ys.map f) places = bestPlaces (fun y z => beats (f y) (f z)) ys places := by
  have hrange : bestInRange beats (ys.map f) = bestInRange (fun y z => beats (f y) (f z)) ys := by
    funext range
    rw [bestInRange, bestInRange, ← List.map_take, ← List.map_drop, bestOf_map]
  rw [bestPlaces, bestPlaces, hrange, List.length_map]

theorem placesWhere_map (p : α → Bool) (ys : List α) : placesWhere p (ys.map f) = placesWhere (fun y => p (f y)) ys := by
  simp [placesWhere, Option.any_map]

theorem mirrored_map (m : Nat) (ys : List α) : mirrored m (ys.map f) = (mirrored m ys).map f := by
  simp [mirrored, List.map_take]

end Map

/-! ## Data turned over -/

section Neg

variable {α : Type} [Field α]

theorem dot_neg (xs ys : List α) : Signal.dot (xs.map Neg.neg) ys = -Signal.dot xs ys := by
  have hget (i : Nat) : (xs.map Neg.neg).getD i 0 = -xs.getD i 0 := by
    rw [← neg_zero, List.getD_map, neg_zero]
  simp only [Matrix.dot_eq_sum, hget, neg_mul, Finset.sum_neg_distrib]

theorem mean_neg (ys : List α) : Signal.mean (ys.map Neg.neg) = -Signal.mean ys := by
  rw [Signal.mean, Signal.mean, Signal.total_eq_sum, Signal.total_eq_sum, ← List.sum_neg, List.length_map, neg_div]

theorem smooth_neg (weights : Option (Nat → List α)) (m : Int) (ys : List α) :
    smooth weights m (ys.map Neg.neg) = (smooth weights m ys).map (List.map Neg.neg) := by
  have hsmoothed (w : List α) (m : Nat) : smoothed w m (ys.map Neg.neg) = (smoothed w m ys).map Neg.neg := by
    simp only [smoothed, mirrored_map, List.length_map, ← List.map_drop, ← List.map_take, dot_neg, ← List.map_reverse]
    simp only [List.map_drop, List.map_reverse, List.map_map, Function.comp_def]
  simp only [smooth, hsmoothed, List.length_map]
  generalize (if m % 2 = 0 then m + 1 else m) = m
  split
  · rfl
  split
  · rfl
  cases weights with
  | none => rfl
  | some w => rfl

end Neg

variable {α : Type} [Field α] [LinearOrder α] [IsStrictOrderedRing α] {b : Background α}

/-- The dips of data as the peaks of the data turned over; the main peak gives the main width. -/
def Extremes.mirrored (e : Extremes α) : Extremes α := { e with values := e.values.map Neg.neg, mainWidth := e.main }

theorem extremes?_neg (xs ys : List α) (places : List Nat) :
    extremes? (fun y z => z < y) (fun y z => z < y) xs (ys.map Neg.neg) places =
      (extremes? (fun y z => y < z) (fun y z => z < y) xs ys places).map Extremes.mirrored := by
  have hvalues (ps : List Nat) : (ps.filterMap fun p => (ys.map Neg.neg)[p]?) =
      (ps.filterMap fun p => ys[p]?).map Neg.neg := by
    simp [List.map_filterMap]
  simp only [extremes?, bestPlaces_map, neg_lt_neg_iff, hvalues]
  cases ((bestPlaces (fun y z => decide (y < z)) ys places).zip
    (List.range (bestPlaces (fun y z => decide (y < z)) ys places).length)).mapM fun x => widthAt? xs x.2 x.1 with
  | none => rfl
  | some widths =>
    simp only [Option.bind_eq_bind, Option.bind_some]
    split
    · rfl
    · simp [Extremes.mirrored, bestOf_map]

/-- Statistics that are mirrored when the data are turned over. -/
structure Background.Odd (b : Background α) : Prop where
  percentile_neg : ∀ p ys, 0 ≤ p → p ≤ 100 → b.percentile p (ys.map Neg.neg) = -b.percentile (100 - p) ys
  mean_neg : ∀ ys, b.mean (ys.map Neg.neg) = -b.mean ys
  deviation_neg : ∀ ys, b.deviation (ys.map Neg.neg) = b.deviation ys

theorem peakPlaces_neg (hb : b.Odd) {p : α} (hp : 0 ≤ p ∧ p ≤ 100) (sigmas : α) (ys : List α) :
    peakPlaces b p sigmas (ys.map Neg.neg) = dipPlaces b 100 p sigmas ys := by
  have hlow (limit : α) : (ys.map Neg.neg).filter (fun y => y < -limit) =
      (ys.filter fun y => limit < y).map Neg.neg := by
    simp [List.filter_map, Function.comp_def]
  have hthreshold (m d : α) : -m + sigmas * d = -(m - sigmas * d) := by ring
  rw [peakPlaces, dipPlaces]
  simp only [hb.percentile_neg p ys hp.1 hp.2, hlow, hb.mean_neg, hb.deviation_neg, hthreshold, placesWhere_map, neg_lt_neg_iff]

theorem peaks?_neg (hb : b.Odd) {p : α} (hp : 0 ≤ p ∧ p ≤ 100) (sigmas : α) (xs ys : List α) :
    peaks? b p sigmas xs (ys.map Neg.neg) = (dips? b 100 p sigmas xs ys).map (Option.map Extremes.mirrored) := by
  rw [peaks?, dips?, peakPlaces_neg hb hp]
  cases dipPlaces b 100 p sigmas ys with
  | nil => rfl
  | cons i r =>
    simp only [extremes?_neg, Option.map_map]
    rfl

/-! ## Mirrored dips -/

def Feature.opposite : Feature → Feature
  | .peak => .dip
  | .dip => .peak

/-- What is reported of the dips is what is reported of the peaks, with the values negated. -/
structure Mirrors (d p : Extremes α) : Prop where
  places : d.places = p.places
  main : d.mainPlace = p.mainPlace
  values : d.values = p.values.map Neg.neg
  widths : d.widths = p.widths
  width : d.width = p.width

omit [LinearOrder α] [IsStrictOrderedRing α] in
theorem mirrors_mirrored_iff (d : Extremes α) : Mirrors d d.mirrored ↔ d.width = d.widths.getD d.main 0 := by
  refine ⟨fun h => h.width, fun h => ⟨rfl, rfl, ?_, rfl, h⟩⟩
  simp [Extremes.mirrored]

/-- What a search in the data turned over finds as peaks, or the fault it ends with. -/
theorem map_peaks_look_neg (hb : b.Odd) (s : Settings α) (key : Option Feature) (xs ys : List α) :
    (look b s (key.map Feature.opposite) xs (ys.map Neg.neg)).map Findings.peaks =
      (look b s key xs ys).map fun found => found.dips.map Extremes.mirrored := by
  cases hsmooth : smooth (some b.weights) s.window ys with
  | error e => simp [look, smooth_neg, hsmooth, Except.map, Except.mapError, bind, Except.bind]
  | ok zs =>
    by_cases hp : 0 ≤ s.percent ∧ s.percent ≤ 100
    · have hpeaks := peaks?_neg hb hp s.sigmas xs zs
      -- the same for the peaks of the data, which are needed only to see that both searches fail together
      have hdips := peaks?_neg hb hp s.sigmas xs (zs.map Neg.neg)
      rw [List.map_map, neg_comp_neg, List.map_id] at hdips
      cases hd : dips? b 100 s.percent s.sigmas xs zs <;>
        cases hd' : dips? b 100 s.percent s.sigmas xs (zs.map Neg.neg) <;> rcases key with _ | _ | _ <;>
        simp [look, smooth_neg, hsmooth, hp, hpeaks, hdips, hd, hd', orFail, fail, Feature.opposite, Except.map, Except.mapError,
          bind, Except.bind, pure, Except.pure]
    · have hp' : s.percent < 0 ∨ 100 < s.percent := by simpa only [not_and_or, not_le] using hp
      simp [look, smooth_neg, hsmooth, hp', fail, Except.map, Except.mapError, bind, Except.bind]

/-- **When dips are mirrored peaks**: a search in the data turned over ends with the same fault or finds the dips as peaks,
and these are mirrored in all that is reported exactly when the main width of the dips is that of the deepest. -/
theorem look_neg (hb : b.Odd) (s : Settings α) (key : Option Feature) (xs ys : List α) :
    (look b s (key.map Feature.opposite) xs (ys.map Neg.neg)).map Findings.peaks =
      ((look b s key xs ys).map fun found => found.dips.map Extremes.mirrored) ∧
    ∀ found, look b s key xs ys = .ok found →
      ∃ found', look b s (key.map Feature.opposite) xs (ys.map Neg.neg) = .ok found' ∧
        (Option.Rel Mirrors found.dips found'.peaks ↔ ∀ d ∈ found.dips, d.width = d.widths.getD d.main 0) := by
  have hlook := map_peaks_look_neg hb s key xs ys
  refine ⟨hlook, fun found h => ?_⟩
  rw [h] at hlook
  cases h' : look b s (key.map Feature.opposite) xs (ys.map Neg.neg) with
  | error e =>
    rw [h'] at hlook
    cases hlook
  | ok found' =>
    rw [h'] at hlook
    have hpeaks : found'.peaks = found.dips.map Extremes.mirrored := Except.ok.inj hlook
    refine ⟨found', rfl, ?_⟩
    rw [hpeaks]
    cases found.dips with
    | none => simp
    | some d => simp [mirrors_mirrored_iff]

/-! ## Exact statistics -/

/-- Statistics in exact arithmetic, with a root for the deviation. A percentile is the sum of the sorted data, each
weighted by how near it is to the place, so it lies between two neighbours in proportion. -/
def exactBackground (root : α → α) (weights : Nat → List α) : Background α where
  percentile p ys :=
    let place := p / 100 * (ys.length - 1 : α)
    Signal.dot ((List.range ys.length).map fun (i : Nat) => max 0 (1 - |place - (i : α)|)) (ys.insertionSort (· ≤ ·))
  mean := Signal.mean
  deviation ys := root (Signal.mean (ys.map fun y => (y - Signal.mean ys) * (y - Signal.mean ys)))
  weights := weights

theorem insertionSort_neg (ys : List α) :
    (ys.map Neg.neg).insertionSort (· ≤ ·) = ((ys.insertionSort (· ≤ ·)).map Neg.neg).reverse := by
  have hsorted : ((ys.insertionSort (· ≤ ·)).map Neg.neg).reverse.Pairwise (· ≤ ·) := by
    rw [List.pairwise_reverse, List.pairwise_map]
    exact (List.pairwise_insertionSort (· ≤ ·) ys).imp neg_le_neg
  refine List.Perm.eq_of_pairwise' (List.pairwise_insertionSort (· ≤ ·) _) hsorted ?_
  exact (List.perm_insertionSort _ _).trans (((List.perm_insertionSort _ ys).map _).symm.trans (List.reverse_perm _).symm)

theorem percentile_neg (root : α → α) (weights : Nat → List α) (p : α) (ys : List α) :
    (exactBackground root weights).percentile p (ys.map Neg.neg) =
      -(exactBackground root weights).percentile (100 - p) ys := by
  simp only [exactBackground, insertionSort_neg, List.length_map, Matrix.dot_eq_sum, List.length_insertionSort]
  -- the sorted data come in reverse order, and the place is as far from the other end
  rw [← Finset.sum_range_reflect, ← Finset.sum_neg_distrib]
  refine Finset.sum_congr rfl fun i hi => ?_
  have hi := Finset.mem_range.1 hi
  have hlast : ((ys.length - 1 - i : Nat) : α) = ys.length - 1 - i := by
    rw [Nat.cast_sub (by omega), Nat.cast_sub (by omega), Nat.cast_one]
  have hplace : |(100 - p) / 100 * (ys.length - 1 : α) - i| = |p / 100 * (ys.length - 1 : α) - (ys.length - 1 - i)| := by
    rw [← abs_neg]
    congr 1
    field_simp
    ring
  have hback : ys.length - 1 - (ys.length - 1 - i) = i := by omega
  have hlt : ys.length - 1 - i < ys.length := by omega
  simp [List.getD_eq_getElem?_getD, hi, hlt, hlast, hplace, hback]

theorem exactBackground_odd (root : α → α) (weights : Nat → List α) : (exactBackground root weights).Odd := by
  refine ⟨fun p ys _ _ => percentile_neg root weights p ys, mean_neg, fun ys => ?_⟩
  simp only [exactBackground, mean_neg, List.map_map]
  congr 3
  funext y
  simp only [Function.comp_apply]
  ring

/-- A deep dip, and one that is less deep. -/
def twoDips : List ℚ := [0, 0, 0, -9, 0, 1, -2, -4, -2, 2, 0]

def lookExact (ys : List ℚ) : Attempt (Findings ℚ) :=
  look (exactBackground Rat.sqrt fun _ => []) ⟨20, 5, 0⟩ none [0, 1, 2, 3, 4, 5, 6, 7, 8, 9, 10] ys

theorem look_neg_twoDips : ∃ found, lookExact twoDips = .ok found ∧ ∃ found', lookExact (twoDips.map Neg.neg) = .ok found' ∧
    (Option.Rel Mirrors found.dips found'.peaks ↔ ∀ d ∈ found.dips, d.width = d.widths.getD d.main 0) := by
  have hok : (lookExact twoDips).isOk = true := by decide +kernel
  cases h : lookExact twoDips with
  | ok found => exact ⟨found, rfl, (look_neg (exactBackground_odd Rat.sqrt _) ⟨20, 5, 0⟩ none _ twoDips).2 found h⟩
  | error e =>
    rw [h] at hok
    cases hok

/-- The width of the main dip is not that of the main peak in the data turned over. -/
theorem twoDips_width : ((lookExact twoDips).toOption.bind Findings.dips).map Extremes.width = some (4 / 5) ∧
    ((lookExact (twoDips.map Neg.neg)).toOption.bind Findings.peaks).map Extremes.width = some (2 / 5) := by
  decide +kernel

end QubitLab.Spectrum
