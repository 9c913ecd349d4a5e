import QubitLab.Proofs.Outcome
import QubitLab.Qasm.Hardware
import Mathlib.Data.List.GetD
import Mathlib.Data.List.Perm.Basic

/-!
# Grids as collections of timed events

`timed grid` lists the events of a grid with the times of their points. All passes over grids are described by
what they do to this list: `addEvents` adds its events at its time and keeps all others (`timed_addEvents`),
wherever the search ends.
-/

namespace QubitLab.Qasm

open List

/-! ## The events of a grid -/

variable {ε : Type}

/-- The events of a grid with the times of their points. -/
def timed (grid : Grid ε) : List (Int × ε) := grid.flatMap fun p => p.events.map fun e => (p.time, e)

@[simp] theorem timed_nil : timed ([] : Grid ε) = [] := rfl

@[simp] theorem timed_cons (p : TimePoint ε) (g : Grid ε) :
    timed (p :: g) = (p.events.map fun e => (p.time, e)) ++ timed g := by simp [timed]

@[simp] theorem timed_append (g h : Grid ε) : timed (g ++ h) = timed g ++ timed h := by simp [timed]

variable {g : Grid ε}

theorem mem_timed {x : Int × ε} : x ∈ timed g ↔ ∃ p ∈ g, p.time = x.1 ∧ x.2 ∈ p.events := by
  obtain ⟨t, e⟩ := x
  simp only [timed, mem_flatMap, mem_map, Prod.mk.injEq]
  constructor
  · rintro ⟨p, hp, a, ha, ht, rfl⟩
    exact ⟨p, hp, ht, ha⟩
  · rintro ⟨p, hp, ht, he⟩
    exact ⟨p, hp, e, he, ht, rfl⟩

theorem addEvents_cases (g : Grid ε) (t : Int) (es : List ε) :
    (∃ a p b, g = a ++ p :: b ∧ p.time = t ∧
      addEvents g t es = a ++ { p with events := p.events ++ es } :: b) ∨
    (∃ a b, g = a ++ b ∧ addEvents g t es = a ++ { time := t, events := es } :: b) := by
  unfold addEvents
  rcases h : searchPoint g t with ⟨i, found⟩
  cases found with
  | false => exact .inr ⟨g.take i, g.drop i, (take_append_drop i g).symm, rfl⟩
  | true =>
    simp only [searchPoint, Prod.mk.injEq, Bool.and_eq_true, bne_iff_ne] at h
    obtain ⟨rfl, -, hp⟩ := h
    set i := bisect (g.map (·.time)) t g.length 0 g.length
    obtain ⟨p, hp, ht⟩ : ∃ p, g[i - 1]? = some p ∧ p.time = t := by
      cases hg : g[i - 1]? with
      | none => simp [hg] at hp
      | some p => exact ⟨p, rfl, by simpa [hg] using hp⟩
    obtain ⟨hi, rfl⟩ := List.getElem?_eq_some_iff.1 hp
    refine .inl ⟨g.take (i - 1), g[i - 1], g.drop (i - 1 + 1), ?_, ht, ?_⟩
    · rw [getElem_cons_drop, take_append_drop]
    · show appendAt g (i - 1) es = _
      unfold appendAt
      rw [modify_eq_take_cons_drop hi]

theorem timed_addEvents (g : Grid ε) (t : Int) (es : List ε) :
    (timed (addEvents g t es)).Perm (timed g ++ es.map fun e => (t, e)) := by
  rcases addEvents_cases g t es with ⟨a, p, b, rfl, rfl, h⟩ | ⟨a, b, rfl, h⟩
  · rw [h]
    simp only [timed_append, timed_cons, map_append, append_assoc]
    exact (perm_append_comm.append_left _).append_left _
  · rw [h]
    simp only [timed_append, timed_cons, append_assoc]
    exact perm_append_comm.append_left _

/-! ## Grids in time order -/

/-- No point comes before the one in front of it. -/
def Ordered (g : Grid ε) : Prop := g.Pairwise fun p q => p.time ≤ q.time

/-- Halving a sorted list ends between the times that are not later and those that are. -/
theorem bisect_spec {times : List Int} {t : Int} (hs : times.Pairwise (· ≤ ·)) : ∀ {n lo hi : Nat}, lo ≤ hi →
    hi ≤ times.length → hi - lo ≤ n → (∀ i < lo, times.getD i 0 ≤ t) →
    (∀ i, hi ≤ i → i < times.length → t < times.getD i 0) →
    bisect times t n lo hi ≤ times.length ∧ (∀ i < bisect times t n lo hi, times.getD i 0 ≤ t) ∧
      ∀ i, bisect times t n lo hi ≤ i → i < times.length → t < times.getD i 0
  | 0, lo, hi, hle, hhi, hn, hlo, hgt => by
    rw [bisect]
    exact ⟨by omega, hlo, fun i hi' => hgt i (by omega)⟩
  | n + 1, lo, hi, hle, hhi, hn, hlo, hgt => by
    have mono {i j : Nat} (hij : i ≤ j) (hj : j < times.length) : times.getD i 0 ≤ times.getD j 0 := by
      rcases Nat.eq_or_lt_of_le hij with rfl | hij
      · exact Int.le_refl _
      · rw [getD_eq_getElem _ _ (by omega), getD_eq_getElem _ _ hj]
        exact pairwise_iff_getElem.1 hs i j (by omega) hj hij
    rw [bisect]
    split
    · simp only
      split
      · rename_i hmid
        refine bisect_spec hs (by omega) (by omega) (by omega) hlo fun i h1 h2 => ?_
        have := mono h1 h2
        omega
      · rename_i hmid
        refine bisect_spec hs (by omega) hhi (by omega) (fun i h1 => ?_) hgt
        have := mono (i := i) (j := (lo + hi) / 2) (by omega) (by omega)
        omega
    · exact ⟨by omega, hlo, fun i hi' => hgt i (by omega)⟩

/-- Where a search for a time may end: every point from there on is later, and the point in front has the time, or else
all points in front are earlier. -/
structure Located (g : Grid ε) (t : Int) (i : Nat) (found : Bool) : Prop where
  le : i ≤ g.length
  behind : ∀ q ∈ g.drop i, t < q.time
  hit : found = true → ∃ p, 0 < i ∧ g[i - 1]? = some p ∧ p.time = t
  miss : found = false → ∀ q ∈ g.take i, q.time < t

theorem searchPoint_located (hg : Ordered g) (t : Int) : Located g t (searchPoint g t).1 (searchPoint g t).2 := by
  have hs : (g.map (·.time)).Pairwise (· ≤ ·) := pairwise_map.2 hg
  obtain ⟨hk, hle, hgt⟩ := @bisect_spec _ t hs g.length 0 g.length (by omega) (by simp)
    (by omega) (by omega) fun i h1 h2 => absurd h2 (by simp; omega)
  unfold searchPoint
  generalize bisect (g.map (·.time)) t g.length 0 g.length = k at hk hle hgt
  rw [length_map] at hk
  have hget {i : Nat} (hi : i < g.length) : (g.map (·.time)).getD i 0 = g[i].time := by
    rw [getD_eq_getElem _ _ (by simpa using hi), getElem_map]
  dsimp only
  refine ⟨hk, fun q hq => ?_, fun hfound => ?_, fun hfound q hq => ?_⟩
  · obtain ⟨i, hi, rfl⟩ := mem_iff_getElem.1 hq
    rw [length_drop] at hi
    have := hgt (k + i) (by omega) (by simp; omega)
    rw [hget (by omega)] at this
    simpa using this
  · simp only [Bool.and_eq_true, bne_iff_ne] at hfound
    cases hp : g[k - 1]? with
    | none => simp [hp] at hfound
    | some p => exact ⟨p, by omega, rfl, by simpa [hp] using hfound.2⟩
  · -- the last point of the front is earlier, so all are
    obtain ⟨i, hi, rfl⟩ := mem_iff_getElem.1 hq
    rw [length_take] at hi
    have hlast : g[k - 1].time ≠ t := by
      have hk0 : k ≠ 0 := by omega
      simpa [getElem?_eq_getElem (show k - 1 < g.length by omega), hk0] using hfound
    have hkt := hle (k - 1) (by omega)
    rw [hget (by omega)] at hkt
    have hik : g[i].time ≤ g[k - 1].time := by
      rcases Nat.eq_or_lt_of_le (show i ≤ k - 1 by omega) with rfl | h
      · exact Int.le_refl _
      · exact pairwise_iff_getElem.1 hg i (k - 1) (by omega) (by omega) h
    rw [getElem_take]
    omega

/-- What `addEvents` does in an ordered grid: the points behind the events are later, and those in front of a
new point are earlier. -/
theorem addEvents_ordered (hg : Ordered g) (t : Int) (es : List ε) :
    ((searchPoint g t).2 = true ∧ ∃ a p b, g = a ++ p :: b ∧ p.time = t ∧ (∀ q ∈ b, t < q.time) ∧
      addEvents g t es = a ++ { p with events := p.events ++ es } :: b) ∨
    ((searchPoint g t).2 = false ∧ ∃ a b, g = a ++ b ∧ (∀ q ∈ a, q.time < t) ∧ (∀ q ∈ b, t < q.time) ∧
      addEvents g t es = a ++ { time := t, events := es } :: b) := by
  have hl := searchPoint_located hg t
  rcases h : searchPoint g t with ⟨k, found⟩
  rw [h] at hl
  cases found with
  | true =>
    obtain ⟨p, hk, hp, hpt⟩ := hl.hit rfl
    obtain ⟨hi, rfl⟩ := List.getElem?_eq_some_iff.1 hp
    have hdrop : g.drop (k - 1 + 1) = g.drop k := by rw [Nat.sub_add_cancel hk]
    refine .inl ⟨rfl, g.take (k - 1), g[k - 1], g.drop k, ?_, hpt, hl.behind, ?_⟩
    · rw [← hdrop, getElem_cons_drop, take_append_drop]
    · rw [addEvents, h, ← hdrop]
      exact modify_eq_take_cons_drop hi
  | false =>
    exact .inr ⟨rfl, g.take k, g.drop k, (take_append_drop k g).symm, hl.miss rfl, hl.behind, by rw [addEvents, h]⟩

/-- Events that come before all of `rest` leave it as it is. -/
theorem addEvents_front {r : Grid ε} (hg : Ordered (g ++ r)) {t : Int} (hr : ∀ q ∈ r, t < q.time) (es : List ε) :
    ∃ g', addEvents (g ++ r) t es = g' ++ r ∧ Ordered (g' ++ r) ∧
      g'.length = (if (searchPoint (g ++ r) t).2 then g.length else g.length + 1) ∧
      (timed g').Perm (timed g ++ es.map fun e => (t, e)) := by
  have htimed {g' : Grid ε} (h : addEvents (g ++ r) t es = g' ++ r) :
      (timed g').Perm (timed g ++ es.map fun e => (t, e)) := by
    have hp := timed_addEvents (g ++ r) t es
    rw [h, timed_append, timed_append, append_assoc] at hp
    refine (perm_append_right_iff (timed r)).1 (hp.trans ?_)
    rw [append_assoc]
    exact perm_append_comm.append_left _
  rcases addEvents_ordered hg t es with ⟨hf, a, p, b, hab, hpt, hb, hadd⟩ | ⟨hf, a, b, hab, ha, hb, hadd⟩
  · -- the point of the events lies in front of the rest
    obtain ⟨m, hgm, hbm⟩ : ∃ m, g = a ++ p :: m ∧ b = m ++ r := by
      rcases append_eq_append_iff.1 hab with ⟨m, rfl, hm⟩ | ⟨m, rfl, hm⟩
      · have := hr p (by rw [hm]; simp)
        omega
      · cases m with
        | nil =>
          have := hr p (by rw [← nil_append r, ← hm]; simp)
          omega
        | cons q m =>
          obtain ⟨rfl, rfl⟩ := List.cons.inj hm
          exact ⟨m, rfl, rfl⟩
    have h : addEvents (g ++ r) t es = (a ++ { p with events := p.events ++ es } :: m) ++ r := by
      rw [hadd, hbm]
      simp
    refine ⟨_, h, ?_, by rw [if_pos hf, hgm]; simp, htimed h⟩
    rw [hgm] at hg
    unfold Ordered at hg ⊢
    rw [append_assoc, cons_append, pairwise_append, pairwise_cons] at hg ⊢
    obtain ⟨h1, ⟨h2, h3⟩, h4⟩ := hg
    refine ⟨h1, ⟨h2, h3⟩, fun x hx y hy => ?_⟩
    rcases mem_cons.1 hy with rfl | hy
    · exact h4 x hx p mem_cons_self
    · exact h4 x hx y (mem_cons_of_mem p hy)
  · obtain ⟨m, hgm, hbm⟩ : ∃ m, g = a ++ m ∧ b = m ++ r := by
      rcases append_eq_append_iff.1 hab with ⟨m, rfl, hm⟩ | ⟨m, rfl, hm⟩
      · cases m with
        | nil => exact ⟨[], by simp, by simpa using hm.symm⟩
        | cons q m =>
          have h1 := hr q (by rw [hm]; simp)
          have h2 := ha q (by simp)
          omega
      · exact ⟨m, rfl, hm⟩
    have h : addEvents (g ++ r) t es = (a ++ { time := t, events := es } :: m) ++ r := by
      rw [hadd, hbm]
      simp
    refine ⟨_, h, ?_, by rw [hf, if_neg (by decide), hgm]; simp; omega, htimed h⟩
    unfold Ordered at hg ⊢
    rw [hab, hbm, pairwise_append] at hg
    rw [append_assoc, cons_append, pairwise_append, pairwise_cons]
    rw [hbm] at hb
    refine ⟨hg.1, ⟨fun q hq => Int.le_of_lt (hb q hq), hg.2.1⟩, fun x hx y hy => ?_⟩
    rcases mem_cons.1 hy with rfl | hy
    · exact Int.le_of_lt (ha x hx)
    · exact hg.2.2 x hx y hy

theorem addEvents_sorted (hg : g.Pairwise fun p q => p.time < q.time) (t : Int) (es : List ε) :
    (addEvents g t es).Pairwise fun p q => p.time < q.time := by
  rcases addEvents_ordered (hg.imp fun h => Int.le_of_lt h) t es with
    ⟨-, a, p, b, rfl, hpt, hb, hadd⟩ | ⟨-, a, b, rfl, ha, hb, hadd⟩
  · rw [hadd]
    rw [pairwise_append, pairwise_cons] at hg ⊢
    obtain ⟨h1, ⟨h2, h3⟩, h4⟩ := hg
    refine ⟨h1, ⟨h2, h3⟩, fun x hx y hy => ?_⟩
    rcases mem_cons.1 hy with rfl | hy
    · exact h4 x hx p mem_cons_self
    · exact h4 x hx y (mem_cons_of_mem p hy)
  · rw [hadd]
    rw [pairwise_append] at hg ⊢
    rw [pairwise_cons]
    refine ⟨hg.1, ⟨hb, hg.2.1⟩, fun x hx y hy => ?_⟩
    rcases mem_cons.1 hy with rfl | hy
    · exact ha x hx
    · exact hg.2.2 x hx y hy

end QubitLab.Qasm
