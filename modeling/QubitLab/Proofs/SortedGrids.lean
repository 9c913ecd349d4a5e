import QubitLab.Proofs.Grid

/-!
# Grids as sorted maps

In a grid whose times increase each time has at most one point. Putting events at a time keeps the times increasing and
changes the point of that time only: `pointAt?` after `addEvents` is an update of `pointAt?` before (`addEvents_inserted`).
-/

namespace QubitLab.Qasm

open List

variable {ε : Type} {g : Grid ε}

/-- The times of the points increase. -/
def Increasing (g : Grid ε) : Prop := g.Pairwise fun p q => p.time < q.time

/-- The point of a time. -/
def pointAt? (g : Grid ε) (t : Int) : Option (TimePoint ε) := g.find? (·.time == t)

/-- The point with more events behind its own. -/
def TimePoint.append (p : TimePoint ε) (es : List ε) : TimePoint ε := { p with events := p.events ++ es }

/-- `g'` is the sorted map `g` with `es` put at the time `t`: at the end of the point of that time, which is made where
there is none. -/
structure Inserted (g : Grid ε) (t : Int) (es : List ε) (g' : Grid ε) : Prop where
  increasing : Increasing g'
  points : ∀ u, pointAt? g' u = if u = t then some (((pointAt? g t).getD { time := t }).append es) else pointAt? g u

theorem Increasing.ordered (hg : Increasing g) : Ordered g := hg.imp fun h => Int.le_of_lt h

theorem pointAt?_append (a b : Grid ε) (t : Int) : pointAt? (a ++ b) t = (pointAt? a t).or (pointAt? b t) := find?_append

theorem pointAt?_cons (p : TimePoint ε) (g : Grid ε) (t : Int) :
    pointAt? (p :: g) t = if p.time = t then some p else pointAt? g t := by
  by_cases h : p.time = t
  · simp [pointAt?, h]
  · rw [pointAt?, find?_cons_of_neg (by simpa using h), if_neg h]
    rfl

theorem pointAt?_eq_none {t : Int} (h : ∀ p ∈ g, p.time ≠ t) : pointAt? g t = none :=
  find?_eq_none.2 fun p hp => by simpa using h p hp

/-- Putting events at a time is an insertion into the sorted map. -/
theorem addEvents_inserted (hg : Increasing g) (t : Int) (es : List ε) : Inserted g t es (addEvents g t es) := by
  refine ⟨addEvents_sorted hg t es, fun u => ?_⟩
  rcases addEvents_ordered hg.ordered t es with ⟨-, a, p, b, rfl, rfl, -, hadd⟩ | ⟨-, a, b, rfl, ha, hb, hadd⟩
  · have ha : pointAt? a p.time = none :=
      pointAt?_eq_none fun q hq => Int.ne_of_lt ((pairwise_append.1 hg).2.2 q hq p mem_cons_self)
    simp only [hadd, pointAt?_append, pointAt?_cons]
    by_cases hu : u = p.time
    · simp [hu, ha, TimePoint.append]
    · simp [hu, Ne.symm hu]
  · have hnone : pointAt? (a ++ b) t = none := by
      refine pointAt?_eq_none fun q hq => ?_
      rcases mem_append.1 hq with hq | hq
      · exact Int.ne_of_lt (ha q hq)
      · exact Int.ne_of_gt (hb q hq)
    by_cases hu : u = t
    · have hfront := pointAt?_eq_none fun q hq => Int.ne_of_lt (ha q hq)
      simp [hadd, hu, hnone, pointAt?_append, hfront, pointAt?_cons, TimePoint.append]
    · simp [hadd, hu, Ne.symm hu, pointAt?_append, pointAt?_cons]

/-- A search hits if and only if the point in front of the place where it ends has the time. -/
theorem Located.found_iff {t : Int} {i : Nat} {found : Bool} (h : Located g t i found) :
    found = true ↔ 0 < i ∧ g[i - 1]?.map (·.time) = some t := by
  constructor
  · intro hfound
    obtain ⟨p, hi, hp, rfl⟩ := h.hit hfound
    exact ⟨hi, by rw [hp]; rfl⟩
  · rintro ⟨hi, hp⟩
    by_contra hfound
    obtain ⟨p, hget, rfl⟩ := Option.map_eq_some_iff.1 hp
    obtain ⟨hlt, rfl⟩ := List.getElem?_eq_some_iff.1 hget
    have hmem : g[i - 1] ∈ g.take i := mem_iff_getElem.2 ⟨i - 1, by rw [length_take]; omega, by rw [getElem_take]⟩
    exact Int.lt_irrefl _ (h.miss (by simpa using hfound) _ hmem)

/-- **A grid is a sorted map**: an event that does not set bit zero, or no event, is inserted at its time, and a search for
the time ends behind its point, or where such a point belongs. -/
theorem addHw_inserted {g : Grid HwEvent} (hg : Increasing g) (t : Int) :
    (∀ e : HwEvent, (0 : Int) ∉ e.setBits → ∃ g', addHw g t e = .ok g' ∧ Inserted g t [e] g') ∧
      Inserted g t [] (addEvents g t []) ∧
      ∃ i found, searchPoint g t = (i, found) ∧ i ≤ g.length ∧
        (found = true ↔ 0 < i ∧ g[i - 1]?.map (·.time) = some t) ∧
        (found = false → (∀ p ∈ g.take i, p.time < t) ∧ ∀ p ∈ g.drop i, t < p.time) := by
  refine ⟨fun e he => ⟨addEvents g t [e], ?_, addEvents_inserted hg t [e]⟩, addEvents_inserted hg t [], ?_⟩
  · rw [addHw, if_neg (by simpa using he)]
  · have h := searchPoint_located hg.ordered t
    exact ⟨_, _, rfl, h.le, h.found_iff, fun hfound => ⟨h.miss hfound, h.behind⟩⟩

/-- A grid that starts before time zero. -/
def twoPoints : Grid HwEvent := [{ time := -3, events := [{ name := "pulse" }] }, { time := 4 }]

theorem addHw_inserted_twoPoints :
    Increasing twoPoints ∧ (0 : Int) ∉ ({ name := "trigger", setBits := [2] } : HwEvent).setBits ∧
      ∃ g', addHw twoPoints (-3) { name := "trigger", setBits := [2] } = .ok g' ∧
        Inserted twoPoints (-3) [{ name := "trigger", setBits := [2] }] g' :=
  have hg : Increasing twoPoints := by simp [Increasing, twoPoints]
  ⟨hg, by decide, (addHw_inserted hg (-3)).1 _ (by decide)⟩

end QubitLab.Qasm
