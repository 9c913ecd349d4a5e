import QubitLab.Proofs.TriggerDivision

/-!
# The division of triggers ends at every point

Where triggers run, the division cuts them in rounds: a round sends one trigger with all running bits and lowers their
counters. `Rounds` is that loop with no bound on its rounds, and `Rounds.divideFrom_eq` makes every bound that is not below their
number give its result. Each round but the last takes the least length away from those that are left
(`card_lengths_lower_lt`), so there are no more rounds than different lengths (`exists_rounds`). `Reached` follows the
walk along the points, whatever bits the triggers set; counters that start at rest are never negative (`Reached.counting`).
-/

namespace QubitLab.Qasm

open List

variable {t fin : Int} {next : Option Int} {c c' : Counters} {grid new new' r : Grid HwEvent}

/-! ## Rounds -/

/-- A round of the loop: the clocks of the trigger it sends, and the counters it leaves. -/
def roundOf (t fin : Int) (next : Option Int) (c : Counters) : Int × Counters :=
  (roundClocks t fin (leastRunning c) next, lower (roundClocks t fin (leastRunning c) next) c)

/-- The loop at a point: from a time, counters and a grid it makes rounds and ends in a result. The last round is one after
which the next trigger starts or nothing runs, or whose trigger is refused, since it sets bit zero. -/
inductive Rounds (t fin : Int) (next : Option Int) :
    Int → Counters → Grid HwEvent → List (Int × Counters) → Step (Grid HwEvent × Counters) → Prop
  | last {now : Int} {c : Counters} {new : Grid HwEvent} {x : Int × Counters} (hx : x = roundOf t fin next c)
      (hend : (0 : Int) ∈ runningBits c ∨ next.any (· ≤ fin) ∨ leastRunning x.2 = 0) :
      Rounds t fin next now c new [x] ((addHw new now (cutOf x.1 c)).map (·, x.2))
  | more {now : Int} {c : Counters} {new : Grid HwEvent} {x : Int × Counters} {rounds : List (Int × Counters)}
      {result : Step (Grid HwEvent × Counters)} (hx : x = roundOf t fin next c)
      (hgo : ¬((0 : Int) ∈ runningBits c ∨ next.any (· ≤ fin) ∨ leastRunning x.2 = 0))
      (h : Rounds t fin next (t + x.1) x.2 (addEvents new now [cutOf x.1 c]) rounds result) :
      Rounds t fin next now c new (x :: rounds) result

namespace Rounds

variable {now : Int} {rounds : List (Int × Counters)} {result : Step (Grid HwEvent × Counters)}

/-- With a bound that allows for the rounds, the loop gives their result. -/
theorem divideFrom_eq (h : Rounds t fin next now c new rounds result) {n : Nat} (hn : rounds.length ≤ n) :
    divideFrom t fin next n now (leastRunning c) c new = result := by
  induction h generalizing n with
  | last hx hend =>
    obtain ⟨m, rfl⟩ : ∃ m, n = m + 1 := ⟨n - 1, by simp only [length_singleton] at hn; omega⟩
    simp only [roundOf] at hx
    subst hx
    rw [divideFrom_succ]
    cases hadd : addHw _ _ (cutOf (roundClocks t fin (leastRunning _) next) _) with
    | error e => simp only [hadd, bind, Except.bind, Except.map]
    | ok g => simp only [hadd, bind, Except.bind, Except.map, if_pos (hend.resolve_left (addHw_ok hadd).2)]
  | more hx hgo _ ih =>
    obtain ⟨m, rfl⟩ : ∃ m, n = m + 1 := ⟨n - 1, by simp only [length_cons] at hn; omega⟩
    subst hx
    obtain ⟨h0, hgo⟩ := not_or.1 hgo
    rw [divideFrom_succ, ← ih (Nat.le_of_succ_le_succ hn)]
    simp only [addHw, cutOf, contains_iff_mem, h0, bind, Except.bind, if_false]
    exact if_neg hgo

/-- The counters of the result are those that the last round left. -/
theorem exists_round (h : Rounds t fin next now c new rounds result) (hr : result = .ok (new', c')) :
    ∃ x ∈ rounds, x.2 = c' := by
  induction h with
  | last =>
    obtain ⟨g, -, hg⟩ := map_eq_ok.1 hr
    exact ⟨_, mem_singleton_self _, congrArg Prod.snd hg⟩
  | more _ _ _ ih =>
    obtain ⟨x, hx, hc⟩ := ih hr
    exact ⟨x, mem_cons_of_mem _ hx, hc⟩

end Rounds

/-! ## Lengths -/

/-- The different lengths for which counters run. -/
def lengths (c : Counters) : Finset Int := c.toFinset.erase 0

theorem mem_lengths {x : Int} : x ∈ lengths c ↔ x ≠ 0 ∧ x ∈ c := by simp [lengths]

theorem mem_lower {d x : Int} : x ∈ lower d c ↔ ∃ y ∈ c, (if y > 0 then y - d else y) = x := mem_map

/-- Eight counters, none below zero. -/
structure Counting (c : Counters) : Prop where
  length : c.length = 8
  nonneg : ∀ x ∈ c, 0 ≤ x

theorem Counting.lower {d : Int} (hc : Counting c) (hd : ∀ x ∈ c, 0 < x → d ≤ x) : Counting (lower d c) := by
  refine ⟨by simpa [Qasm.lower] using hc.length, fun x hx => ?_⟩
  obtain ⟨y, hy, rfl⟩ := mem_lower.1 hx
  have := hc.nonneg y hy
  have := hd y hy
  split <;> omega

theorem Counting.card_lengths_le (hc : Counting c) : (lengths c).card ≤ 8 :=
  (Finset.card_le_card (Finset.erase_subset _ _)).trans ((toFinset_card_le c).trans_eq hc.length)

/-- When the least length has passed, one length less is left. -/
theorem card_lengths_lower_lt (hc : Counting c) (hm : leastRunning c ∈ lengths c) :
    (lengths (lower (leastRunning c) c)).card < (lengths c).card := by
  have hsub : lengths (lower (leastRunning c) c) ⊆ ((lengths c).erase (leastRunning c)).image (· - leastRunning c) := by
    intro x hx
    obtain ⟨hx0, hx⟩ := mem_lengths.1 hx
    obtain ⟨y, hy, rfl⟩ := mem_lower.1 hx
    have := hc.nonneg y hy
    have hpos : y > 0 := by
      by_contra hn
      rw [if_neg hn] at hx0
      omega
    rw [if_pos hpos] at hx0 ⊢
    exact Finset.mem_image_of_mem (· - leastRunning c)
      (Finset.mem_erase.2 ⟨by omega, mem_lengths.2 ⟨by omega, hy⟩⟩)
  calc (lengths (lower (leastRunning c) c)).card
      ≤ ((lengths c).erase (leastRunning c)).card := (Finset.card_le_card hsub).trans Finset.card_image_le
    _ < (lengths c).card := Finset.card_erase_lt_of_mem hm

/-- **The loop ends**: it makes at most as many rounds as there are different lengths, each one sends a trigger for at
least one clock, and none leaves a counter below zero. -/
theorem exists_rounds (hc : Counting c) (hrun : leastRunning c ≠ 0)
    (hnext : ∀ s, next = some s → s ≤ fin → t < s ∧ s - t ≤ leastRunning c) (now : Int) (new : Grid HwEvent) :
    ∃ rounds result, Rounds t fin next now c new rounds result ∧ rounds.length ≤ (lengths c).card ∧
      ∀ x ∈ rounds, 0 < x.1 ∧ Counting x.2 := by
  induction hk : (lengths c).card using Nat.strong_induction_on generalizing c now new with
  | _ k ih =>
    subst hk
    obtain ⟨h0, -⟩ | ⟨hpos, hmem, hle⟩ := leastRunning_cases hc.nonneg
    · exact absurd h0 hrun
    have hm : leastRunning c ∈ lengths c := mem_lengths.2 ⟨hrun, hmem⟩
    have hcard : 1 ≤ (lengths c).card := Finset.card_pos.2 ⟨_, hm⟩
    obtain ⟨x, hx⟩ : ∃ x, x = roundOf t fin next c := ⟨_, rfl⟩
    have hround : 0 < x.1 ∧ Counting x.2 := by
      have hclocks : 0 < x.1 ∧ x.1 ≤ leastRunning c := by
        obtain ⟨s, hs, hsf, -, hcut⟩ | ⟨-, -, hcut⟩ := roundClocks_cases t fin (leastRunning c) next <;>
          rw [hx, roundOf, hcut]
        · have := hnext s hs hsf
          omega
        · omega
      rw [hx] at hclocks ⊢
      exact ⟨hclocks.1, hc.lower fun y hy hy0 => hclocks.2.trans (hle y hy hy0)⟩
    by_cases hend : (0 : Int) ∈ runningBits c ∨ next.any (· ≤ fin) ∨ leastRunning x.2 = 0
    · exact ⟨[x], _, .last hx hend, hcard, by simpa using hround⟩
    · -- no trigger starts by the first end, so the round takes the least length away
      obtain ⟨-, hgo⟩ := not_or.1 hend
      obtain ⟨hnot, hz⟩ := not_or.1 hgo
      obtain ⟨s, -, -, hany, -⟩ | ⟨hon, -, hcut⟩ := roundClocks_cases t fin (leastRunning c) next
      · exact absurd hany hnot
      have hlt : (lengths x.2).card < (lengths c).card := by
        rw [hx, roundOf, hcut]
        exact card_lengths_lower_lt hc hm
      obtain ⟨rounds, result, hrounds, hlen, hall⟩ := ih _ hlt hround.2 hz
        (fun s hs hsf => absurd (hon s hs) (by omega)) (t + x.1) (addEvents new now [cutOf x.1 c]) rfl
      exact ⟨x :: rounds, result, .more hx hend hrounds, hlen.trans_lt hlt, forall_mem_cons.2 ⟨hround, hall⟩⟩

/-! ## The walk along the points -/

/-- What the division of a grid reaches: the points still to do, the grid so far and the counters. -/
inductive Reached (grid : Grid HwEvent) : Grid HwEvent → Grid HwEvent → Counters → Prop
  | start : Reached grid grid [] (List.replicate 8 0)
  | idle {p : TimePoint HwEvent} {r new new₁ : Grid HwEvent} {c c₁ : Counters} (h : Reached grid (p :: r) new c)
      (he : p.events.foldlM (divideEvent p.time) (new, c) = .ok (new₁, c₁)) (hm : maximum c₁ = 0) : Reached grid r new₁ c₁
  | divided {p : TimePoint HwEvent} {r new new₁ new₂ : Grid HwEvent} {c c₁ c₂ : Counters} (h : Reached grid (p :: r) new c)
      (he : p.events.foldlM (divideEvent p.time) (new, c) = .ok (new₁, c₁)) (hm : maximum c₁ ≠ 0)
      (hl : divideFrom p.time (p.time + leastRunning c₁) (nextTrigger? r) 9 p.time (leastRunning c₁) c₁ new₁ =
        .ok (new₂, c₂)) : Reached grid r new₂ c₂

/-- The loop is entered at a point: after the events of the point some counter runs. -/
def Entered (grid : Grid HwEvent) (p : TimePoint HwEvent) (r new : Grid HwEvent) (c : Counters) : Prop :=
  ∃ new₀ c₀, Reached grid (p :: r) new₀ c₀ ∧ p.events.foldlM (divideEvent p.time) (new₀, c₀) = .ok (new, c) ∧
    maximum c ≠ 0

/-- Points with events come after all points in front of them; an end without events may stand at any time. -/
def EventsInOrder (grid : Grid HwEvent) : Prop := grid.Pairwise fun p q => q.events ≠ [] → p.time < q.time

theorem Reached.suffix (h : Reached grid r new c) : r <:+ grid := by
  induction h with
  | start => exact suffix_refl _
  | idle _ _ _ ih => exact (suffix_cons _ _).trans ih
  | divided _ _ _ _ ih => exact (suffix_cons _ _).trans ih

/-- From what is reached the division goes on as from the start. -/
theorem Reached.divideRest_eq (h : Reached grid r new c) :
    divideRest [] (List.replicate 8 0) grid = divideRest new c r := by
  induction h with
  | start => rfl
  | idle _ he hm ih =>
    rw [ih, divideRest, he]
    simp [bind, Except.bind, hm]
  | divided _ he hm hl ih =>
    rw [ih, divideRest, he]
    simp [bind, Except.bind, hm, hl]

/-- The events of a point keep the counters from falling below zero, whatever their bits and clocks. -/
theorem Counting.divideEvents {t : Int} {es : List HwEvent} (hc : Counting c)
    (h : es.foldlM (divideEvent t) (new, c) = .ok (new', c')) : Counting c' := by
  have hraise (e : HwEvent) {c : Counters} (hc : Counting c) : Ends (fun _ => True) Counting (raiseCounters c e) := by
    refine ends_iff.2 ⟨fun c' h => ?_, by simp⟩
    obtain ⟨hl, -, hi⟩ := raiseCounters_getD h
    refine ⟨hl.trans hc.length, fun x hx => ?_⟩
    obtain ⟨i, hlt, rfl⟩ := getElem_of_mem hx
    have := hc.nonneg _ (getElem_mem (hl ▸ hlt))
    have := hi i
    rw [getD_eq_getElem _ _ hlt, getD_eq_getElem _ _ (hl ▸ hlt)] at this
    split at this <;> omega
  have hall : Ends (fun _ => True) (fun st => Counting st.2) (es.foldlM (divideEvent t) (new, c)) := by
    refine Ends.foldlM (fun st hst e _ => ?_) hc
    rw [divideEvent]
    split
    · exact (hraise e hst).bind fun c hc => hc
    · exact Ends.bind (P := fun _ => True) (ends_iff.2 (by simp)) fun g _ => hst
  exact (ends_iff.1 hall).1 _ h

theorem Counting.leastRunning_ne_zero (hc : Counting c) (hm : maximum c ≠ 0) : leastRunning c ≠ 0 := by
  obtain ⟨-, hz⟩ | ⟨hpos, -⟩ := leastRunning_cases hc.nonneg
  · cases c with
    | nil => exact absurd rfl hm
    | cons x l => exact absurd (hz _ (mem_cons.2 (foldl_max_spec l x).1)) hm
  · omega

section
variable (hg : EventsInOrder grid)
include hg

theorem Entered.exists_rounds {p : TimePoint HwEvent} (h : Entered grid p r new c) (hc : Counting c) :
    ∃ rounds result, Rounds p.time (p.time + leastRunning c) (nextTrigger? r) p.time c new rounds result ∧
      rounds.length ≤ (lengths c).card ∧ ∀ x ∈ rounds, 0 < x.1 ∧ Counting x.2 := by
  obtain ⟨new₀, c₀, hr, -, hm⟩ := h
  refine Qasm.exists_rounds hc (hc.leastRunning_ne_zero hm) (fun s hs hsf => ⟨?_, by omega⟩) p.time new
  obtain ⟨q, hq, hqt, rfl⟩ := nextTrigger?_mem hs
  refine (pairwise_cons.1 (Pairwise.sublist hr.suffix.sublist hg)).1 q hq fun hne => hqt ?_
  rw [triggers_point, hne]
  rfl

/-- Along the whole walk no counter falls below zero. -/
theorem Reached.counting (h : Reached grid r new c) : Counting c := by
  induction h with
  | start => exact ⟨rfl, by simp⟩
  | idle _ he _ ih => exact ih.divideEvents he
  | divided h he hm hl ih =>
    have hc := ih.divideEvents he
    obtain ⟨rounds, result, hrounds, hlen, hall⟩ := Entered.exists_rounds hg ⟨_, _, h, he, hm⟩ hc
    have hle := hc.card_lengths_le
    obtain ⟨x, hx, rfl⟩ := hrounds.exists_round ((hrounds.divideFrom_eq (by omega)).symm.trans hl)
    exact (hall x hx).2

/-- **The division ends at every point**: where its walk enters the loop no counter is below zero, and the loop makes at
most as many rounds as there are different lengths to go, each one sends a trigger for at least one clock, and leaves no
counter below zero. The division has their result at that point, and goes on from it. -/
theorem divideTriggers_rounds {p : TimePoint HwEvent} (h : Entered grid p r new c) :
    (∀ y ∈ c, 0 ≤ y) ∧
      ∃ rounds result, Rounds p.time (p.time + leastRunning c) (nextTrigger? r) p.time c new rounds result ∧
        rounds.length ≤ (lengths c).card ∧ (∀ x ∈ rounds, 0 < x.1 ∧ ∀ y ∈ x.2, 0 ≤ y) ∧
        divideTriggers grid = result >>= fun x => do return withEnd grid (← divideRest x.1 x.2 r) := by
  obtain ⟨new₀, c₀, hr, he, hm⟩ := h
  have hc := (hr.counting hg).divideEvents he
  obtain ⟨rounds, result, hrounds, hlen, hall⟩ := Entered.exists_rounds hg ⟨_, _, hr, he, hm⟩ hc
  refine ⟨hc.nonneg, rounds, result, hrounds, hlen, fun x hx => ⟨(hall x hx).1, (hall x hx).2.nonneg⟩, ?_⟩
  have hle := hc.card_lengths_le
  rw [divideTriggers, hr.divideRest_eq, divideRest, he]
  simp only [bind, Except.bind, if_neg hm, hrounds.divideFrom_eq (show rounds.length ≤ 9 by omega)]
  cases result <;> rfl

end

/-- Bits that are set together for three lengths. -/
def threeSteps : TimePoint HwEvent where
  time := -1
  events := [{ name := "trigger", duration := 5, setBits := [1] },
    { name := "trigger", duration := 10, setBits := [2, 3] }, { name := "trigger", duration := 20, setBits := [4] }]

/-- A pulse comes while bits are set, bit zero after them, and the end of the grid lies before both. -/
def staircase : Grid HwEvent :=
  [threeSteps, { time := 7, events := [{ name := "pulse" }] },
    { time := 30, events := [{ name := "trigger", duration := 2, setBits := [0] }] }, { time := 0 }]

theorem divideTriggers_rounds_staircase : EventsInOrder staircase ∧
    Entered staircase threeSteps staircase.tail [] [0, 5, 10, 10, 20, 0, 0, 0] ∧
    ∃ rounds result, Rounds (-1) 4 (some 30) (-1) [0, 5, 10, 10, 20, 0, 0, 0] [] rounds result ∧ rounds.length ≤ 3 := by
  have hg : EventsInOrder staircase := by simp [EventsInOrder, staircase, threeSteps]
  have he : Entered staircase threeSteps staircase.tail [] [0, 5, 10, 10, 20, 0, 0, 0] :=
    ⟨_, _, .start, rfl, by decide⟩
  obtain ⟨-, rounds, result, hr, hlen, -⟩ := divideTriggers_rounds hg he
  exact ⟨hg, he, rounds, result, hr, hlen⟩

end QubitLab.Qasm
