import QubitLab.Proofs.Grid
import Mathlib.Data.Finset.Card
import Mathlib.Data.Finset.Fold

/-!
# When the division of triggers keeps the digital signal

`Signal xs b t`: some trigger of `xs` sets bit `b` at time `t`. `Apart x y`: the two are never on together.
The division is meant to replace the triggers of a grid by triggers that follow each other and set the same bits
at the same times. `divideTriggers_faithful_iff` says for which grids it does (`CleanlyDivisible`): while it walks
along the points, at most two different lengths may be running where it divides to the end, nothing may start
before that end, and where it stops at the next trigger no other point may lie in between.

The proof follows the walk. `Cover front xs ys c`: the triggers `ys` that were made show the signal of the
triggers `xs` up to time `front`, and `c` counts what is left of it from there on. Raising counters (`Cover.raise`)
and making one trigger (`Cover.cut`) keep it; what is made is never taken back (`Extends`), so that two
triggers that overlap at some point of the walk overlap in the result.
-/

namespace QubitLab.Qasm

open List

/-! ## Signals -/

/-- The triggers of a grid with their times. -/
def triggers (grid : Grid HwEvent) : List (Int × HwEvent) :=
  (timed grid).filter fun x => x.2.name == "trigger"

/-- The trigger is on at a time. -/
def On (x : Int × HwEvent) (t : Int) : Prop := x.1 ≤ t ∧ t < x.1 + x.2.duration

/-- Some trigger sets the bit at a time. -/
def Signal (xs : List (Int × HwEvent)) (b t : Int) : Prop := ∃ x ∈ xs, On x t ∧ b ∈ x.2.setBits

instance (x : Int × HwEvent) (t : Int) : Decidable (On x t) := inferInstanceAs (Decidable (_ ∧ _))

instance (xs : List (Int × HwEvent)) (b t : Int) : Decidable (Signal xs b t) :=
  inferInstanceAs (Decidable (∃ x ∈ xs, On x t ∧ b ∈ x.2.setBits))

/-- Two triggers that are never on together. -/
def Apart (x y : Int × HwEvent) : Prop := ∀ t, ¬ (On x t ∧ On y t)

/-- The bits of a trigger are among the seven and its duration is not negative; other events do not
set bit zero. -/
def HwEvent.WellFormed (e : HwEvent) : Prop :=
  if e.name = "trigger" then (∀ b ∈ e.setBits, 1 ≤ b ∧ b ≤ 7) ∧ 0 ≤ e.duration else 0 ∉ e.setBits

/-- Points in time order with events that are well formed, followed by an end point without events. -/
def TriggerGrid (grid : Grid HwEvent) : Prop :=
  ∃ points last, grid = points ++ [last] ∧ last.events = [] ∧
    points.Pairwise (fun p q => p.time < q.time) ∧ ∀ p ∈ points, ∀ e ∈ p.events, e.WellFormed

variable {x : Int × HwEvent} {xs ys zs : List (Int × HwEvent)} {b t s : Int} {p last : TimePoint HwEvent} {e : HwEvent}
  {c c₁ : Counters} {i : Nat} {r new₁ : Grid HwEvent}

theorem Apart.symm {y : Int × HwEvent} (h : Apart x y) : Apart y x := fun t ⟨hy, hx⟩ => h t ⟨hx, hy⟩

theorem Signal.of_perm (h : xs.Perm ys) : Signal xs b t ↔ Signal ys b t := by
  simp only [Signal, h.mem_iff]

theorem signal_append : Signal (xs ++ ys) b t ↔ Signal xs b t ∨ Signal ys b t := by
  simp only [Signal, mem_append, or_and_right, exists_or]

theorem signal_singleton : Signal [x] b t ↔ On x t ∧ b ∈ x.2.setBits := by simp [Signal]

@[simp] theorem triggers_append (g h : Grid HwEvent) : triggers (g ++ h) = triggers g ++ triggers h := by
  simp [triggers]

@[simp] theorem triggers_nil : triggers [] = [] := rfl

theorem triggers_cons (p : TimePoint HwEvent) (g : Grid HwEvent) :
    triggers (p :: g) = triggers [p] ++ triggers g := triggers_append [p] g

theorem triggers_point (p : TimePoint HwEvent) :
    triggers [p] = (p.events.filter fun e => e.name == "trigger").map fun e => (p.time, e) := by
  simp [triggers, filter_map, Function.comp_def]

theorem triggers_point_eq_nil : triggers [p] = [] ↔ (p.events.any fun e => e.name == "trigger") = false := by
  simp [triggers_point]

/-- `zs` holds everything that `ys` holds, and more. -/
def Extends (ys zs : List (Int × HwEvent)) : Prop := ∃ l, zs.Perm (ys ++ l)

theorem Extends.refl (ys : List (Int × HwEvent)) : Extends ys ys := ⟨[], by simp⟩

theorem Extends.trans (h : Extends xs ys) (h' : Extends ys zs) : Extends xs zs := by
  obtain ⟨l, hl⟩ := h
  obtain ⟨l', hl'⟩ := h'
  exact ⟨l ++ l', by simpa using hl'.trans (hl.append_right l')⟩

theorem Extends.of_perm (h : zs.Perm ys) : Extends ys zs :=
  ⟨[], by simpa using h⟩

theorem Extends.append (ys l : List (Int × HwEvent)) : Extends ys (ys ++ l) := ⟨l, .refl _⟩

theorem pairwise_apart_perm (h : ys.Perm zs) :
    ys.Pairwise Apart ↔ zs.Pairwise Apart := h.pairwise_iff fun {_ _} => Apart.symm

/-- A trigger that is made while another one is on spoils the result for good. -/
theorem Extends.not_apart {y : Int × HwEvent}
    (h : Extends (ys ++ [y]) zs) (hx : x ∈ ys) (hxt : On x t) (hyt : On y t) : ¬ zs.Pairwise Apart := by
  obtain ⟨l, hl⟩ := h
  rw [pairwise_apart_perm hl, pairwise_append, pairwise_append]
  rintro ⟨⟨-, -, h⟩, -⟩
  exact h x hx y (mem_singleton_self y) t ⟨hxt, hyt⟩

/-! ## Adding events -/

theorem addHw_eq {g : Grid HwEvent} (h : (0 : Int) ∉ e.setBits) :
    ∃ g', addHw g t e = .ok g' ∧
      (triggers g').Perm (triggers g ++ if e.name = "trigger" then [(t, e)] else []) := by
  refine ⟨addEvents g t [e], by simp [addHw, h], ?_⟩
  refine ((timed_addEvents g t [e]).filter _).trans ?_
  by_cases he : e.name = "trigger" <;> simp [triggers, he]

theorem addHw_ok {g g' : Grid HwEvent} (h : addHw g t e = .ok g') : g' = addEvents g t [e] ∧ (0 : Int) ∉ e.setBits := by
  rw [addHw] at h
  split at h
  · cases h
  · rename_i h0
    cases h
    exact ⟨rfl, by simpa using h0⟩

/-! ## Counters -/

/-- Eight counters, none negative, that of bit zero at rest. -/
structure CountersOk (c : Counters) : Prop where
  length : c.length = 8
  zero : c.getD 0 0 = 0
  nonneg : ∀ i, 0 ≤ c.getD i 0

/-- No counter runs. -/
def Idle (c : Counters) : Prop := ∀ i, c.getD i 0 = 0

/-- The counters `d` clocks later. -/
def lower (d : Int) (c : Counters) : Counters := c.map fun x => if x > 0 then x - d else x

theorem getD_lower (d : Int) (l : Counters) (i : Nat) :
    (lower d l).getD i 0 = if l.getD i 0 > 0 then l.getD i 0 - d else l.getD i 0 := by
  simp only [lower, getD_eq_getElem?_getD, getElem?_map]
  cases l[i]? <;> simp

theorem mem_runningBits : b ∈ runningBits c ↔ ∃ i : Nat, b = i ∧ 0 < c.getD i 0 := by
  simp only [runningBits, mem_filterMap, mem_range, Option.ite_none_right_eq_some,
    Option.some.injEq]
  constructor
  · rintro ⟨i, -, hi, rfl⟩
    exact ⟨i, rfl, hi⟩
  · rintro ⟨i, rfl, hi⟩
    refine ⟨i, ?_, hi, rfl⟩
    by_contra hn
    rw [getD_eq_default _ _ (Nat.le_of_not_lt hn)] at hi
    exact lt_irrefl 0 hi

theorem CountersOk.not_mem_runningBits (h : CountersOk c) : (0 : Int) ∉ runningBits c := by
  rw [mem_runningBits]
  rintro ⟨i, hi, hp⟩
  obtain rfl : i = 0 := by omega
  exact absurd h.zero (by omega)

theorem foldl_min_spec (l : List Int) (m : Int) :
    (l.foldl min m = m ∨ l.foldl min m ∈ l) ∧ l.foldl min m ≤ m ∧ ∀ x ∈ l, l.foldl min m ≤ x := by
  have h := min?_eq_some_iff.1 (min?_cons' : (m :: l).min? = some (l.foldl min m))
  rwa [mem_cons, forall_mem_cons] at h

theorem foldl_max_spec (l : List Int) (m : Int) :
    (l.foldl max m = m ∨ l.foldl max m ∈ l) ∧ m ≤ l.foldl max m ∧ ∀ x ∈ l, x ≤ l.foldl max m := by
  have h := max?_eq_some_iff.1 (max?_cons' : (m :: l).max? = some (l.foldl max m))
  rwa [mem_cons, forall_mem_cons] at h

theorem mem_iff_getD {x : Int} (hx : x ≠ 0) : x ∈ c ↔ ∃ i, c.getD i 0 = x := by
  constructor
  · intro h
    obtain ⟨i, hi, rfl⟩ := getElem_of_mem h
    exact ⟨i, getD_eq_getElem c 0 hi⟩
  · rintro ⟨i, rfl⟩
    have hi : i < c.length := by
      by_contra hn
      exact hx (getD_eq_default _ _ (Nat.le_of_not_lt hn))
    rw [getD_eq_getElem c 0 hi]
    exact getElem_mem hi

/-- Of counters that are not negative all rest, or the least running one is among them and none that runs is less. -/
theorem leastRunning_cases (h : ∀ x ∈ c, 0 ≤ x) : (leastRunning c = 0 ∧ ∀ x ∈ c, x = 0) ∨
    (0 < leastRunning c ∧ leastRunning c ∈ c ∧ ∀ x ∈ c, 0 < x → leastRunning c ≤ x) := by
  have hmem {x : Int} : x ∈ c.filter (· != 0) ↔ x ∈ c ∧ x ≠ 0 := by simp
  unfold leastRunning
  cases hl : c.filter (· != 0) with
  | nil => exact .inl ⟨rfl, fun x hx => by_contra fun hn => by simpa [hl] using hmem.2 ⟨hx, hn⟩⟩
  | cons x l =>
    obtain ⟨h1, h2, h3⟩ := foldl_min_spec l x
    have hm : l.foldl min x ∈ x :: l := mem_cons.2 h1
    rw [← hl, hmem] at hm
    refine .inr ⟨lt_of_le_of_ne (h _ hm.1) (Ne.symm hm.2), hm.1, fun y hy hpos => ?_⟩
    rcases mem_cons.1 (hl ▸ hmem.2 ⟨hy, Int.ne_of_gt hpos⟩) with rfl | hy
    · exact h2
    · exact h3 y hy

theorem CountersOk.nonneg_of_mem (h : CountersOk c) {x : Int} (hx : x ∈ c) : 0 ≤ x := by
  obtain ⟨i, hi, rfl⟩ := getElem_of_mem hx
  exact getD_eq_getElem c 0 hi ▸ h.nonneg i

/-- The least running counter is one of the counters, and none that runs is less. -/
theorem leastRunning_spec (h : CountersOk c) (hc : ¬ Idle c) :
    0 < leastRunning c ∧ (∃ i, c.getD i 0 = leastRunning c) ∧
      ∀ i, 0 < c.getD i 0 → leastRunning c ≤ c.getD i 0 := by
  obtain ⟨-, hz⟩ | ⟨hpos, hm, hle⟩ := leastRunning_cases fun x => h.nonneg_of_mem
  · refine absurd (fun i => ?_) hc
    by_contra hi
    exact hi (hz _ ((mem_iff_getD hi).2 ⟨i, rfl⟩))
  · exact ⟨hpos, (mem_iff_getD (by omega)).1 hm, fun i hi => hle _ ((mem_iff_getD (by omega)).2 ⟨i, rfl⟩) hi⟩

theorem leastRunning_eq_zero (h : CountersOk c) : leastRunning c = 0 ↔ Idle c := by
  constructor
  · intro h0
    by_contra hc
    have := (leastRunning_spec h hc).1
    omega
  · intro hc
    obtain ⟨h0, -⟩ | ⟨hpos, hm, -⟩ := leastRunning_cases fun x => h.nonneg_of_mem
    · exact h0
    · obtain ⟨i, hi⟩ := (mem_iff_getD (by omega)).1 hm
      exact hi ▸ hc i

theorem maximum_eq_zero (h : CountersOk c) : maximum c = 0 ↔ Idle c := by
  have hne : c ≠ [] := by rintro rfl; simpa using h.length
  obtain ⟨x, l, rfl⟩ := exists_cons_of_ne_nil hne
  obtain ⟨h1, h2, h3⟩ := foldl_max_spec l x
  have hx : x = 0 := h.zero
  simp only [maximum]
  constructor
  · intro h0 i
    by_contra hi
    have hp := h.nonneg i
    rcases mem_cons.1 ((mem_iff_getD hi).2 ⟨i, rfl⟩) with hm | hm
    · omega
    · have := h3 _ hm; omega
  · intro hc
    rcases h1 with h1 | h1
    · omega
    · by_contra hn
      obtain ⟨i, hi⟩ := (mem_iff_getD hn).1 (mem_cons_of_mem x h1)
      exact hn (by rw [← hi]; exact hc i)

theorem CountersOk.lower (h : CountersOk c) {d : Int} (hd : ∀ i, 0 < c.getD i 0 → d ≤ c.getD i 0) :
    CountersOk (lower d c) where
  length := by simpa [Qasm.lower] using h.length
  zero := by rw [getD_lower, h.zero]; simp
  nonneg i := by
    have := h.nonneg i
    have := hd i
    rw [getD_lower]
    split <;> omega

/-- A counter after the triggers of some events. -/
def raisedTo (i : Nat) : List HwEvent → Int → Int
  | [], m => m
  | e :: es, m => raisedTo i es (if e.name = "trigger" ∧ (i : Int) ∈ e.setBits then max m e.duration else m)

theorem le_raisedTo (i : Nat) : ∀ (es : List HwEvent) (m : Int), m ≤ raisedTo i es m
  | [], _ => le_refl _
  | e :: es, m => by
    refine le_trans ?_ (le_raisedTo i es _)
    split
    · exact le_max_left _ _
    · exact le_refl _

theorem duration_le_raisedTo (he : e.name = "trigger") (hi : (i : Int) ∈ e.setBits) :
    ∀ {es : List HwEvent} {m : Int}, e ∈ es → e.duration ≤ raisedTo i es m
  | e' :: es, m, h => by
    rcases mem_cons.1 h with rfl | h
    · refine le_trans ?_ (le_raisedTo i es _)
      rw [if_pos ⟨he, hi⟩]
      exact le_max_right _ _
    · rw [raisedTo]
      exact duration_le_raisedTo he hi h

/-- Triggers that do not set the bit, or for no clock, leave its counter as it is. -/
theorem raisedTo_eq_self : ∀ {es : List HwEvent} {m : Int}, 0 ≤ m →
    (∀ e ∈ es, e.name = "trigger" → (i : Int) ∉ e.setBits ∨ e.duration = 0) → raisedTo i es m = m
  | [], _, _, _ => rfl
  | e :: es, m, hm, h => by
    have h1 : (if e.name = "trigger" ∧ (i : Int) ∈ e.setBits then max m e.duration else m) = m := by
      split
      · rename_i hi
        rcases h e mem_cons_self hi.1 with hn | h0
        · exact absurd hi.2 hn
        · rw [h0]; exact max_eq_left hm
      · rfl
    rw [raisedTo, h1]
    exact raisedTo_eq_self hm fun e' he' => h e' (mem_cons_of_mem e he')

/-- Raising counters: that of each bit shows at least the duration of the trigger, and the others stay. -/
theorem raiseCounters_getD {c' : Counters} (h : raiseCounters c e = .ok c') : c'.length = c.length ∧
    (∀ b ∈ e.setBits, ∃ i, position? c.length b = some i) ∧
    ∀ i, c'.getD i 0 =
      if ∃ b ∈ e.setBits, position? c.length b = some i then max (c.getD i 0) e.duration else c.getD i 0 := by
  rw [raiseCounters] at h
  generalize e.setBits = bits at h ⊢
  induction bits generalizing c with
  | nil =>
    cases h
    simp
  | cons b bits ih =>
    rw [foldlM_cons] at h
    obtain ⟨c₁, h₁, h⟩ := bind_eq_ok.1 h
    obtain ⟨j, hj, h₁⟩ := bind_eq_ok.1 h₁
    cases h₁
    cases hpos : position? c.length b with
    | none =>
      rw [hpos] at hj
      cases hj
    | some k =>
      rw [hpos] at hj
      cases hj
      have hjl : j < c.length := by
        rw [position?] at hpos
        split at hpos <;> split at hpos <;> cases hpos <;> omega
      obtain ⟨hl, hbits, hi⟩ := ih h
      rw [length_modify] at hl hbits hi
      refine ⟨hl, forall_mem_cons.2 ⟨⟨j, hpos⟩, hbits⟩, fun i => ?_⟩
      have hm : (c.modify j fun x => max x e.duration).getD i 0 =
          if j = i then max (c.getD i 0) e.duration else c.getD i 0 := by
        simp only [getD_eq_getElem?_getD, getElem?_modify]
        by_cases hij : j = i
        · subst hij
          simp [getElem?_eq_getElem hjl]
        · simp [hij]
      rw [hi, hm]
      by_cases hij : j = i
      · subst hij
        rw [if_pos rfl, max_assoc, max_self, ite_self, if_pos ⟨b, mem_cons_self, hpos⟩]
      · simp [hpos, hij]

theorem raiseCounters_eq (hc : c.length = 8) (he : e.name = "trigger")
    (hw : e.WellFormed) : ∃ c', raiseCounters c e = .ok c' ∧ c'.length = 8 ∧
      ∀ i, c'.getD i 0 = raisedTo i [e] (c.getD i 0) := by
  rw [HwEvent.WellFormed, if_pos he] at hw
  have hpos {b : Int} (hb : b ∈ e.setBits) : position? 8 b = some b.toNat := by
    have := hw.1 b hb
    rw [position?, if_pos (by omega), if_pos (by omega)]
  have hends : Ends (fun _ => False) (fun c => c.length = 8) (raiseCounters c e) := by
    refine Ends.foldlM (fun c hc b hb => ?_) hc
    rw [hc, hpos hb]
    exact (length_modify ..).trans hc
  cases h : raiseCounters c e with
  | error _ => exact (h ▸ hends).elim
  | ok c' =>
    obtain ⟨hl, -, hi⟩ := raiseCounters_getD h
    refine ⟨c', rfl, hl.trans hc, fun i => ?_⟩
    have hiff : (∃ b ∈ e.setBits, position? c.length b = some i) ↔ (i : Int) ∈ e.setBits := by
      rw [hc]
      constructor
      · rintro ⟨b, hb, hib⟩
        have := hw.1 b hb
        cases (hpos hb).symm.trans hib
        rwa [Int.toNat_of_nonneg (by omega)]
      · intro hb
        exact ⟨i, hb, hpos hb⟩
    rw [hi, if_congr hiff rfl rfl]
    simp [raisedTo, he]

/-- **The events of a point**: the triggers among them raise the counters, the others are kept. -/
theorem divideEvents_eq (t : Int) : ∀ {es : List HwEvent} (new : Grid HwEvent) {c : Counters}, c.length = 8 →
    (∀ e ∈ es, e.WellFormed) →
    ∃ new' c', es.foldlM (divideEvent t) (new, c) = .ok (new', c') ∧
      (triggers new').Perm (triggers new) ∧ c'.length = 8 ∧
      ∀ i, c'.getD i 0 = raisedTo i es (c.getD i 0)
  | [], new, c, hc, _ => ⟨new, c, rfl, .refl _, hc, fun _ => rfl⟩
  | e :: es, new, c, hc, hw => by
    have hes : ∀ e ∈ es, e.WellFormed := fun x hx => hw x (mem_cons_of_mem e hx)
    by_cases he : e.name = "trigger"
    · obtain ⟨c₁, h1, hl, hi⟩ := raiseCounters_eq hc he (hw e mem_cons_self)
      obtain ⟨new', c', h, hp, hl', hi'⟩ := divideEvents_eq t new hl hes
      refine ⟨new', c', ?_, hp, hl', fun i => ?_⟩
      · rw [foldlM_cons, divideEvent, if_pos he, h1]
        exact h
      · rw [hi', hi]; rfl
    · have hz : (0 : Int) ∉ e.setBits := by
        have := hw e mem_cons_self
        rwa [HwEvent.WellFormed, if_neg he] at this
      obtain ⟨new₁, h1, hp1⟩ := addHw_eq (g := new) (t := t) hz
      rw [if_neg he, append_nil] at hp1
      obtain ⟨new', c', h, hp, hl', hi'⟩ := divideEvents_eq t new₁ hc hes
      refine ⟨new', c', ?_, hp.trans hp1, hl', fun i => ?_⟩
      · rw [foldlM_cons, divideEvent, if_neg he, h1]
        exact h
      · rw [hi']
        simp [raisedTo, he]

theorem CountersOk.raise {c' : Counters} {es : List HwEvent} (h : CountersOk c) (hw : ∀ e ∈ es, e.WellFormed)
    (hl : c'.length = 8) (hi : ∀ i, c'.getD i 0 = raisedTo i es (c.getD i 0)) : CountersOk c' where
  length := hl
  zero := by
    rw [hi, h.zero]
    refine raisedTo_eq_self (le_refl 0) fun e he ht => .inl fun h0 => ?_
    have hwe := hw e he
    rw [HwEvent.WellFormed, if_pos ht] at hwe
    have := (hwe.1 _ h0).1
    omega
  nonneg i := by
    rw [hi]
    exact (h.nonneg i).trans (le_raisedTo i es _)

theorem lt_raisedTo : ∀ {es : List HwEvent} {m : Int},
    t < raisedTo i es m ↔ t < m ∨ ∃ e ∈ es, e.name = "trigger" ∧ (i : Int) ∈ e.setBits ∧ t < e.duration
  | [], m => by simp [raisedTo]
  | e :: es, m => by
    rw [raisedTo, lt_raisedTo]
    by_cases he : e.name = "trigger" ∧ (i : Int) ∈ e.setBits
    · simp only [he, and_self, if_true, lt_max_iff, mem_cons, exists_eq_or_imp, true_and, or_assoc]
    · have hn : ¬ (e.name = "trigger" ∧ (i : Int) ∈ e.setBits ∧ t < e.duration) := fun h => he ⟨h.1, h.2.1⟩
      simp only [he, if_false, mem_cons, exists_eq_or_imp, hn, false_or]

theorem signal_point : Signal (triggers [p]) b t ↔
    ∃ e ∈ p.events, e.name = "trigger" ∧ b ∈ e.setBits ∧ p.time ≤ t ∧ t < p.time + e.duration := by
  simp only [Signal, triggers_point, mem_map, mem_filter, beq_iff_eq, On]
  constructor
  · rintro ⟨x, ⟨e, ⟨he, ht⟩, rfl⟩, ⟨h1, h2⟩, hb⟩
    exact ⟨e, he, ht, hb, h1, h2⟩
  · rintro ⟨e, he, ht, hb, h1, h2⟩
    exact ⟨(p.time, e), ⟨e, ⟨he, ht⟩, rfl⟩, ⟨h1, h2⟩, hb⟩

/-! ## What was made so far -/

/-- The triggers `ys` follow each other and show the signal of `xs` up to `front`; from there on the counters
hold what is left of it. -/
structure Cover (front : Int) (xs ys : List (Int × HwEvent)) (c : Counters) : Prop where
  left : ∀ (i : Nat) (t : Int), front ≤ t → (Signal xs i t ↔ t < front + c.getD i 0)
  shown : ∀ (i : Nat) (t : Int), Signal ys i t ↔ Signal xs i t ∧ t < front
  apart : ys.Pairwise Apart
  ended : ∀ y ∈ ys, y.1 + y.2.duration ≤ front

namespace Cover

variable {front : Int} {c' : Counters}

theorem perm (h : Cover front xs ys c) (hp : zs.Perm ys) : Cover front xs zs c where
  left := h.left
  shown i t := (Signal.of_perm hp).trans (h.shown i t)
  apart := (pairwise_apart_perm hp).2 h.apart
  ended y hy := h.ended y (hp.mem_iff.1 hy)

theorem wait (h : Cover front xs ys c) (hc : Idle c) {t : Int} (ht : front ≤ t) : Cover t xs ys c where
  left i u hu := by
    rw [h.left i u (by omega), hc i]
    constructor <;> intro _ <;> omega
  shown i u := by
    rw [h.shown i u]
    constructor
    · rintro ⟨hx, hu⟩; exact ⟨hx, by omega⟩
    · rintro ⟨hx, hu⟩
      refine ⟨hx, ?_⟩
      by_contra hn
      have := (h.left i u (by omega)).1 hx
      rw [hc i] at this
      omega
  apart := h.apart
  ended y hy := (h.ended y hy).trans ht

theorem signal_iff (h : Cover front xs ys c) (hc : Idle c) (i : Nat) (t : Int) :
    Signal ys i t ↔ Signal xs i t := by
  rw [(h.wait hc (le_max_left front (t + 1))).shown i t]
  exact and_iff_left (lt_of_lt_of_le (Int.lt_succ t) (le_max_right front (t + 1)))

/-- The triggers of a point at the front raise the counters. -/
theorem raise {p : TimePoint HwEvent} (h : Cover p.time xs ys c)
    (hc : ∀ i, c'.getD i 0 = raisedTo i p.events (c.getD i 0)) : Cover p.time (xs ++ triggers [p]) ys c' where
  left i t ht := by
    have hr : t < p.time + c'.getD i 0 ↔ t - p.time < raisedTo i p.events (c.getD i 0) := by
      rw [hc]; omega
    rw [signal_append, signal_point, h.left i t ht, hr, lt_raisedTo]
    refine or_congr (by omega) (exists_congr fun e => and_congr_right fun _ => and_congr_right fun _ =>
      and_congr_right fun _ => by omega)
  shown i t := by
    rw [h.shown i t, signal_append, signal_point]
    constructor
    · rintro ⟨hx, ht⟩; exact ⟨.inl hx, ht⟩
    · rintro ⟨hx | ⟨e, -, -, -, h1, -⟩, ht⟩
      · exact ⟨hx, ht⟩
      · omega
  apart := h.apart
  ended := h.ended

theorem skip {p : TimePoint HwEvent} (h : Cover front xs ys c)
    (hp : ∀ x ∈ triggers [p], x.2.setBits = [] ∨ x.2.duration = 0) :
    Cover front (xs ++ triggers [p]) ys c := by
  have hs : ∀ (i : Nat) (t : Int), Signal (xs ++ triggers [p]) i t ↔ Signal xs i t := by
    intro i t
    rw [signal_append]
    refine or_iff_left ?_
    rintro ⟨x, hx, ⟨h1, h2⟩, hb⟩
    rcases hp x hx with h0 | h0
    · rw [h0] at hb; cases hb
    · omega
  exact ⟨fun i t ht => (hs i t).trans (h.left i t ht), fun i t => by rw [hs, h.shown], h.apart, h.ended⟩

/-- **One trigger**: all running bits for `d` clocks, where no counter ends earlier. -/
theorem cut (h : Cover front xs ys c) (hok : CountersOk c) {d : Int} (hd : ∀ i, 0 < c.getD i 0 → d ≤ c.getD i 0)
    {e : HwEvent} (hbits : e.setBits = runningBits c) (hdur : e.duration = d) (hd0 : 0 < d)
    (hz : zs.Perm (ys ++ [(front, e)])) : Cover (front + d) xs zs (lower d c) where
  left i t ht := by
    have := hok.nonneg i
    rw [h.left i t (by omega), getD_lower]
    have := hd i
    split <;> omega
  shown i t := by
    have hn := hok.nonneg i
    have hdi := hd i
    have hrun : (i : Int) ∈ runningBits c ↔ 0 < c.getD i 0 := by
      rw [mem_runningBits]
      exact ⟨fun ⟨j, hj, hp⟩ => by rwa [show i = j by omega], fun hp => ⟨i, rfl, hp⟩⟩
    rw [Signal.of_perm hz, signal_append, signal_singleton, h.shown i t, On, hbits, hdur, hrun]
    by_cases ht : t < front
    · simp only [ht, and_true]
      constructor
      · rintro (hx | ⟨⟨h1, -⟩, -⟩)
        · exact ⟨hx, by omega⟩
        · omega
      · rintro ⟨hx, -⟩; exact .inl hx
    · rw [h.left i t (by omega)]
      omega
  apart := by
    rw [pairwise_apart_perm hz, pairwise_append]
    refine ⟨h.apart, pairwise_singleton _ _, fun y hy x hx t ht => ?_⟩
    rw [mem_singleton.1 hx] at ht
    have := h.ended y hy
    simp only [On] at ht
    omega
  ended y hy := by
    rcases mem_append.1 (hz.mem_iff.1 hy) with hy | hy
    · have := h.ended y hy; omega
    · rw [mem_singleton.1 hy, ← hdur]

end Cover

/-! ## The grids that are divided cleanly -/

/-- For how many clocks from `t` on the triggers set a bit. -/
def stillSet (xs : List (Int × HwEvent)) (t b : Int) : Int :=
  (xs.filter fun x => x.2.setBits.contains b).foldl (fun m x => max m (x.1 + x.2.duration - t)) 0

/-- The different lengths for which bits are set from `t` on. -/
def lengthsAt (xs : List (Int × HwEvent)) (t : Int) : Finset Int :=
  ((List.range' 1 7).map fun (b : Nat) => stillSet xs t b).toFinset.filter (0 < ·)

/-- The next trigger, if no bit that is set at `t` ends before it. -/
def cutAt? (t : Int) (lengths : Finset Int) (next : Option Int) : Option Int :=
  next.filter fun s => decide (∀ l ∈ lengths, s ≤ t + l)

/-- The points still to do are divided cleanly, after triggers `xs` that are shown up to `busy`. At a point with
triggers: if it comes before `busy`, its triggers have no effect. If all bits stay set until the next trigger, they
are cut there, and then that trigger is at the next point, or all bits end with the cut. Else all bits are
shown to their ends, and then they have at most two different lengths. -/
def CleanFrom (busy : Int) (xs : List (Int × HwEvent)) : Grid HwEvent → Prop
  | [] => True
  | p :: r =>
    let xs' := xs ++ triggers [p]
    let lengths := lengthsAt xs' p.time
    if triggers [p] = [] then CleanFrom busy xs' r
    else if p.time < busy then
      (∀ x ∈ triggers [p], x.2.setBits = [] ∨ x.2.duration = 0) ∧ CleanFrom busy xs' r
    else
      match cutAt? p.time lengths (nextTrigger? r) with
      | some s => (r.head?.map (·.time) = some s ∨ ∀ l ∈ lengths, p.time + l = s) ∧ CleanFrom busy xs' r
      | none => lengths.card ≤ 2 ∧ CleanFrom (p.time + lengths.fold max 0 id) xs' r

/-- What `CleanFrom` says at a point that the walk reaches. -/
theorem cleanFrom_point {busy : Int} (xs : List (Int × HwEvent)) (r : Grid HwEvent)
    (hp : triggers [p] ≠ []) (hb : busy ≤ p.time) :
    CleanFrom busy xs (p :: r) ↔
      match cutAt? p.time (lengthsAt (xs ++ triggers [p]) p.time) (nextTrigger? r) with
      | some s => (r.head?.map (·.time) = some s ∨ ∀ l ∈ lengthsAt (xs ++ triggers [p]) p.time, p.time + l = s) ∧
          CleanFrom busy (xs ++ triggers [p]) r
      | none => (lengthsAt (xs ++ triggers [p]) p.time).card ≤ 2 ∧
          CleanFrom (p.time + (lengthsAt (xs ++ triggers [p]) p.time).fold max 0 id) (xs ++ triggers [p]) r := by
  rw [CleanFrom, if_neg hp, if_neg (by omega)]

/-- The division of the grid is clean: nothing is shown before its first point. -/
def CleanlyDivisible (grid : Grid HwEvent) : Prop := CleanFrom ((grid.head?.map (·.time)).getD 0) [] grid

instance decidableCleanFrom (busy : Int) (xs : List (Int × HwEvent)) : ∀ r, Decidable (CleanFrom busy xs r)
  | [] => .isTrue trivial
  | p :: r =>
    have : ∀ b ys, Decidable (CleanFrom b ys r) := fun b ys => decidableCleanFrom b ys r
    if hp : triggers [p] = [] then decidable_of_iff (CleanFrom busy (xs ++ triggers [p]) r) (by rw [CleanFrom, if_pos hp])
    else if hb : p.time < busy then
      decidable_of_iff ((∀ x ∈ triggers [p], x.2.setBits = [] ∨ x.2.duration = 0) ∧ CleanFrom busy (xs ++ triggers [p]) r)
        (by rw [CleanFrom, if_neg hp, if_pos hb])
    else
      have hiff := cleanFrom_point xs r hp (not_lt.1 hb)
      match cutAt? p.time (lengthsAt (xs ++ triggers [p]) p.time) (nextTrigger? r), hiff with
      | some _, hiff => decidable_of_iff _ hiff.symm
      | none, hiff => decidable_of_iff _ hiff.symm

instance (grid : Grid HwEvent) : Decidable (CleanlyDivisible grid) := decidableCleanFrom _ _ _

theorem lt_stillSet {u : Int} (hu : 0 ≤ u) :
    u < stillSet xs t b ↔ ∃ x ∈ xs, b ∈ x.2.setBits ∧ u < x.1 + x.2.duration - t := by
  have key : ∀ (l : List (Int × HwEvent)) (m : Int),
      u < l.foldl (fun m x => max m (x.1 + x.2.duration - t)) m ↔
        u < m ∨ ∃ x ∈ l, u < x.1 + x.2.duration - t := by
    intro l
    induction l with
    | nil => simp
    | cons x l ih =>
      intro m
      rw [foldl_cons, ih, lt_max_iff]
      simp only [mem_cons, exists_eq_or_imp, or_assoc]
  rw [stillSet, key]
  simp only [not_lt.2 hu, false_or, mem_filter, contains_iff_mem, and_assoc]

/-- At the front the counters are what the triggers still set. -/
theorem Cover.getD_eq (h : Cover t xs ys c)
    (hok : CountersOk c) (hx : ∀ x ∈ xs, x.1 ≤ t) (i : Nat) : c.getD i 0 = stillSet xs t i := by
  have hiff : ∀ u, 0 ≤ u → (u < c.getD i 0 ↔ u < stillSet xs t i) := by
    intro u hu
    have h1 : u < c.getD i 0 ↔ t + u < t + c.getD i 0 := by omega
    rw [lt_stillSet hu, h1, ← h.left i (t + u) (by omega)]
    constructor
    · rintro ⟨x, hxm, ⟨-, h2⟩, hb⟩
      exact ⟨x, hxm, hb, by omega⟩
    · rintro ⟨x, hxm, hb, h2⟩
      exact ⟨x, hxm, ⟨by have := hx x hxm; omega, by omega⟩, hb⟩
  have hs : 0 ≤ stillSet xs t i := by
    have key : ∀ (l : List (Int × HwEvent)) (m : Int), 0 ≤ m →
        0 ≤ l.foldl (fun m x => max m (x.1 + x.2.duration - t)) m := by
      intro l
      induction l with
      | nil => exact fun m hm => hm
      | cons x l ih => exact fun m hm => ih _ (hm.trans (le_max_left _ _))
    exact key _ 0 (le_refl 0)
  have hc := hok.nonneg i
  rcases lt_trichotomy (c.getD i 0) (stillSet xs t i) with hl | he | hl
  · exact absurd ((hiff _ hc).2 hl) (lt_irrefl _)
  · exact he
  · exact absurd ((hiff _ hs).1 hl) (lt_irrefl _)

theorem Cover.mem_lengthsAt (h : Cover t xs ys c) (hok : CountersOk c) (hx : ∀ x ∈ xs, x.1 ≤ t) {l : Int} :
    l ∈ lengthsAt xs t ↔ 0 < l ∧ ∃ i, c.getD i 0 = l := by
  simp only [lengthsAt, Finset.mem_filter, mem_toFinset, mem_map, mem_range'_1, and_comm (b := 0 < l)]
  refine and_congr_right fun hl => ⟨?_, ?_⟩
  · rintro ⟨i, -, rfl⟩
    exact ⟨i, h.getD_eq hok hx i⟩
  · rintro ⟨i, rfl⟩
    refine ⟨i, ?_, (h.getD_eq hok hx i).symm⟩
    have h0 : i ≠ 0 := by
      rintro rfl
      exact absurd hok.zero (by omega)
    have h8 : i < c.length := by
      by_contra hn
      rw [getD_eq_default _ _ (Nat.le_of_not_lt hn)] at hl
      exact lt_irrefl 0 hl
    have := hok.length
    omega

/-! ## Two lengths -/

/-- The counters when the first of them ends. -/
def advance (c : Counters) : Counters := lower (leastRunning c) c

theorem CountersOk.advance (h : CountersOk c) : CountersOk (advance c) := by
  refine h.lower fun i hi => (leastRunning_spec h fun hc => ?_).2.2 i hi
  exact absurd (hc i) (by omega)

theorem getD_advance (hi : 0 < c.getD i 0) : (advance c).getD i 0 = c.getD i 0 - leastRunning c := by
  rw [advance, getD_lower, if_pos hi]

theorem pos_of_advance_pos (hi : 0 < (advance c).getD i 0) :
    0 < c.getD i 0 ∧ c.getD i 0 = leastRunning c + (advance c).getD i 0 := by
  have hp : 0 < c.getD i 0 := by
    by_contra hn
    rw [advance, getD_lower, if_neg hn] at hi
    exact hn hi
  exact ⟨hp, by have := getD_advance hp; omega⟩

theorem CountersOk.pos_of_not_idle (h : CountersOk c) (hc : ¬ Idle c) : ∃ i, 0 < c.getD i 0 := by
  obtain ⟨i, hi⟩ := not_forall.1 hc
  exact ⟨i, lt_of_le_of_ne (h.nonneg i) (Ne.symm hi)⟩

/-- There are at most two lengths if and only if two steps bring all counters to rest. -/
theorem Cover.card_le_two_iff (h : Cover t xs ys c) (hok : CountersOk c) (hx : ∀ x ∈ xs, x.1 ≤ t) (hc : ¬ Idle c) :
    (lengthsAt xs t).card ≤ 2 ↔ Idle (advance (advance c)) := by
  obtain ⟨hpos, ⟨i₁, hi₁⟩, hle⟩ := leastRunning_spec hok hc
  constructor
  · intro hcard
    by_contra hn
    obtain ⟨k, hk⟩ := hok.advance.advance.pos_of_not_idle hn
    obtain ⟨hk', hek'⟩ := pos_of_advance_pos hk
    obtain ⟨hkc, hek⟩ := pos_of_advance_pos hk'
    have hc1 : ¬ Idle (advance c) := fun hi => absurd (hi k) (by omega)
    obtain ⟨hpos', ⟨j, hj⟩, -⟩ := leastRunning_spec hok.advance hc1
    obtain ⟨hjc, hej⟩ := pos_of_advance_pos (c := c) (i := j) (by omega)
    have h3 : 2 < (lengthsAt xs t).card := by
      rw [Finset.two_lt_card]
      exact ⟨_, (h.mem_lengthsAt hok hx).2 ⟨hpos, i₁, hi₁⟩, _, (h.mem_lengthsAt hok hx).2 ⟨hjc, j, rfl⟩, _,
        (h.mem_lengthsAt hok hx).2 ⟨hkc, k, rfl⟩, by omega, by omega, by omega⟩
    omega
  · intro hi
    have hsub : lengthsAt xs t ⊆ {leastRunning c, leastRunning c + leastRunning (advance c)} := by
      intro l hl
      obtain ⟨hl0, i, rfl⟩ := (h.mem_lengthsAt hok hx).1 hl
      have h1 := getD_advance hl0
      rcases eq_or_lt_of_le (hok.advance.nonneg i) with h0 | h0
      · exact Finset.mem_insert.2 (.inl (by omega))
      · have h2 := getD_advance h0
        have h3 := hi i
        exact Finset.mem_insert.2 (.inr (Finset.mem_singleton.2 (by omega)))
    exact (Finset.card_le_card hsub).trans Finset.card_le_two

/-! ## The steps of the walk -/

/-- The trigger that shows the running bits for some clocks. -/
def cutOf (d : Int) (c : Counters) : HwEvent := { name := "trigger", duration := d, setBits := runningBits c }

/-- The clocks of the trigger that a round of the loop sends: up to the next trigger if that starts by `fin`, else `least`. -/
def roundClocks (t fin least : Int) : Option Int → Int
  | some s => if s ≤ fin then s - t else least
  | none => least

/-- One round of the loop at a point. -/
theorem divideFrom_succ (t fin now least : Int) (next : Option Int) (n : Nat) (c : Counters) (new : Grid HwEvent) :
    divideFrom t fin next (n + 1) now least c new = (do
      let d := roundClocks t fin least next
      let new ← addHw new now (cutOf d c)
      if next.any (· ≤ fin) ∨ leastRunning (lower d c) = 0 then .ok (new, lower d c)
      else divideFrom t fin next n (t + d) (leastRunning (lower d c)) (lower d c) new) := by
  cases next with
  | none =>
    simp [divideFrom, roundClocks, cutOf, lower]
    rfl
  | some s =>
    by_cases hs : s ≤ fin <;>
      · simp [divideFrom, roundClocks, cutOf, lower, hs]
        rfl

/-- A round ends at the next trigger, or goes to the first end where no trigger starts by then. -/
theorem roundClocks_cases (t fin least : Int) (next : Option Int) :
    (∃ s, next = some s ∧ s ≤ fin ∧ next.any (· ≤ fin) = true ∧ roundClocks t fin least next = s - t) ∨
      (∀ s, next = some s → fin < s) ∧ next.any (· ≤ fin) = false ∧ roundClocks t fin least next = least := by
  cases next with
  | none => simp [roundClocks]
  | some s => by_cases hs : s ≤ fin <;> simp [roundClocks, hs, Int.lt_of_not_ge]

/-- A stop at the next trigger: one trigger up to it. -/
theorem divideFrom_stop (t least now : Int) (n : Nat) (new : Grid HwEvent) {fin : Int} (hok : CountersOk c)
    (hs : s ≤ fin) :
    ∃ new', divideFrom t fin (some s) (n + 1) now least c new = .ok (new', lower (s - t) c) ∧
      (triggers new').Perm (triggers new ++ [(now, cutOf (s - t) c)]) := by
  obtain ⟨new', h, hp⟩ := addHw_eq (g := new) (t := now) (e := cutOf (s - t) c) hok.not_mem_runningBits
  refine ⟨new', ?_, by simpa [cutOf] using hp⟩
  simp [divideFrom_succ, roundClocks, hs, h, bind, Except.bind]

/-- A step on the way to the end: one trigger up to the first end, then the rest, which starts at `t + least`. -/
theorem divideFrom_on (t least now : Int) (n : Nat) (new : Grid HwEvent) {fin : Int} {next : Option Int}
    (hok : CountersOk c) (hs : ∀ s, next = some s → fin < s) :
    ∃ new', (triggers new').Perm (triggers new ++ [(now, cutOf least c)]) ∧
      divideFrom t fin next (n + 1) now least c new =
        if leastRunning (lower least c) = 0 then .ok (new', lower least c)
        else divideFrom t fin next n (t + least) (leastRunning (lower least c)) (lower least c) new' := by
  obtain ⟨new', h, hp⟩ := addHw_eq (g := new) (t := now) (e := cutOf least c) hok.not_mem_runningBits
  refine ⟨new', by simpa [cutOf] using hp, ?_⟩
  obtain ⟨s, hnext, hsf, -⟩ | ⟨-, hany, hd⟩ := roundClocks_cases t fin least next
  · exact absurd (hs s hnext) (by omega)
  · simp [divideFrom_succ, hany, hd, h, bind, Except.bind]

/-- Wherever it starts, the loop at a point ends with counters in order, and keeps what was made before. -/
theorem divideFrom_total (t fin : Int) {next : Option Int} : ∀ (n : Nat) (now : Int) (new : Grid HwEvent)
    {least : Int} {c : Counters}, CountersOk c → (∀ i, 0 < c.getD i 0 → least ≤ c.getD i 0) →
    (∀ s, next = some s → s ≤ fin → s - t ≤ least) →
    ∃ new' c', divideFrom t fin next n now least c new = .ok (new', c') ∧ CountersOk c' ∧
      Extends (triggers new) (triggers new')
  | 0, _, new, _, c, hok, _, _ => ⟨new, c, rfl, hok, .refl _⟩
  | n + 1, now, new, least, c, hok, hl, hs => by
    by_cases hstop : ∃ s, next = some s ∧ s ≤ fin
    · obtain ⟨s, rfl, hsf⟩ := hstop
      obtain ⟨new', h, hp⟩ := divideFrom_stop t least now n new hok hsf
      have hd := hs s rfl hsf
      exact ⟨new', _, h, hok.lower fun i hi => hd.trans (hl i hi),
        (Extends.append _ _).trans (.of_perm hp)⟩
    · have hs' : ∀ s, next = some s → fin < s := fun s he => by
        by_contra hn
        exact hstop ⟨s, he, by omega⟩
      obtain ⟨new', hp, h⟩ := divideFrom_on t least now n new hok hs'
      have hext : Extends (triggers new) (triggers new') := (Extends.append _ _).trans (.of_perm hp)
      have hok' := hok.lower hl
      rw [h]
      split
      · exact ⟨new', _, rfl, hok', hext⟩
      · rename_i hne
        rw [leastRunning_eq_zero hok'] at hne
        obtain ⟨new'', c'', h', hok'', hext'⟩ := divideFrom_total t fin n (t + least) new' hok'
          (leastRunning_spec hok' hne).2.2 fun s he hsf => absurd (hs' s he) (by omega)
        exact ⟨new'', c'', h', hok'', hext.trans hext'⟩

/-! ## One point -/

/-- The counters and the new points after the events of a point. -/
theorem divideRest_events (r new : Grid HwEvent) (hok : CountersOk c) (hw : ∀ e ∈ p.events, e.WellFormed) :
    ∃ new₁ c₁, CountersOk c₁ ∧ (triggers new₁).Perm (triggers new) ∧
      (∀ i, c₁.getD i 0 = raisedTo i p.events (c.getD i 0)) ∧
      (Idle c₁ → divideRest new c (p :: r) = divideRest new₁ c₁ r) ∧
      (¬ Idle c₁ → divideRest new c (p :: r) = do
        let (new, c) ← divideFrom p.time (p.time + leastRunning c₁) (nextTrigger? r) 9 p.time (leastRunning c₁) c₁ new₁
        divideRest new c r) := by
  obtain ⟨new₁, c₁, h, hp, hl, hi⟩ := divideEvents_eq p.time new hok.length hw
  have hok₁ := hok.raise hw hl hi
  refine ⟨new₁, c₁, hok₁, hp, hi, fun hc => ?_, fun hc => ?_⟩
  · rw [divideRest, h]
    simp only [bind, Except.bind, (maximum_eq_zero hok₁).2 hc, if_true]
  · rw [divideRest, h]
    simp only [bind, Except.bind, mt (maximum_eq_zero hok₁).1 hc, if_false]

theorem divideRest_total : ∀ {r : Grid HwEvent} (new : Grid HwEvent) {c : Counters}, CountersOk c →
    (∀ p ∈ r, ∀ e ∈ p.events, e.WellFormed) →
    ∃ out, divideRest new c r = .ok out ∧ Extends (triggers new) (triggers out)
  | [], new, _, _, _ => ⟨new, rfl, .refl _⟩
  | p :: r, new, c, hok, hw => by
    obtain ⟨new₁, c₁, hok₁, hp, -, hidle, hrun⟩ := divideRest_events r new hok (hw p mem_cons_self)
    have hw' : ∀ q ∈ r, ∀ e ∈ q.events, e.WellFormed := fun q hq => hw q (mem_cons_of_mem p hq)
    by_cases hc : Idle c₁
    · obtain ⟨out, h, hext⟩ := divideRest_total new₁ hok₁ hw'
      exact ⟨out, (hidle hc).trans h, (Extends.of_perm hp).trans hext⟩
    · obtain ⟨new₂, c₂, h, hok₂, hext⟩ := divideFrom_total p.time (p.time + leastRunning c₁)
        9 p.time new₁ hok₁ (leastRunning_spec hok₁ hc).2.2
        fun s _ hs => by omega
      obtain ⟨out, h', hext'⟩ := divideRest_total new₂ hok₂ hw'
      refine ⟨out, ?_, ((Extends.of_perm hp).trans hext).trans hext'⟩
      rw [hrun hc, h]
      exact h'

/-- The first trigger that the loop at a point makes. -/
theorem divideFrom_first (t fin now : Int) (n : Nat) (new : Grid HwEvent) {next : Option Int}
    (hok : CountersOk c) (hc : ¬ Idle c) (hs : ∀ s, next = some s → s ≤ fin → t < s ∧ s ≤ t + leastRunning c) :
    ∃ new' c' d, divideFrom t fin next (n + 1) now (leastRunning c) c new = .ok (new', c') ∧
      CountersOk c' ∧ 0 < d ∧ Extends (triggers new ++ [(now, cutOf d c)]) (triggers new') := by
  obtain ⟨hpos, -, hle⟩ := leastRunning_spec hok hc
  by_cases hstop : ∃ s, next = some s ∧ s ≤ fin
  · obtain ⟨s, rfl, hsf⟩ := hstop
    obtain ⟨new', h, hp⟩ := divideFrom_stop t (leastRunning c) now n new hok hsf
    obtain ⟨hts, hsl⟩ := hs s rfl hsf
    exact ⟨new', _, s - t, h, hok.lower fun i hi => by have := hle i hi; omega, by omega, .of_perm hp⟩
  · have hs' : ∀ s, next = some s → fin < s := fun s he => by
      by_contra hn
      exact hstop ⟨s, he, by omega⟩
    obtain ⟨new', hp, h⟩ := divideFrom_on t (leastRunning c) now n new hok hs'
    rw [h]
    split
    · exact ⟨new', _, _, rfl, hok.advance, hpos, .of_perm hp⟩
    · rename_i hne
      change leastRunning (advance c) ≠ 0 at hne
      rw [Ne, leastRunning_eq_zero hok.advance] at hne
      obtain ⟨new'', c'', h', hok'', hext⟩ := divideFrom_total t fin n (t + leastRunning c)
        new' hok.advance (leastRunning_spec hok.advance hne).2.2
        fun s he hsf => absurd (hs' s he) (by omega)
      exact ⟨new'', c'', _, h', hok'', hpos, (Extends.of_perm hp).trans hext⟩

/-- Where a counter runs after the events of a point, a trigger is made that starts at the point. -/
theorem divideRest_makes (new : Grid HwEvent) (hok : CountersOk c) (hw : ∀ q ∈ p :: r, ∀ e ∈ q.events, e.WellFormed)
    (hs : ∀ s, nextTrigger? r = some s → p.time < s) (hi : 0 < raisedTo i p.events (c.getD i 0)) :
    ∃ out y, divideRest new c (p :: r) = .ok out ∧ On y p.time ∧ Extends (triggers new ++ [y]) (triggers out) := by
  obtain ⟨new₁, c₁, hok₁, hp, hc₁, -, hrun⟩ := divideRest_events r new hok (hw p mem_cons_self)
  have hc : ¬ Idle c₁ := fun h => absurd (h i) (by rw [hc₁]; omega)
  obtain ⟨new₂, c₂, d, h, hok₂, hd, hext⟩ := divideFrom_first p.time (p.time + leastRunning c₁)
    p.time 8 new₁ hok₁ hc fun s he hsf => ⟨hs s he, hsf⟩
  obtain ⟨out, h', hext'⟩ := divideRest_total new₂ hok₂ fun q hq => hw q (mem_cons_of_mem p hq)
  refine ⟨out, (p.time, cutOf d c₁), ?_, ⟨le_refl _, by simp only [cutOf]; omega⟩,
    ((Extends.of_perm (hp.symm.append_right _).symm).trans hext).trans hext'⟩
  rw [hrun hc, h]
  exact h'

/-! ## The next trigger -/

theorem nextTrigger?_mem : ∀ {r : Grid HwEvent} {s : Int}, nextTrigger? r = some s →
    ∃ q ∈ r, triggers [q] ≠ [] ∧ q.time = s
  | p :: r, s, h => by
    rw [nextTrigger?] at h
    split at h
    · rename_i hp
      split at h
      · cases h
      · refine ⟨p, mem_cons_self, fun hn => ?_, Option.some.inj h⟩
        rw [triggers_point_eq_nil.1 hn] at hp
        cases hp
    · obtain ⟨q, hq, ht⟩ := nextTrigger?_mem h
      exact ⟨q, mem_cons_of_mem p hq, ht⟩

/-- No point with triggers comes before the next trigger. -/
theorem le_of_nextTrigger? : ∀ {r : Grid HwEvent} {s : Int}, nextTrigger? r = some s →
    r.Pairwise (fun p q => p.time < q.time) → ∀ q ∈ r, triggers [q] ≠ [] → s ≤ q.time
  | p :: r, s, h, hr, q, hq, ht => by
    rw [pairwise_cons] at hr
    rw [nextTrigger?] at h
    split at h
    · split at h
      · cases h
      · obtain rfl : p.time = s := Option.some.inj h
        rcases mem_cons.1 hq with rfl | hq
        · exact le_refl _
        · exact (hr.1 q hq).le
    · rename_i hp
      rcases mem_cons.1 hq with rfl | hq
      · exact absurd (triggers_point_eq_nil.2 (by simpa using hp)) ht
      · exact le_of_nextTrigger? h hr.2 q hq ht

theorem nextTrigger?_append (hl : last.events = []) : ∀ (r : Grid HwEvent),
    nextTrigger? (r ++ [last]) = nextTrigger? r
  | [] => by simp [nextTrigger?, hl]
  | p :: r => by simp [nextTrigger?, nextTrigger?_append hl r]

/-- The point behind which the next trigger stands is that trigger, or has none and comes before it. -/
theorem nextTrigger?_head (h : nextTrigger? (p :: r) = some s) (hr : (p :: r).Pairwise fun p q => p.time < q.time) :
    (p.time = s ∧ triggers [p] ≠ []) ∨ (p.time < s ∧ triggers [p] = []) := by
  by_cases hp : triggers [p] = []
  · refine .inr ⟨?_, hp⟩
    obtain ⟨q, hq, hqt, rfl⟩ := nextTrigger?_mem h
    rcases mem_cons.1 hq with rfl | hq
    · exact absurd hp hqt
    · exact (pairwise_cons.1 hr).1 q hq
  · refine .inl ⟨?_, hp⟩
    rw [nextTrigger?, if_pos] at h
    · split at h
      · cases h
      · exact Option.some.inj h
    · rw [← Bool.not_eq_false]
      exact fun hn => hp (triggers_point_eq_nil.2 hn)

/-! ## The loop at a point -/

/-- Two triggers were made that overlap. -/
def Overlap (ys : List (Int × HwEvent)) : Prop :=
  ∃ zs x y t, Extends (zs ++ [y]) ys ∧ x ∈ zs ∧ On x t ∧ On y t

theorem Overlap.extend (h : Overlap ys) (he : Extends ys zs) : Overlap zs := by
  obtain ⟨l, x, y, t, hl, hx⟩ := h
  exact ⟨l, x, y, t, hl.trans he, hx⟩

theorem Overlap.not_apart (h : Overlap ys) : ¬ ys.Pairwise Apart := by
  obtain ⟨l, x, y, t, hl, hx, hxt, hyt⟩ := h
  exact hl.not_apart hx hxt hyt

theorem Idle.advance (hc : Idle c) : Idle (advance c) := fun i => by
  rw [QubitLab.Qasm.advance, getD_lower, hc i]
  rfl

section
variable {new : Grid HwEvent}

theorem Cover.toFirstEnd {now : Int} {new' : Grid HwEvent} (h : Cover now xs (triggers new) c) (hok : CountersOk c)
    (hc : ¬ Idle c) (hp : (triggers new').Perm (triggers new ++ [(now, cutOf (leastRunning c) c)])) :
    Cover (now + leastRunning c) xs (triggers new') (advance c) :=
  have hl := leastRunning_spec hok hc
  h.cut hok hl.2.2 rfl rfl hl.1 hp

theorem divideFrom_upTo (hok : CountersOk c) (h : Cover t xs (triggers new) c) (hts : t < s)
    (hs : s ≤ t + leastRunning c) (hc : ¬ Idle c) :
    ∃ new', divideFrom t (t + leastRunning c) (some s) 9 t (leastRunning c) c new = .ok (new', lower (s - t) c) ∧
      CountersOk (lower (s - t) c) ∧ Cover s xs (triggers new') (lower (s - t) c) ∧
      (t, cutOf (s - t) c) ∈ triggers new' := by
  obtain ⟨new', hd, hp⟩ := divideFrom_stop t (leastRunning c) t 8 new hok hs
  have hle : ∀ i, 0 < c.getD i 0 → s - t ≤ c.getD i 0 := fun i hi => by
    have := (leastRunning_spec hok hc).2.2 i hi
    omega
  have hcov := h.cut hok hle (e := cutOf (s - t) c) rfl rfl (by omega) hp
  rw [show t + (s - t) = s by omega] at hcov
  exact ⟨new', hd, hok.lower hle, hcov, hp.mem_iff.2 (mem_append_right _ (mem_singleton_self _))⟩

/-- Where two steps bring the counters to rest the loop shows the whole signal. -/
theorem divideFrom_toEnd {next : Option Int} (hok : CountersOk c) (h : Cover t xs (triggers new) c) (hc : ¬ Idle c)
    (hs : ∀ s, next = some s → t + leastRunning c < s) (h2 : Idle (advance (advance c))) :
    ∃ new' c' m, divideFrom t (t + leastRunning c) next 9 t (leastRunning c) c new = .ok (new', c') ∧
      CountersOk c' ∧ Idle c' ∧ Cover (t + m) xs (triggers new') c' ∧ 0 < m ∧ (∃ i, c.getD i 0 = m) ∧
      ∀ i, c.getD i 0 ≤ m := by
  obtain ⟨hpos, hi, hle⟩ := leastRunning_spec hok hc
  obtain ⟨new₁, hp₁, hd₁⟩ := divideFrom_on t (leastRunning c) t 8 new hok hs
  have hcov₁ := h.toFirstEnd hok hc hp₁
  rw [hd₁]
  change ∃ new' c' m, (if leastRunning (advance c) = 0 then _ else _) = _ ∧ _
  by_cases h1 : Idle (advance c)
  · rw [if_pos ((leastRunning_eq_zero hok.advance).2 h1)]
    refine ⟨new₁, advance c, leastRunning c, rfl, hok.advance, h1, hcov₁, hpos, hi, fun i => ?_⟩
    by_contra hn
    have := getD_advance (c := c) (i := i) (by omega)
    have := h1 i
    omega
  · rw [if_neg (mt (leastRunning_eq_zero hok.advance).1 h1)]
    obtain ⟨hpos', ⟨j, hj⟩, -⟩ := leastRunning_spec hok.advance h1
    obtain ⟨new₂, hp₂, hd₂⟩ := divideFrom_on t (leastRunning (advance c)) (t + leastRunning c) 7 new₁ hok.advance hs
    have hcov₂ := hcov₁.toFirstEnd hok.advance h1 hp₂
    change _ = if leastRunning (advance (advance c)) = 0 then _ else _ at hd₂
    rw [if_pos ((leastRunning_eq_zero hok.advance.advance).2 h2)] at hd₂
    refine ⟨new₂, advance (advance c), leastRunning c + leastRunning (advance c), hd₂, hok.advance.advance, h2,
      by rwa [← Int.add_assoc], by omega, ⟨j, ?_⟩, fun i => ?_⟩
    · have := (pos_of_advance_pos (c := c) (i := j) (by omega)).2
      omega
    · by_contra hn
      have h3 := getD_advance (c := c) (i := i) (by omega)
      have h4 := getD_advance (c := advance c) (i := i) (by omega)
      have h5 := h2 i
      omega

/-- Where a third trigger is needed, it starts inside one of the first two. -/
theorem divideFrom_overlap (new : Grid HwEvent) {next : Option Int} (hok : CountersOk c) (hc : ¬ Idle c)
    (hs : ∀ s, next = some s → t + leastRunning c < s) (h2 : ¬ Idle (advance (advance c))) :
    ∃ new' c', divideFrom t (t + leastRunning c) next 9 t (leastRunning c) c new = .ok (new', c') ∧
      CountersOk c' ∧ Overlap (triggers new') := by
  have h1 : ¬ Idle (advance c) := fun h => h2 h.advance
  have hpos := (leastRunning_spec hok hc).1
  have hpos' := (leastRunning_spec hok.advance h1).1
  obtain ⟨new₁, hp₁, hd₁⟩ := divideFrom_on t (leastRunning c) t 8 new hok hs
  obtain ⟨new₂, hp₂, hd₂⟩ := divideFrom_on t (leastRunning (advance c)) (t + leastRunning c) 7 new₁ hok.advance hs
  obtain ⟨new₃, c₃, d, hd₃, hok₃, hd0, hext⟩ := divideFrom_first t (t + leastRunning c)
    (t + leastRunning (advance c)) 6 new₂ hok.advance.advance h2
    fun s he hsf => absurd (hs s he) (by omega)
  change _ = if leastRunning (advance c) = 0 then _ else _ at hd₁
  change _ = if leastRunning (advance (advance c)) = 0 then _ else _ at hd₂
  rw [if_neg (mt (leastRunning_eq_zero hok.advance).1 h1)] at hd₁
  rw [if_neg (mt (leastRunning_eq_zero hok.advance.advance).1 h2)] at hd₂
  refine ⟨new₃, c₃, hd₁.trans (hd₂.trans hd₃), hok₃, ?_⟩
  have hon : On (t + leastRunning (advance c), cutOf d (advance (advance c))) (t + leastRunning (advance c)) :=
    ⟨le_refl _, by simp only [cutOf]; omega⟩
  have hsecond := hp₂.mem_iff.2 (mem_append_right _ (mem_singleton_self _))
  have hfirst := hp₂.mem_iff.2 (mem_append_left _
    (hp₁.mem_iff.2 (mem_append_right _ (mem_singleton_self _))))
  rcases lt_or_ge (leastRunning (advance c)) (leastRunning c) with hlt | hge
  · exact ⟨_, _, _, _, hext, hfirst, ⟨by omega, by simp only [cutOf]; omega⟩, hon⟩
  · exact ⟨_, _, _, _, hext, hsecond, ⟨by omega, by simp only [cutOf]; omega⟩, hon⟩

end

/-! ## The walk -/

/-- `ys` shows the signal of `xs` by triggers that are apart. -/
def Shows (xs ys : List (Int × HwEvent)) : Prop :=
  (∀ (i : Nat) (t : Int), Signal ys i t ↔ Signal xs i t) ∧ ys.Pairwise Apart

/-- The points still to do are in order, well formed, and later than the triggers so far. -/
structure Ahead (xs : List (Int × HwEvent)) (r : Grid HwEvent) : Prop where
  sorted : r.Pairwise fun p q => p.time < q.time
  wellFormed : ∀ p ∈ r, ∀ e ∈ p.events, e.WellFormed
  later : ∀ x ∈ xs, ∀ p ∈ r, x.1 < p.time

/-- Where the walk stands: what is left of the triggers so far was cut at the next point, or nothing is left. Points
with triggers before `busy` fall into triggers that were made. -/
structure Standing (front busy : Int) (xs ys : List (Int × HwEvent)) (r : Grid HwEvent) (c : Counters) : Prop where
  ok : CountersOk c
  cover : Cover front xs ys c
  rest : Idle c ∨ ∃ p r', r = p :: r' ∧ triggers [p] ≠ [] ∧ p.time = front ∧ busy ≤ front
  ahead : ∀ q ∈ r, triggers [q] ≠ [] → busy ≤ q.time → front ≤ q.time
  shown : ∀ q ∈ r, triggers [q] ≠ [] → q.time < busy → ∃ y ∈ ys, On y q.time

/-- From here on the walk ends, and shows the signal if and only if the rest is clean. -/
def Settles (busy : Int) (xs : List (Int × HwEvent)) (r : Grid HwEvent) (new : Grid HwEvent) (c : Counters)
    (target : List (Int × HwEvent)) : Prop :=
  ∃ out, divideRest new c r = .ok out ∧ (Shows target (triggers out) ↔ CleanFrom busy xs r)

/-- The walk settles over these points, wherever it stands. -/
def Walks (last : TimePoint HwEvent) (r : Grid HwEvent) : Prop :=
  ∀ {front busy : Int} {xs : List (Int × HwEvent)} {new : Grid HwEvent} {c : Counters}, Ahead xs r →
    Standing front busy xs (triggers new) r c → Settles busy xs (r ++ [last]) new c (xs ++ triggers r)

theorem mem_triggers_point : x ∈ triggers [p] ↔ x.1 = p.time ∧ x.2 ∈ p.events ∧ x.2.name = "trigger" := by
  obtain ⟨t, e⟩ := x
  simp only [triggers_point, mem_map, mem_filter, beq_iff_eq, Prod.mk.injEq]
  constructor
  · rintro ⟨e', ⟨h1, h2⟩, rfl, rfl⟩
    exact ⟨rfl, h1, h2⟩
  · rintro ⟨rfl, h1, h2⟩
    exact ⟨e, ⟨h1, h2⟩, rfl, rfl⟩

theorem Ahead.tail (h : Ahead xs (p :: r)) :
    Ahead (xs ++ triggers [p]) r where
  sorted := (pairwise_cons.1 h.sorted).2
  wellFormed q hq := h.wellFormed q (mem_cons_of_mem p hq)
  later x hx q hq := by
    rcases mem_append.1 hx with hx | hx
    · exact h.later x hx q (mem_cons_of_mem p hq)
    · rw [(mem_triggers_point.1 hx).1]
      exact (pairwise_cons.1 h.sorted).1 q hq

theorem Ahead.le_time (h : Ahead xs (p :: r)) : ∀ x ∈ xs ++ triggers [p], x.1 ≤ p.time := by
  intro x hx
  rcases mem_append.1 hx with hx | hx
  · exact (h.later x hx p mem_cons_self).le
  · exact (mem_triggers_point.1 hx).1.le

theorem Ahead.wellFormed_append
    (h : Ahead xs r) (hl : last.events = []) : ∀ p ∈ r ++ [last], ∀ e ∈ p.events, e.WellFormed := by
  intro p hp
  rcases mem_append.1 hp with hp | hp
  · exact h.wellFormed p hp
  · rw [mem_singleton.1 hp, hl]
    simp

theorem Ahead.lt_next (h : Ahead xs (p :: r)) (hs : nextTrigger? r = some s) : p.time < s := by
  obtain ⟨q, hq, -, rfl⟩ := nextTrigger?_mem hs
  exact (pairwise_cons.1 h.sorted).1 q hq

section
variable {front busy : Int} {target : List (Int × HwEvent)} {l new : Grid HwEvent}

/-- Triggers that overlap spoil the walk, which is right where the rest is not clean. -/
theorem Settles.of_overlap {out : Grid HwEvent} (h : divideRest new c r = .ok out) (ho : Overlap (triggers out))
    (hn : ¬ CleanFrom busy xs r) : Settles busy xs r new c target :=
  ⟨out, h, iff_of_false (fun hs => ho.not_apart hs.2) hn⟩

/-- A point after which the walk goes on. -/
theorem Settles.next {busy' : Int} {new' : Grid HwEvent} {c' : Counters}
    (h : Settles busy' (xs ++ triggers [p]) r new' c' (xs ++ triggers [p] ++ triggers l))
    (hrun : divideRest new c (p :: r) = divideRest new' c' r)
    (hclean : CleanFrom busy xs (p :: r) ↔ CleanFrom busy' (xs ++ triggers [p]) r) :
    Settles busy xs (p :: r) new c (xs ++ triggers (p :: l)) := by
  obtain ⟨out, hout, hiff⟩ := h
  rw [append_assoc, ← triggers_cons] at hiff
  exact ⟨out, hrun.trans hout, hiff.trans hclean.symm⟩

/-- Points with triggers of no effect are passed. -/
theorem Standing.skip (h : Standing front busy xs (triggers new) (p :: r) c)
    (hc : Idle c) (hok : CountersOk c₁) (hp : (triggers new₁).Perm (triggers new))
    (hc₁ : ∀ i, c₁.getD i 0 = raisedTo i p.events (c.getD i 0))
    (hno : ∀ x ∈ triggers [p], x.2.setBits = [] ∨ x.2.duration = 0) :
    Idle c₁ ∧ Standing front busy (xs ++ triggers [p]) (triggers new₁) r c₁ := by
  have hsame : ∀ i, c₁.getD i 0 = c.getD i 0 := fun i => by
    rw [hc₁]
    refine raisedTo_eq_self (h.ok.nonneg i) fun e he ht => ?_
    rcases hno (p.time, e) (mem_triggers_point.2 ⟨rfl, he, ht⟩) with h0 | h0
    · exact .inl (by simp only at h0; simp [h0])
    · exact .inr h0
  have hidle : Idle c₁ := fun i => (hsame i).trans (hc i)
  have hcov := (h.cover.skip hno).perm hp
  refine ⟨hidle, hok, ⟨fun i t ht => ?_, hcov.shown, hcov.apart, hcov.ended⟩, .inl hidle,
    fun q hq => h.ahead q (mem_cons_of_mem p hq), fun q hq ht hb => ?_⟩
  · rw [hcov.left i t ht, hsame]
  · obtain ⟨y, hy, hon⟩ := h.shown q (mem_cons_of_mem p hq) ht hb
    exact ⟨y, hp.mem_iff.2 hy, hon⟩

/-- At a point that triggers of before still cover, or with none, the walk goes on unless the point raises a counter. -/
theorem settles_inside (hA : Ahead xs (p :: r)) (hl : last.events = [])
    (h : Standing front busy xs (triggers new) (p :: r) c) (hc : Idle c)
    (hin : triggers [p] = [] ∨ p.time < busy) (ih : Walks last r) :
    Settles busy xs (p :: r ++ [last]) new c (xs ++ triggers (p :: r)) := by
  have hclean : CleanFrom busy xs (p :: r ++ [last]) ↔
      (∀ x ∈ triggers [p], x.2.setBits = [] ∨ x.2.duration = 0) ∧
        CleanFrom busy (xs ++ triggers [p]) (r ++ [last]) := by
    rw [cons_append, CleanFrom]
    by_cases hp : triggers [p] = []
    · simp [hp]
    · simp only [if_neg hp, if_pos (hin.resolve_left hp)]
  by_cases hno : ∀ x ∈ triggers [p], x.2.setBits = [] ∨ x.2.duration = 0
  · obtain ⟨new₁, c₁, hok₁, hp, hc₁, hidle, -⟩ := divideRest_events (r ++ [last]) new h.ok
      (hA.wellFormed p mem_cons_self)
    obtain ⟨hi, hs⟩ := h.skip hc hok₁ hp hc₁ hno
    exact (ih hA.tail hs).next (hidle hi) (hclean.trans (and_iff_right hno))
  · -- a trigger that starts inside one that was made
    obtain ⟨x, hxn⟩ := not_forall.1 hno
    obtain ⟨hx, hxn⟩ := Classical.not_imp.1 hxn
    obtain ⟨hbits, hdur⟩ := not_or.1 hxn
    obtain ⟨hxt, hxe, hxn⟩ := mem_triggers_point.1 hx
    have hpt : triggers [p] ≠ [] := ne_nil_of_mem hx
    obtain ⟨y, hy, hon⟩ := h.shown p mem_cons_self hpt (hin.resolve_left hpt)
    have hwf := hA.wellFormed p mem_cons_self x.2 hxe
    rw [HwEvent.WellFormed, if_pos hxn] at hwf
    obtain ⟨b, hb⟩ := exists_mem_of_ne_nil _ hbits
    have hb1 := (hwf.1 b hb).1
    have hraise := duration_le_raisedTo (m := c.getD b.toNat 0) hxn (i := b.toNat)
      (by rwa [Int.toNat_of_nonneg (by omega)]) hxe
    obtain ⟨out, z, hout, hz, hext⟩ := divideRest_makes new (i := b.toNat) h.ok (hA.wellFormed_append hl)
      (fun s hs => hA.lt_next ((nextTrigger?_append hl r).symm.trans hs)) (by have := hwf.2; omega)
    exact .of_overlap hout ⟨_, _, _, _, hext, hy, hon, hz⟩ fun hcl => hno (hclean.1 hcl).1

end

section
variable {front busy : Int} {new : Grid HwEvent}

theorem Standing.cover_time (h : Standing front busy xs ys (p :: r) c) (hp : triggers [p] ≠ [])
    (hb : busy ≤ p.time) : Cover p.time xs ys c := by
  rcases h.rest with hc | ⟨q, r', hq, -, hqt, -⟩
  · exact h.cover.wait hc (h.ahead p mem_cons_self hp hb)
  · obtain ⟨rfl, -⟩ := List.cons.inj hq
    exact hqt ▸ h.cover

/-- Where nothing is left after a point, the walk stands at the end of what is shown. -/
theorem Standing.of_idle {m : Int} (hA : Ahead xs (p :: r)) (hok : CountersOk c) (hc : Idle c)
    (h : Cover (p.time + m) (xs ++ triggers [p]) ys c)
    (hm : ∀ u, p.time ≤ u → u < p.time + m → ∃ i : Nat, Signal (xs ++ triggers [p]) i u) :
    Standing (p.time + m) (p.time + m) (xs ++ triggers [p]) ys r c := by
  refine ⟨hok, h, .inl hc, fun _ _ _ hq => hq, fun q hq _ hlt => ?_⟩
  obtain ⟨i, hi⟩ := hm q.time ((pairwise_cons.1 hA.sorted).1 q hq).le hlt
  obtain ⟨y, hy, hon, -⟩ := (h.shown i q.time).2 ⟨hi, hlt⟩
  exact ⟨y, hy, hon⟩

theorem cutAt?_eq_some {lengths : Finset Int} {next : Option Int} :
    cutAt? t lengths next = some s ↔ next = some s ∧ ∀ l ∈ lengths, s ≤ t + l := by
  simp only [cutAt?, Option.filter_eq_some_iff, decide_eq_true_eq]

/-- At the next trigger, which no bit reaches before its end, all bits are cut. -/
theorem settles_cut (hA : Ahead xs (p :: r)) (hl : last.events = [])
    (hb : busy ≤ p.time) (hok : CountersOk c₁) (hcov : Cover p.time (xs ++ triggers [p]) (triggers new₁) c₁)
    (hc : ¬ Idle c₁) (hs : nextTrigger? r = some s) (hle : s ≤ p.time + leastRunning c₁)
    (hrun : divideRest new c (p :: r ++ [last]) = do
      let (new, c) ← divideFrom p.time (p.time + leastRunning c₁) (some s) 9 p.time (leastRunning c₁) c₁ new₁
      divideRest new c (r ++ [last]))
    (hclean : CleanFrom busy xs (p :: r ++ [last]) ↔
      ((r ++ [last]).head?.map (·.time) = some s ∨ ∀ l ∈ lengthsAt (xs ++ triggers [p]) p.time, p.time + l = s) ∧
        CleanFrom busy (xs ++ triggers [p]) (r ++ [last]))
    (ih : Walks last r) : Settles busy xs (p :: r ++ [last]) new c (xs ++ triggers (p :: r)) := by
  have hps := hA.lt_next hs
  obtain ⟨new₂, hd, hok₂, hcov₂, hmem⟩ := divideFrom_upTo hok hcov hps hle hc
  have hrun' : divideRest new c (p :: r ++ [last]) = divideRest new₂ (lower (s - p.time) c₁) (r ++ [last]) := by
    rw [hrun, hd]
    rfl
  have hidle : Idle (lower (s - p.time) c₁) ↔ ∀ l ∈ lengthsAt (xs ++ triggers [p]) p.time, p.time + l = s := by
    simp only [hcov.mem_lengthsAt hok hA.le_time, Idle, getD_lower]
    constructor
    · rintro h l ⟨hl0, i, rfl⟩
      have := h i
      rw [if_pos hl0] at this
      omega
    · intro h i
      split
      · rename_i hi
        have := h _ ⟨hi, i, rfl⟩
        omega
      · have := hok.nonneg i
        omega
  obtain ⟨q, r', rfl⟩ : ∃ q r', r = q :: r' := by
    cases r with
    | nil => cases hs
    | cons q r' => exact ⟨q, r', rfl⟩
  have hstand (hrest : Idle (lower (s - p.time) c₁) ∨ q.time = s ∧ triggers [q] ≠ []) :
      Standing s busy (xs ++ triggers [p]) (triggers new₂) (q :: r') (lower (s - p.time) c₁) := by
    refine ⟨hok₂, hcov₂, hrest.imp_right fun ⟨hq, ht⟩ => ⟨q, r', rfl, ht, hq, by omega⟩,
      fun q' hq' ht _ => le_of_nextTrigger? hs hA.tail.sorted q' hq' ht, fun q' hq' _ hlt => ?_⟩
    have := (pairwise_cons.1 hA.sorted).1 q' hq'
    omega
  by_cases hrest : q.time = s ∨ Idle (lower (s - p.time) c₁)
  · refine (ih hA.tail (hstand ?_)).next hrun' (hclean.trans (and_iff_right ?_))
    · rcases hrest with hq | hi
      · rcases nextTrigger?_head hs hA.tail.sorted with h | ⟨h, -⟩
        · exact .inr h
        · omega
      · exact .inl hi
    · exact hrest.imp (fun h => by simp [h]) hidle.1
  · -- the next point has no trigger and comes before the cut ends
    obtain ⟨hqs, hi⟩ := not_or.1 hrest
    obtain ⟨i, hi⟩ := hok₂.pos_of_not_idle hi
    have hqlt : q.time < s := by
      rcases nextTrigger?_head hs hA.tail.sorted with ⟨h, -⟩ | ⟨h, -⟩
      · exact absurd h hqs
      · exact h
    have hpq := (pairwise_cons.1 hA.sorted).1 q mem_cons_self
    obtain ⟨out, y, hout, hy, hext⟩ := divideRest_makes new₂ (i := i) hok₂ (hA.tail.wellFormed_append hl)
      (fun s hs => hA.tail.lt_next ((nextTrigger?_append hl r').symm.trans hs)) (hi.trans_le (le_raisedTo _ _ _))
    refine .of_overlap (hrun'.trans hout) ⟨_, _, _, _, hext, hmem, ⟨hpq.le, ?_⟩, hy⟩ fun hcl => ?_
    · simp only [cutOf]; omega
    · rcases (hclean.1 hcl).1 with h | h
      · exact hqs (by simpa using h)
      · exact hrest (.inr (hidle.2 h))

/-- Where a bit ends before the next trigger, all bits are shown to their ends. -/
theorem settles_full (hA : Ahead xs (p :: r)) (hl : last.events = [])
    (hok : CountersOk c₁) (hcov : Cover p.time (xs ++ triggers [p]) (triggers new₁) c₁) (hc : ¬ Idle c₁)
    (hs : ∀ s, nextTrigger? (r ++ [last]) = some s → p.time + leastRunning c₁ < s)
    (hrun : divideRest new c (p :: r ++ [last]) = do
      let (new, c) ← divideFrom p.time (p.time + leastRunning c₁) (nextTrigger? (r ++ [last])) 9 p.time
        (leastRunning c₁) c₁ new₁
      divideRest new c (r ++ [last]))
    (hclean : CleanFrom busy xs (p :: r ++ [last]) ↔
      (lengthsAt (xs ++ triggers [p]) p.time).card ≤ 2 ∧
        CleanFrom (p.time + (lengthsAt (xs ++ triggers [p]) p.time).fold max 0 id) (xs ++ triggers [p]) (r ++ [last]))
    (ih : Walks last r) : Settles busy xs (p :: r ++ [last]) new c (xs ++ triggers (p :: r)) := by
  have hcard := hcov.card_le_two_iff hok hA.le_time hc
  by_cases h2 : Idle (advance (advance c₁))
  · obtain ⟨new₂, c₂, m, hd, hok₂, hidle, hcov₂, hm, ⟨i, hi⟩, hle⟩ := divideFrom_toEnd hok hcov hc hs h2
    have hmax : (lengthsAt (xs ++ triggers [p]) p.time).fold max 0 id = m := by
      refine le_antisymm ((Finset.fold_max_le m).2 ⟨hm.le, fun l hl => ?_⟩)
        ((Finset.le_fold_max m).2 (.inr ⟨m, ?_, le_rfl⟩))
      · obtain ⟨-, j, rfl⟩ := (hcov.mem_lengthsAt hok hA.le_time).1 hl
        exact hle j
      · exact (hcov.mem_lengthsAt hok hA.le_time).2 ⟨hm, i, hi⟩
    rw [hmax] at hclean
    have hstand := Standing.of_idle hA hok₂ hidle hcov₂ fun u hu hlt => ⟨i, (hcov.left i u hu).2 (by omega)⟩
    refine (ih hA.tail hstand).next (hrun.trans ?_) (hclean.trans (and_iff_right (hcard.2 h2)))
    rw [hd]
    rfl
  · obtain ⟨new₂, c₂, hd, hok₂, hover⟩ := divideFrom_overlap new₁ hok hc hs h2
    obtain ⟨out, hout, hext⟩ := divideRest_total new₂ hok₂ (hA.tail.wellFormed_append hl)
    refine .of_overlap ?_ (hover.extend hext) fun hcl => h2 (hcard.1 (hclean.1 hcl).1)
    rw [hrun, hd]
    exact hout

/-- A point whose triggers set nothing. -/
theorem settles_nothing (hA : Ahead xs (p :: r)) (hp : triggers [p] ≠ [])
    (hb : busy ≤ p.time) (hok : CountersOk c₁) (hcov : Cover p.time (xs ++ triggers [p]) (triggers new₁) c₁)
    (hc : Idle c₁) (hrun : divideRest new c (p :: r ++ [last]) = divideRest new₁ c₁ (r ++ [last]))
    (ih : Walks last r) : Settles busy xs (p :: r ++ [last]) new c (xs ++ triggers (p :: r)) := by
  have hempty : lengthsAt (xs ++ triggers [p]) p.time = ∅ := by
    refine Finset.eq_empty_of_forall_notMem fun l hl => ?_
    obtain ⟨hl0, i, rfl⟩ := (hcov.mem_lengthsAt hok hA.le_time).1 hl
    exact absurd (hc i) (by omega)
  have hclean := cleanFrom_point xs (r ++ [last]) hp hb
  have hstand {b : Int} (hb : b ≤ p.time) : Standing p.time b (xs ++ triggers [p]) (triggers new₁) r c₁ := by
    have hlt := (pairwise_cons.1 hA.sorted).1
    exact ⟨hok, hcov, .inl hc, fun q hq _ _ => (hlt q hq).le, fun q hq _ h => absurd (hlt q hq) (by omega)⟩
  rw [hempty] at hclean
  split at hclean
  · exact (ih hA.tail (hstand hb)).next hrun (hclean.trans (and_iff_right (.inr (by simp))))
  · exact (ih hA.tail (hstand (by simp))).next hrun (hclean.trans (and_iff_right (by simp)))

/-- A point with triggers from `busy` on. -/
theorem settles_point (hA : Ahead xs (p :: r)) (hl : last.events = [])
    (h : Standing front busy xs (triggers new) (p :: r) c) (hp : triggers [p] ≠ []) (hb : busy ≤ p.time)
    (ih : Walks last r) : Settles busy xs (p :: r ++ [last]) new c (xs ++ triggers (p :: r)) := by
  obtain ⟨new₁, c₁, hok, hperm, hc₁, hidle, hrun⟩ := divideRest_events (r ++ [last]) new h.ok
    (hA.wellFormed p mem_cons_self)
  have hcov := ((h.cover_time hp hb).raise hc₁).perm hperm
  by_cases hc : Idle c₁
  · exact settles_nothing hA hp hb hok hcov hc (hidle hc) ih
  obtain ⟨hpos, hi, hle⟩ := leastRunning_spec hok hc
  have hcut : ∀ s, cutAt? p.time (lengthsAt (xs ++ triggers [p]) p.time) (nextTrigger? (r ++ [last])) = some s ↔
      nextTrigger? (r ++ [last]) = some s ∧ s ≤ p.time + leastRunning c₁ := by
    intro s
    simp only [cutAt?_eq_some, hcov.mem_lengthsAt hok hA.le_time]
    refine and_congr_right fun _ => ⟨fun h => h _ ⟨hpos, hi⟩, ?_⟩
    rintro hs l ⟨hl0, i, rfl⟩
    have := hle i hl0
    omega
  have hclean := cleanFrom_point xs (r ++ [last]) hp hb
  split at hclean
  · rename_i s hs
    obtain ⟨hs, hsl⟩ := (hcut s).1 hs
    have hrun' := hrun hc
    rw [hs] at hrun'
    exact settles_cut hA hl hb hok hcov hc ((nextTrigger?_append hl r).symm.trans hs) hsl hrun' hclean ih
  · rename_i hnone
    refine settles_full hA hl hok hcov hc (fun s hs => ?_) (hrun hc) hclean ih
    by_contra hn
    have := (hcut s).2 ⟨hs, by omega⟩
    rw [hnone] at this
    cases this

end

theorem walks (hl : last.events = []) (r : Grid HwEvent) : Walks last r := by
  induction r with
  | nil =>
    intro front busy xs new c hA h
    have hc : Idle c := h.rest.resolve_right fun ⟨q, r', hq, _⟩ => by cases hq
    obtain ⟨new₁, c₁, -, hperm, hc₁, hidle, -⟩ := divideRest_events (p := last) [] new h.ok (by rw [hl]; simp)
    rw [hl] at hc₁
    have htr : triggers [last] = [] := by rw [triggers_point_eq_nil, hl]; rfl
    refine ⟨new₁, hidle fun i => (hc₁ i).trans (hc i), iff_of_true ⟨fun i t => ?_, ?_⟩ ?_⟩
    · rw [Signal.of_perm hperm, triggers_nil, append_nil]
      exact h.cover.signal_iff hc i t
    · exact (pairwise_apart_perm hperm).2 h.cover.apart
    · simp [CleanFrom, htr]
  | cons p r ih =>
    intro front busy xs new c hA h
    by_cases hp : triggers [p] ≠ [] ∧ busy ≤ p.time
    · exact settles_point hA hl h hp.1 hp.2 ih
    · have hin : triggers [p] = [] ∨ p.time < busy := by
        by_cases h0 : triggers [p] = []
        · exact .inl h0
        · exact .inr (not_le.1 fun hb => hp ⟨h0, hb⟩)
      refine settles_inside hA hl h (h.rest.resolve_right ?_) hin ih
      rintro ⟨q, r', hq, ht, hqt, hb⟩
      obtain ⟨rfl, -⟩ := List.cons.inj hq
      exact hp ⟨ht, hqt ▸ hb⟩

theorem Standing.start (ht : ∀ q ∈ r, t ≤ q.time) : Standing t t [] (triggers []) r (List.replicate 8 0) := by
  have hc : Idle (List.replicate 8 0) := fun i => by
    rw [getD_eq_getElem?_getD, getElem?_replicate]
    split <;> rfl
  refine ⟨⟨rfl, rfl, fun i => (hc i).ge⟩, ⟨fun i u hu => ?_, fun i u => ?_, .nil, by simp⟩, .inl hc,
    fun _ _ _ hq => hq, fun q hq _ hlt => absurd (ht q hq) (by omega)⟩
  · rw [hc i]
    exact iff_of_false (by simp [Signal]) (by omega)
  · simp [Signal]

/-- **Division of triggers**: dividing always gives a grid. Its triggers set every bit exactly when the given triggers
set it, and never overlap, if and only if the given grid is cleanly divisible. -/
theorem divideTriggers_faithful_iff {grid : Grid HwEvent} (h : TriggerGrid grid) :
    ∃ out, divideTriggers grid = .ok out ∧
      (((∀ (b : Nat) (t : Int), Signal (triggers out) b t ↔ Signal (triggers grid) b t) ∧
        (triggers out).Pairwise Apart) ↔ CleanlyDivisible grid) := by
  obtain ⟨points, last, rfl, hl, hsorted, hw⟩ := h
  have hlast : triggers [last] = [] := by rw [triggers_point_eq_nil, hl]; rfl
  have hstart : ∀ q ∈ points, (((points ++ [last]).head?.map (·.time)).getD 0) ≤ q.time := by
    cases points with
    | nil => simp
    | cons p r =>
      intro q hq
      rcases mem_cons.1 hq with rfl | hq
      · exact le_refl _
      · exact ((pairwise_cons.1 hsorted).1 q hq).le
  obtain ⟨out, hout, hiff⟩ := walks hl points ⟨hsorted, hw, by simp⟩ (Standing.start hstart)
  refine ⟨withEnd (points ++ [last]) out, by rw [divideTriggers, hout]; rfl, ?_⟩
  rw [show triggers (withEnd (points ++ [last]) out) = triggers out by simp [withEnd, hlast],
    show triggers (points ++ [last]) = triggers points by simp [hlast]]
  exact hiff

/-- A pulse and two triggers, the second of which starts while the first is on. -/
def staggeredGrid : Grid HwEvent :=
  [{ time := -2, events := [{ name := "trigger", duration := 5, setBits := [1] }, { name := "pulse", codeword := 3 }] },
   { time := 1, events := [{ name := "trigger", duration := 7, setBits := [2, 7] }] },
   { time := 10 }]

theorem divideTriggers_staggered :
    TriggerGrid staggeredGrid ∧ CleanlyDivisible staggeredGrid ∧
    ∃ out, divideTriggers staggeredGrid = .ok out ∧
      (∀ (b : Nat) (t : Int), Signal (triggers out) b t ↔ Signal (triggers staggeredGrid) b t) ∧
      (triggers out).Pairwise Apart := by
  have hg : TriggerGrid staggeredGrid :=
    ⟨staggeredGrid.take 2, { time := 10 }, rfl, rfl, by simp [staggeredGrid], by
      simp [staggeredGrid, HwEvent.WellFormed]⟩
  have hc : CleanlyDivisible staggeredGrid := by decide +kernel
  obtain ⟨out, hout, hiff⟩ := divideTriggers_faithful_iff hg
  exact ⟨hg, hc, out, hout, hiff.2 hc⟩

/-- Three bits that are set together, for three different lengths. -/
def threeLengthsGrid : Grid HwEvent :=
  [{ time := 0, events := [{ name := "trigger", duration := 5, setBits := [1] },
      { name := "trigger", duration := 10, setBits := [2] }, { name := "trigger", duration := 20, setBits := [3] }] },
   { time := 40 }]

/-- The third length is shown too early: its trigger overlaps the second, and the bit ends five clocks before its time. -/
theorem divideTriggers_threeLengths :
    TriggerGrid threeLengthsGrid ∧ ∃ out, divideTriggers threeLengthsGrid = .ok out ∧
      Signal (triggers threeLengthsGrid) 3 17 ∧ ¬ Signal (triggers out) 3 17 ∧ ¬ (triggers out).Pairwise Apart := by
  have hg : TriggerGrid threeLengthsGrid :=
    ⟨threeLengthsGrid.take 1, { time := 40 }, rfl, rfl, by simp [threeLengthsGrid], by
      simp [threeLengthsGrid, HwEvent.WellFormed]⟩
  refine ⟨hg, _, rfl, by decide +kernel, by decide +kernel, fun h => ?_⟩
  exact pairwise_iff_getElem.1 h 1 2 (by decide +kernel) (by decide +kernel) (by decide) 5
    ⟨by decide +kernel, by decide +kernel⟩

end QubitLab.Qasm
