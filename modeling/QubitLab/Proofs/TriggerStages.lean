import QubitLab.Proofs.PulseTiming
import QubitLab.Proofs.TriggerDivision

/-!
# From gates to the triggers that are sent

What the passes of the hardware grid do to the events of any program, pulses and triggers mixed. `stagesOf` and `codedOf`
are what becomes of one event when triggers are split and when their bits are set; the passes do that to each event
(`splitTriggers_timed`, `applyCodewords_built`). The division of triggers walks along the points: `divideFrom_cuts` and
`divideRest_cuts` say that it keeps the other events and makes triggers of running counters only, `divideRest_spec` that
on points in time order every trigger is sent where it starts, and none after the time at which all have ended.
-/

namespace QubitLab.Qasm

open List

/-! ## Building grids -/

/-- A grid that was built event by event: no two points of one time, and none without an event. -/
structure Built (P : List (Int × HwEvent)) (g : Grid HwEvent) : Prop where
  sorted : g.Pairwise fun p q => p.time < q.time
  filled : ∀ p ∈ g, p.events ≠ []
  events : (timed g).Perm P

theorem Built.nil : Built [] [] := ⟨.nil, by simp, .refl _⟩

variable {P : List (Int × HwEvent)} {g new out new' r : Grid HwEvent} {t fin now B D : Int} {e : HwEvent}
  {c c' : Counters} {next : Option Int} {n : Nat} {p : TimePoint HwEvent} {x : Int × HwEvent} {cfg : Config}
  {loop : Bool} {lines : List (List SourceOp)}

theorem Built.add (h : Built P g) (t : Int) (e : HwEvent) :
    Built (P ++ [(t, e)]) (addEvents g t [e]) where
  sorted := addEvents_sorted h.sorted t [e]
  filled := by
    have hg := h.filled
    rcases addEvents_cases g t [e] with ⟨a, p, b, rfl, -, hadd⟩ | ⟨a, b, rfl, hadd⟩ <;>
      · rw [hadd]
        simp only [forall_mem_append, forall_mem_cons] at hg ⊢
        simp_all
  events := (timed_addEvents g t [e]).trans (h.events.append_right _)

/-- A pass that adds something for each event adds it for all of them. -/
theorem foldlM_timed {f : Int → Grid HwEvent → HwEvent → Step (Grid HwEvent)} {F : Int × HwEvent → List (Int × HwEvent)}
    {R : List (Int × HwEvent) → Grid HwEvent → Prop}
    (hf : ∀ {t e new new' P}, R P new → f t new e = .ok new' → R (P ++ F (t, e)) new') (hR : R P new)
    (h : g.foldlM (fun new p => p.events.foldlM (f p.time) new) new = .ok out) : R (P ++ (timed g).flatMap F) out := by
  have hpoint {t : Int} {es : List HwEvent} {new new' : Grid HwEvent} {P : List (Int × HwEvent)} (hR : R P new)
      (h : es.foldlM (f t) new = .ok new') : R (P ++ (es.map fun e => (t, e)).flatMap F) new' := by
    induction es generalizing new P with
    | nil =>
      cases h
      simpa using hR
    | cons e es ih =>
      rw [foldlM_cons] at h
      obtain ⟨new₁, h₁, h⟩ := bind_eq_ok.1 h
      simpa using ih (hf hR h₁) h
  induction g generalizing new P with
  | nil =>
    cases h
    simpa using hR
  | cons p g ih =>
    rw [foldlM_cons] at h
    obtain ⟨new₁, h₁, h⟩ := bind_eq_ok.1 h
    simpa using ih (hpoint hR h₁) h

/-! ## Stages and bits -/

/-- The stages of an event: a trigger of two stages shows its codeword first; one of more stages has none. -/
def stagesOf (x : Int × HwEvent) : List (Int × HwEvent) :=
  if x.2.name = "trigger" then
    match x.2.format with
    | [] => [x]
    | [d] => [(x.1, { x.2 with duration := d, format := [] })]
    | [d₁, d₂] => [(x.1 - d₁, { x.2 with duration := d₁, format := [], triggerBit := -1 }),
        (x.1, { x.2 with duration := d₂, format := [] })]
    | _ => []
  else [x]

/-- A trigger with its bits set, none if it has no bit; other events as they are. -/
def codedOf (x : Int × HwEvent) : List (Int × HwEvent) :=
  if x.2.name = "trigger" then
    match bitsOf x.2 with
    | .ok (b :: bs) => [(x.1, { x.2 with
        setBits := b :: bs, triggerBit := -1, codeword := -1
        codewordBits := if x.2.codeword = -1 then x.2.codewordBits else [] })]
    | _ => []
  else [x]

theorem splitEvent_timed
    (hP : (timed new).Perm P) (h : splitEvent t new e = .ok new') : (timed new').Perm (P ++ stagesOf (t, e)) := by
  have hadd {g g' : Grid HwEvent} {Q : List (Int × HwEvent)} {t : Int} {e : HwEvent} (hQ : (timed g).Perm Q)
      (h : addHw g t e = .ok g') : (timed g').Perm (Q ++ [(t, e)]) := by
    rw [(addHw_ok h).1]
    exact (timed_addEvents g t [e]).trans (hQ.append_right _)
  rw [splitEvent] at h
  rw [stagesOf]
  by_cases hn : e.name = "trigger"
  · rw [if_pos hn] at h
    simp only [if_pos hn]
    rcases hf : e.format with _ | ⟨d, _ | ⟨d₂, _ | ⟨d₃, r⟩⟩⟩ <;> rw [hf] at h
    · exact hadd hP h
    · exact hadd hP h
    · obtain ⟨g₁, h₁, h⟩ := bind_eq_ok.1 h
      obtain ⟨g₂, h₂, h⟩ := bind_eq_ok.1 h
      cases h
      have := (timed_addEvents g₂ (t + d₂) []).trans ((hadd (hadd hP h₁) h₂).append_right _)
      simpa using this
    · cases h
      simpa using hP
  · rw [if_neg hn] at h
    simp only [if_neg hn]
    exact hadd hP h

theorem applyEvent_built (hP : Built P new) (h : applyEvent t new e = .ok new') : Built (P ++ codedOf (t, e)) new' := by
  rw [applyEvent] at h
  rw [codedOf]
  by_cases hn : e.name = "trigger"
  · rw [if_pos hn] at h
    obtain ⟨bits, hbits, h⟩ := bind_eq_ok.1 h
    simp only [if_pos hn, hbits]
    cases bits with
    | nil =>
      cases h
      simpa using hP
    | cons b bs =>
      rw [(addHw_ok h).1]
      exact hP.add t _
  · rw [if_neg hn] at h
    simp only [if_neg hn]
    rw [(addHw_ok h).1]
    exact hP.add t e

/-- Splitting gives each event its stages, in front of the end. -/
theorem splitTriggers_timed (h : splitTriggers g = .ok out) :
    ∃ front, out = front ++ g.getLast?.toList ∧ (timed front).Perm ((timed g).flatMap stagesOf) := by
  obtain ⟨new, hnew, h⟩ := bind_eq_ok.1 h
  cases h
  have := foldlM_timed (R := fun P new => (timed new).Perm P) splitEvent_timed (List.Perm.refl _) hnew
  exact ⟨new, rfl, by simpa using this⟩

theorem applyCodewords_built (h : applyCodewords g = .ok out) :
    ∃ front, out = front ++ g.getLast?.toList ∧ Built ((timed g).flatMap codedOf) front := by
  obtain ⟨new, hnew, h⟩ := bind_eq_ok.1 h
  cases h
  exact ⟨new, rfl, by simpa using foldlM_timed applyEvent_built Built.nil hnew⟩

/-! ## Raising counters -/

theorem raiseCounters_spec (hl : c.length = 8) (h : raiseCounters c e = .ok c') :
    c'.length = 8 ∧ (∀ i, c.getD i 0 ≤ c'.getD i 0 ∧ (c'.getD i 0 = c.getD i 0 ∨ c'.getD i 0 = e.duration)) ∧
      ∀ b ∈ e.setBits, ∃ i, position? 8 b = some i ∧ e.duration ≤ c'.getD i 0 := by
  obtain ⟨hl', hbits, hi⟩ := raiseCounters_getD h
  rw [hl] at hl' hbits hi
  refine ⟨hl', fun i => ?_, fun b hb => ?_⟩
  · rw [hi]
    split <;> omega
  · obtain ⟨i, hpos⟩ := hbits b hb
    refine ⟨i, hpos, ?_⟩
    rw [hi, if_pos ⟨b, hb, hpos⟩]
    exact le_max_right _ _

/-- The events of a point: the triggers raise the counters, the other events are kept. -/
theorem divideEvents_spec {es : List HwEvent} (hl : c.length = 8) (hP : Built P new)
    (h : es.foldlM (divideEvent t) (new, c) = .ok (new', c')) :
    c'.length = 8 ∧ Built (P ++ (es.filter (·.name != "trigger")).map fun e => (t, e)) new' ∧
      (∀ i, c.getD i 0 ≤ c'.getD i 0 ∧
        (c'.getD i 0 = c.getD i 0 ∨ ∃ e ∈ es, e.name = "trigger" ∧ c'.getD i 0 = e.duration)) ∧
      ∀ e ∈ es, e.name = "trigger" → ∀ b ∈ e.setBits, ∃ i, position? 8 b = some i ∧ e.duration ≤ c'.getD i 0 := by
  induction es generalizing new c P with
  | nil =>
    cases h
    exact ⟨hl, by simpa using hP, fun i => ⟨le_refl _, .inl rfl⟩, by simp⟩
  | cons e es ih =>
    rw [foldlM_cons] at h
    obtain ⟨⟨new₁, c₁⟩, h₁, h⟩ := bind_eq_ok.1 h
    rw [divideEvent] at h₁
    by_cases hn : e.name = "trigger"
    · rw [if_pos hn] at h₁
      obtain ⟨c₂, hc, h₁⟩ := bind_eq_ok.1 h₁
      cases h₁
      obtain ⟨hl₁, hi₁, hb₁⟩ := raiseCounters_spec hl hc
      obtain ⟨hl', hB, hi, hb⟩ := ih hl₁ hP h
      refine ⟨hl', by simpa [hn] using hB, fun i => ⟨(hi₁ i).1.trans (hi i).1, ?_⟩,
        forall_mem_cons.2 ⟨fun _ b hbe => ?_, hb⟩⟩
      · rcases (hi i).2 with hsame | ⟨e', he', hn', hd⟩
        · rcases (hi₁ i).2 with hsame' | hd
          · exact .inl (hsame.trans hsame')
          · exact .inr ⟨e, mem_cons_self, hn, hsame.trans hd⟩
        · exact .inr ⟨e', mem_cons_of_mem e he', hn', hd⟩
      · obtain ⟨i, hpos, hd⟩ := hb₁ b hbe
        exact ⟨i, hpos, hd.trans (hi i).1⟩
    · rw [if_neg hn] at h₁
      obtain ⟨g, hg, h₁⟩ := bind_eq_ok.1 h₁
      cases h₁
      rw [(addHw_ok hg).1] at h
      obtain ⟨hl', hB, hi, hb⟩ := ih hl (hP.add t e) h
      refine ⟨hl', by simpa [hn] using hB, fun i => ⟨(hi i).1, ?_⟩, forall_mem_cons.2 ⟨fun h' => absurd h' hn, hb⟩⟩
      refine (hi i).2.imp_right ?_
      rintro ⟨e', he', hrest⟩
      exact ⟨e', mem_cons_of_mem e he', hrest⟩

/-! ## The loop at a point -/

/-- What one round of the loop does: it stops at the next trigger, or goes on at the first end until nothing runs. -/
theorem divideFrom_step {least : Int} (h : divideFrom t fin next (n + 1) now least c new = .ok (new', c')) :
    (0 : Int) ∉ runningBits c ∧
      ((∃ s, next = some s ∧ s ≤ fin ∧ new' = addEvents new now [cutOf (s - t) c] ∧ c' = lower (s - t) c) ∨
        (∀ s, next = some s → fin < s) ∧
          ((leastRunning (lower least c) = 0 ∧ new' = addEvents new now [cutOf least c] ∧ c' = lower least c) ∨
            (leastRunning (lower least c) ≠ 0 ∧
              divideFrom t fin next n (t + least) (leastRunning (lower least c)) (lower least c)
                (addEvents new now [cutOf least c]) = .ok (new', c')))) := by
  rw [divideFrom_succ] at h
  obtain ⟨g, hg, h⟩ := bind_eq_ok.1 h
  obtain ⟨rfl, h0⟩ := addHw_ok hg
  refine ⟨h0, ?_⟩
  obtain ⟨s, hnext, hs, hany, hd⟩ | ⟨hon, hany, hd⟩ := roundClocks_cases t fin least next
  · rw [if_pos (.inl hany), hd] at h
    cases h
    exact .inl ⟨s, hnext, hs, rfl, rfl⟩
  · simp only [hany, hd, Bool.false_eq_true, false_or] at h
    refine .inr ⟨hon, ?_⟩
    split at h
    · rename_i hz
      cases h
      exact .inl ⟨hz, rfl, rfl⟩
    · rename_i hz
      exact .inr ⟨hz, h⟩

/-- An event as the division makes it: running bits for some clocks. -/
def IsCut (e : HwEvent) : Prop := ∃ c d, CountersOk c ∧ e = cutOf d c

/-- The loop adds triggers of running bits only. -/
theorem divideFrom_cuts {least : Int} (hok : CountersOk c)
    (hl : ∀ i, 0 < c.getD i 0 → least ≤ c.getD i 0) (hs : ∀ s, next = some s → s ≤ fin → s - t ≤ least)
    (hP : Built P new) (h : divideFrom t fin next n now least c new = .ok (new', c')) :
    CountersOk c' ∧ ∃ Q, Built (P ++ Q) new' ∧ ∀ x ∈ Q, IsCut x.2 := by
  induction n generalizing now least c new P with
  | zero =>
    cases h
    exact ⟨hok, [], by simpa using hP, by simp⟩
  | succ n ih =>
    have hone {d : Int} : ∀ x ∈ [(now, cutOf d c)], IsCut x.2 := fun x hx => by
      rw [mem_singleton.1 hx]
      exact ⟨c, d, hok, rfl⟩
    obtain ⟨-, ⟨s, hnext, hsf, rfl, rfl⟩ | ⟨hon, ⟨-, rfl, rfl⟩ | ⟨hz, h⟩⟩⟩ := divideFrom_step h
    · exact ⟨hok.lower fun i hi => (hs s hnext hsf).trans (hl i hi), _, hP.add now _, hone⟩
    · exact ⟨hok.lower hl, _, hP.add now _, hone⟩
    · have hok' := hok.lower hl
      obtain ⟨hok'', Q, hQ, hcut⟩ := ih hok'
        (leastRunning_spec hok' fun hc => hz ((leastRunning_eq_zero hok').2 hc)).2.2
        (fun s hs' hsf => absurd (hon s hs') (by omega)) (hP.add now _) h
      refine ⟨hok'', (now, cutOf least c) :: Q, by simpa using hQ, forall_mem_cons.2 ⟨⟨c, least, hok, rfl⟩, hcut⟩⟩

theorem countP_lt_of_imp {α : Type} {p q : α → Bool} (hpq : ∀ x, p x = true → q x = true) {l : List α} {a : α} (ha : a ∈ l)
    (hq : q a = true) (hp : p a = false) : l.countP p < l.countP q := by
  induction l with
  | nil => cases ha
  | cons x l ih =>
    have hle : l.countP p ≤ l.countP q := countP_mono_left fun y _ => hpq y
    rw [countP_cons, countP_cons]
    rcases mem_cons.1 ha with rfl | ha
    · rw [hq, hp]
      simp only [if_true, Bool.false_eq_true, if_false]
      omega
    · have := ih ha
      by_cases hx : p x = true
      · rw [hx, hpq x hx]
        omega
      · rw [if_neg hx]
        split <;> omega

theorem countP_advance_lt (hok : CountersOk c) (hc : ¬Idle c) : (advance c).countP (0 < ·) < c.countP (0 < ·) := by
  obtain ⟨hpos, ⟨i, hi⟩, -⟩ := leastRunning_spec hok hc
  rw [advance, lower, countP_map]
  refine countP_lt_of_imp (fun x hx => ?_) ((mem_iff_getD (by omega)).2 ⟨i, hi⟩) (by simpa using hpos) ?_
  · simp only [Function.comp_apply, decide_eq_true_eq] at hx ⊢
    split at hx <;> omega
  · simp [hpos]

/-- A trigger of running bits that is sent at a time from `t` on, at most `m` clocks later and for at most `m` clocks. -/
def SentWithin (t m : Int) (x : Int × HwEvent) : Prop :=
  ∃ c d, CountersOk c ∧ 0 < d ∧ d ≤ m ∧ x.2 = cutOf d c ∧ t ≤ x.1 ∧ x.1 ≤ t + m

/-- **The loop at a point** sends what runs at the point, and then what is left, until nothing runs or the next trigger. -/
theorem divideFrom_spec {m : Int} (hok : CountersOk c) (hc : ¬Idle c)
    (hs : ∀ s, next = some s → s ≤ fin → t < s ∧ s - t ≤ leastRunning c) (hm : ∀ i, c.getD i 0 ≤ m)
    (hnow : t ≤ now ∧ now ≤ t + m) (hn : c.countP (0 < ·) < n) (hP : Built P new)
    (h : divideFrom t fin next n now (leastRunning c) c new = .ok (new', c')) :
    (∃ Q d, 0 < d ∧ Built (P ++ (now, cutOf d c) :: Q) new' ∧ ∀ x ∈ (now, cutOf d c) :: Q, SentWithin t m x) ∧
      (Idle c' ∨ ∃ s, next = some s ∧ s ≤ fin ∧ c' = lower (s - t) c) := by
  induction n generalizing now c new P with
  | zero => omega
  | succ n ih =>
    obtain ⟨hpos, ⟨i, hi⟩, -⟩ := leastRunning_spec hok hc
    have hle : leastRunning c ≤ m := hi ▸ hm i
    have hone {d : Int} (hd : 0 < d) (hdm : d ≤ m) : ∀ x ∈ [(now, cutOf d c)], SentWithin t m x := fun x hx => by
      rw [mem_singleton.1 hx]
      exact ⟨c, d, hok, hd, hdm, rfl, hnow⟩
    obtain ⟨-, ⟨s, hnext, hsf, rfl, rfl⟩ | ⟨hon, ⟨hz, rfl, rfl⟩ | ⟨hz, h⟩⟩⟩ := divideFrom_step h
    · obtain ⟨hts, hsl⟩ := hs s hnext hsf
      exact ⟨⟨[], s - t, by omega, hP.add now _, hone (by omega) (by omega)⟩, .inr ⟨s, hnext, hsf, rfl⟩⟩
    · exact ⟨⟨[], _, hpos, hP.add now _, hone hpos hle⟩, .inl ((leastRunning_eq_zero hok.advance).1 hz)⟩
    · have hc' : ¬Idle (advance c) := fun hc' => hz ((leastRunning_eq_zero hok.advance).2 hc')
      have hm' : ∀ i, (advance c).getD i 0 ≤ m := fun i => by
        have := hm i
        rw [advance, getD_lower]
        split <;> omega
      have hlt := countP_advance_lt hok hc
      obtain ⟨⟨Q, d, -, hQ, hsent⟩, hend⟩ := ih hok.advance hc' (fun s hs' hsf => absurd (hon s hs') (by omega)) hm'
        ⟨by omega, by omega⟩ (by omega) (hP.add now _) h
      refine ⟨⟨(t + leastRunning c, cutOf d (advance c)) :: Q, _, hpos, by simpa using hQ,
        forall_mem_cons.2 ⟨hone hpos hle _ (mem_singleton_self _), hsent⟩⟩, ?_⟩
      refine hend.imp_right ?_
      rintro ⟨s, hs', hsf, -⟩
      exact absurd (hon s hs') (by omega)

theorem filterMap_ite_sublist {α β : Type} (p : α → Prop) [DecidablePred p] (g : α → β) (l : List α) :
    (l.filterMap fun a => if p a then some (g a) else none).Sublist (l.map g) := by
  induction l with
  | nil => exact .slnil
  | cons a l ih =>
    rw [map_cons, filterMap_cons]
    by_cases ha : p a
    · rw [if_pos ha]
      exact ih.cons_cons _
    · rw [if_neg ha]
      exact ih.cons _

theorem CountersOk.runningBits_sublist (h : CountersOk c) : (runningBits c).Sublist [1, 2, 3, 4, 5, 6, 7] := by
  have hrange : List.range c.length = 0 :: [1, 2, 3, 4, 5, 6, 7] := by rw [h.length]; rfl
  rw [runningBits, hrange, filterMap_cons_none (by rw [h.zero]; rfl)]
  exact filterMap_ite_sublist (fun i => c.getD i 0 > 0) (fun i : Nat => (i : Int)) [1, 2, 3, 4, 5, 6, 7]

/-! ## The walk along the points -/

/-- Counters that no event lowers stay in order as long as the division goes on: bit zero cannot be sent. -/
theorem CountersOk.of_raise {c₁ : Counters} (hok : CountersOk c) (hl : c₁.length = 8)
    (hi : ∀ i, c.getD i 0 ≤ c₁.getD i 0) (h0 : maximum c₁ ≠ 0 → (0 : Int) ∉ runningBits c₁) : CountersOk c₁ := by
  have hnonneg : ∀ i, 0 ≤ c₁.getD i 0 := fun i => (hok.nonneg i).trans (hi i)
  refine ⟨hl, ?_, hnonneg⟩
  by_contra hne
  have hpos : 0 < c₁.getD 0 0 := lt_of_le_of_ne (hnonneg 0) (Ne.symm hne)
  refine h0 (fun hm => ?_) (mem_runningBits.2 ⟨0, rfl, hpos⟩)
  obtain ⟨x, l, rfl⟩ := exists_cons_of_ne_nil (show c₁ ≠ [] by rintro rfl; cases hl)
  have := (foldl_max_spec l x).2.1
  rw [maximum] at hm
  have hx : 0 < x := hpos
  omega

/-- What the walk does at one point. -/
theorem divideRest_cons (hok : CountersOk c) (hP : Built P new) (h : divideRest new c (p :: r) = .ok out) :
    ∃ new₁ c₁, p.events.foldlM (divideEvent p.time) (new, c) = .ok (new₁, c₁) ∧ CountersOk c₁ ∧
      ((Idle c₁ ∧ divideRest new₁ c₁ r = .ok out) ∨ (¬Idle c₁ ∧ ∃ new₂ c₂,
        divideFrom p.time (p.time + leastRunning c₁) (nextTrigger? r) 9 p.time (leastRunning c₁) c₁ new₁ = .ok (new₂, c₂) ∧
        divideRest new₂ c₂ r = .ok out)) := by
  rw [divideRest] at h
  obtain ⟨⟨new₁, c₁⟩, hevents, h⟩ := bind_eq_ok.1 h
  obtain ⟨hl, -, hi, -⟩ := divideEvents_spec hok.length hP hevents
  dsimp only at h
  refine ⟨new₁, c₁, hevents, ?_⟩
  by_cases hm : maximum c₁ = 0
  · rw [if_pos hm] at h
    have hok₁ := hok.of_raise hl (fun i => (hi i).1) fun hn => absurd hm hn
    exact ⟨hok₁, .inl ⟨(maximum_eq_zero hok₁).1 hm, h⟩⟩
  · rw [if_neg hm] at h
    obtain ⟨⟨new₂, c₂⟩, hfrom, h⟩ := bind_eq_ok.1 h
    have hok₁ := hok.of_raise hl (fun i => (hi i).1) fun _ => (divideFrom_step hfrom).1
    exact ⟨hok₁, .inr ⟨fun hc => hm ((maximum_eq_zero hok₁).2 hc), new₂, c₂, hfrom, h⟩⟩

theorem mem_others :
    x ∈ (p.events.filter (·.name != "trigger")).map (fun e => (p.time, e)) ↔
      x ∈ p.events.map (fun e => (p.time, e)) ∧ x.2.name ≠ "trigger" := by
  constructor
  · intro hx
    obtain ⟨e, he, rfl⟩ := mem_map.1 hx
    obtain ⟨he, hn⟩ := mem_filter.1 he
    exact ⟨mem_map_of_mem he, by simpa using hn⟩
  · rintro ⟨hx, hn⟩
    obtain ⟨e, he, rfl⟩ := mem_map.1 hx
    exact mem_map_of_mem (mem_filter.2 ⟨he, by simpa using hn⟩)

/-- **Whatever the points**, the division keeps other events and makes triggers of running bits. -/
theorem divideRest_cuts (hok : CountersOk c) (hP : Built P new) (h : divideRest new c r = .ok out) :
    ∃ Q, Built (P ++ Q) out ∧ (∀ x ∈ Q, IsCut x.2 ∨ x.2.name ≠ "trigger" ∧ x ∈ timed r) ∧
      ∀ x ∈ timed r, x.2.name ≠ "trigger" → x ∈ Q := by
  induction r generalizing new c P with
  | nil =>
    cases h
    exact ⟨[], by simpa using hP, by simp, by simp⟩
  | cons p r ih =>
    obtain ⟨new₁, c₁, hevents, hok₁, hrest⟩ := divideRest_cons hok hP h
    obtain ⟨-, hB, -, -⟩ := divideEvents_spec hok.length hP hevents
    have hkept : ∀ x ∈ (p.events.filter (·.name != "trigger")).map (fun e => (p.time, e)),
        IsCut x.2 ∨ x.2.name ≠ "trigger" ∧ x ∈ timed (p :: r) := fun x hx =>
      .inr ⟨(mem_others.1 hx).2, timed_cons p r ▸ mem_append_left _ (mem_others.1 hx).1⟩
    have htail {x : Int × HwEvent} (hx : IsCut x.2 ∨ x.2.name ≠ "trigger" ∧ x ∈ timed r) :
        IsCut x.2 ∨ x.2.name ≠ "trigger" ∧ x ∈ timed (p :: r) :=
      hx.imp_right fun hx => ⟨hx.1, by simp [hx.2]⟩
    have hothers {Q : List (Int × HwEvent)} (hQ : ∀ x ∈ timed r, x.2.name ≠ "trigger" → x ∈ Q) :
        ∀ x ∈ timed (p :: r), x.2.name ≠ "trigger" →
          x ∈ (p.events.filter (·.name != "trigger")).map (fun e => (p.time, e)) ++ Q := by
      rw [timed_cons]
      refine forall_mem_append.2 ⟨fun x hx hn => ?_, fun x hx hn => mem_append_right _ (hQ x hx hn)⟩
      exact mem_append_left _ (mem_others.2 ⟨hx, hn⟩)
    rcases hrest with ⟨-, h⟩ | ⟨hc, new₂, c₂, hfrom, h⟩
    · obtain ⟨Q, hQ, hcut, hall⟩ := ih hok₁ hB h
      exact ⟨_ ++ Q, by rwa [← append_assoc],
        forall_mem_append.2 ⟨hkept, fun x hx => htail (hcut x hx)⟩, hothers hall⟩
    · obtain ⟨hok₂, Q₁, hQ₁, hcut₁⟩ := divideFrom_cuts hok₁ (leastRunning_spec hok₁ hc).2.2 (fun s _ hs => by omega) hB hfrom
      obtain ⟨Q, hQ, hcut, hall⟩ := ih hok₂ hQ₁ h
      exact ⟨_ ++ (Q₁ ++ Q), by simpa using hQ, forall_mem_append.2 ⟨hkept, forall_mem_append.2
        ⟨fun x hx => .inl (hcut₁ x hx), fun x hx => htail (hcut x hx)⟩⟩,
        hothers fun x hx hn => mem_append_right _ (hall x hx hn)⟩

/-- What the division makes of events: it keeps those that are no triggers, sends triggers for at most `D` clocks and not
after `B`, and sends each trigger where it starts. -/
structure Division (B D : Int) (X Q : List (Int × HwEvent)) : Prop where
  made : ∀ x ∈ Q, (x.2.name ≠ "trigger" ∧ x ∈ X) ∨ ∃ c d, CountersOk c ∧ 0 < d ∧ d ≤ D ∧ x.2 = cutOf d c ∧ x.1 ≤ B
  kept : ∀ x ∈ X, x.2.name ≠ "trigger" → x ∈ Q
  sent : ∀ x ∈ X, x.2.name = "trigger" → 0 < x.2.duration → x.2.setBits ≠ [] →
    ∃ c d, CountersOk c ∧ (x.1, cutOf d c) ∈ Q ∧ ∀ b ∈ x.2.setBits, b % 8 ∈ runningBits c

theorem Division.append {X Y Q R : List (Int × HwEvent)} (h : Division B D X Q) (h' : Division B D Y R) :
    Division B D (X ++ Y) (Q ++ R) where
  made := forall_mem_append.2
    ⟨fun x hx => (h.made x hx).imp_left fun hx => ⟨hx.1, mem_append_left _ hx.2⟩,
      fun x hx => (h'.made x hx).imp_left fun hx => ⟨hx.1, mem_append_right _ hx.2⟩⟩
  kept := forall_mem_append.2
    ⟨fun x hx hn => mem_append_left _ (h.kept x hx hn), fun x hx hn => mem_append_right _ (h'.kept x hx hn)⟩
  sent := forall_mem_append.2
    ⟨fun x hx hn hd hne => by
      obtain ⟨c, d, hok, hm, hb⟩ := h.sent x hx hn hd hne
      exact ⟨c, d, hok, mem_append_left _ hm, hb⟩,
    fun x hx hn hd hne => by
      obtain ⟨c, d, hok, hm, hb⟩ := h'.sent x hx hn hd hne
      exact ⟨c, d, hok, mem_append_right _ hm, hb⟩⟩

theorem position?_eight {b : Int} {i : Nat} (h : position? 8 b = some i) : b % 8 = i := by
  rw [position?] at h
  split at h <;> split at h <;> cases h <;> omega

theorem CountersOk.countP_le (hok : CountersOk c) : c.countP (0 < ·) < 9 := by
  have := countP_le_length (p := fun x : Int => decide (0 < x)) (l := c)
  have := hok.length
  omega

/-- The counters that run before a point are those of a trigger that is still ahead. -/
def RunningAhead (B : Int) (c : Counters) (r : Grid HwEvent) : Prop :=
  Idle c ∨ ∃ s, nextTrigger? r = some s ∧ ∀ i, 0 < c.getD i 0 → s + c.getD i 0 ≤ B

/-- After the events of a point, what runs ends by the bound from the point on. -/
theorem RunningAhead.raise
    (hB : RunningAhead B c (p :: r)) (hr : (p :: r).Pairwise fun p q => p.time < q.time) (hD : ∀ i, c.getD i 0 ≤ D)
    (hX : ∀ x ∈ p.events.map (fun e => (p.time, e)), x.2.name = "trigger" → x.2.duration ≤ D ∧ x.1 + x.2.duration ≤ B)
    (hi : ∀ i, c'.getD i 0 = c.getD i 0 ∨ ∃ e ∈ p.events, e.name = "trigger" ∧ c'.getD i 0 = e.duration) (i : Nat) :
    c'.getD i 0 ≤ D ∧ (0 < c'.getD i 0 → p.time + c'.getD i 0 ≤ B) := by
  rcases hi i with hsame | ⟨e, he, hn, hd⟩
  · refine ⟨hsame ▸ hD i, fun hpos => ?_⟩
    rw [hsame] at hpos ⊢
    rcases hB with hidle | ⟨s, hs, hsB⟩
    · exact absurd (hidle i) (by omega)
    · have := hsB i hpos
      have : p.time ≤ s := by
        rcases nextTrigger?_head hs hr with ⟨hps, -⟩ | ⟨hps, -⟩ <;> omega
      omega
  · have := hX (p.time, e) (mem_map_of_mem he) hn
    exact hd ▸ ⟨this.1, fun _ => this.2⟩

/-- What the cuts of a point leave is idle or runs on from the next trigger. -/
theorem RunningAhead.of_cuts (hD : 0 ≤ D)
    (hDB : ∀ i, c.getD i 0 ≤ D ∧ (0 < c.getD i 0 → t + c.getD i 0 ≤ B)) (hnext : ∀ s, nextTrigger? r = some s → t < s)
    (h : Idle c' ∨ ∃ s, nextTrigger? r = some s ∧ s ≤ fin ∧ c' = lower (s - t) c) :
    RunningAhead B c' r ∧ ∀ i, c'.getD i 0 ≤ D := by
  rcases h with hidle | ⟨s, hs, -, rfl⟩
  · exact ⟨.inl hidle, fun i => by rw [hidle i]; exact hD⟩
  · have hts := hnext s hs
    refine ⟨.inr ⟨s, hs, fun i => ?_⟩, fun i => ?_⟩ <;>
      · have := hDB i
        rw [getD_lower]
        split <;> omega

/-- **On points in time order** the division keeps all bounds and sends every trigger. -/
theorem divideRest_spec {last : TimePoint HwEvent} (hlast : last.events = [])
    (hr : r.Pairwise fun p q => p.time < q.time) (hok : CountersOk c)
    (hD : ∀ i, c.getD i 0 ≤ D) (hB : RunningAhead B c r)
    (hX : ∀ x ∈ timed r, x.2.name = "trigger" → x.2.duration ≤ D ∧ x.1 + x.2.duration ≤ B) (hP : Built P new)
    (h : divideRest new c (r ++ [last]) = .ok out) : ∃ Q, Built (P ++ Q) out ∧ Division B D (timed r) Q := by
  -- along the points: the counters hold what a point hands on to the next trigger
  induction r generalizing new c P with
  | nil =>
    obtain ⟨new₁, c₁, hevents, hok₁, hrest⟩ := divideRest_cons hok hP h
    rw [hlast] at hevents
    cases hevents
    have hidle : Idle c := hB.resolve_right fun ⟨s, hs, _⟩ => by cases hs
    rcases hrest with ⟨-, h⟩ | ⟨hc, -⟩
    · cases h
      exact ⟨[], by simpa using hP, ⟨by simp, by simp, by simp⟩⟩
    · exact absurd hidle hc
  | cons p r ih =>
    rw [pairwise_cons] at hr
    rw [timed_cons, forall_mem_append] at hX
    rw [cons_append] at h
    obtain ⟨new₁, c₁, hevents, hok₁, hrest⟩ := divideRest_cons hok hP h
    rw [nextTrigger?_append hlast] at hrest
    obtain ⟨-, hbuilt, hi, hbits⟩ := divideEvents_spec hok.length hP hevents
    have hDB := hB.raise (pairwise_cons.2 hr) hD hX.1 fun i => (hi i).2
    rcases hrest with ⟨hidle, h⟩ | ⟨hc, new₂, c₂, hfrom, h⟩
    · obtain ⟨Q, hQ, hdiv⟩ := ih hr.2 hok₁ (fun i => (hDB i).1) (.inl hidle) hX.2 hbuilt h
      rw [timed_cons]
      refine ⟨_ ++ Q, by rwa [← append_assoc], Division.append
        ⟨fun x hx => .inl (mem_others.1 hx).symm, fun x hx hn => mem_others.2 ⟨hx, hn⟩, ?_⟩ hdiv⟩
      intro x hx hn hd hne
      obtain ⟨e, he, rfl⟩ := mem_map.1 hx
      obtain ⟨b, hb⟩ := exists_mem_of_ne_nil _ hne
      obtain ⟨i, -, hle⟩ := hbits e he hn b hb
      have := hidle i
      simp only at hd
      omega
    · obtain ⟨hpos, ⟨i, hi⟩, hle⟩ := leastRunning_spec hok₁ hc
      have hDi := hDB i
      have hnext : ∀ s, nextTrigger? r = some s → p.time < s := fun s hs => by
        obtain ⟨q, hq, -, rfl⟩ := nextTrigger?_mem hs
        exact hr.1 q hq
      obtain ⟨⟨Q₁, d, hd, hQ₁, hsent⟩, hend⟩ := divideFrom_spec (m := min D (B - p.time)) hok₁ hc
        (fun s hs hsf => ⟨hnext s hs, by omega⟩)
        (fun i => by have := hDB i; have := hok₁.nonneg i; omega) ⟨le_refl _, by omega⟩ hok₁.countP_le hbuilt hfrom
      have hok₂ := (divideFrom_cuts hok₁ hle (fun s _ hs => by omega) hbuilt hfrom).1
      have hlater := RunningAhead.of_cuts (show 0 ≤ D by omega) hDB hnext hend
      obtain ⟨Q, hQ, hdiv⟩ := ih hr.2 hok₂ hlater.2 hlater.1 hX.2 hQ₁ h
      rw [timed_cons]
      refine ⟨_ ++ ((p.time, cutOf d c₁) :: Q₁) ++ Q, by simpa using hQ,
        Division.append ⟨forall_mem_append.2 ⟨fun x hx => .inl (mem_others.1 hx).symm, fun x hx => .inr ?_⟩,
          fun x hx hn => mem_append_left _ (mem_others.2 ⟨hx, hn⟩), ?_⟩ hdiv⟩
      · obtain ⟨c, d', hokc, hd', hdm, hx, -, hxm⟩ := hsent x hx
        exact ⟨c, d', hokc, hd', by omega, hx, by omega⟩
      · intro x hx hn hdx _
        obtain ⟨e, he, rfl⟩ := mem_map.1 hx
        refine ⟨c₁, d, hok₁, mem_append_right _ mem_cons_self, fun b hb => ?_⟩
        obtain ⟨j, hj, hle'⟩ := hbits e he hn b hb
        simp only at hdx
        exact mem_runningBits.2 ⟨j, position?_eight hj, by omega⟩

/-! ## Events of a program -/

/-- The hardware events of lines, each at the start of its gate and ahead by its latency. -/
def hwEvents (cfg : Config) (map : List (String × Step Int)) (lines : List (List SourceOp)) : List (Int × HwEvent) :=
  (startsFrom cfg map 0 lines).map (startEvent cfg)

/-- The clocks of the stages of a trigger; only triggers of one or two stages have some. -/
def HwEvent.stageClocks (e : HwEvent) : List Int :=
  if e.name = "trigger" ∧ e.format.length ≤ 2 then e.format else []

/-- The clocks of the last stage of a trigger. -/
def HwEvent.lastStage (e : HwEvent) : Int := e.stageClocks.getLast?.getD 0

theorem exists_stageBound (xs : List (Int × HwEvent)) : ∃ D, 0 ≤ D ∧ ∀ x ∈ xs, ∀ d ∈ x.2.stageClocks, d ≤ D :=
  ⟨(xs.flatMap fun x => x.2.stageClocks).foldl max 0, (foldl_max_spec _ 0).2.1,
    fun x hx d hd => (foldl_max_spec _ 0).2.2 d (mem_flatMap.2 ⟨x, hx, hd⟩)⟩

theorem exists_endBound (xs : List (Int × HwEvent)) : ∃ B, ∀ x ∈ xs, x.1 ≤ B ∧ x.1 + x.2.lastStage ≤ B := by
  refine ⟨(xs.flatMap fun x => [x.1, x.1 + x.2.lastStage]).foldl max 0, fun x hx => ?_⟩
  constructor <;> exact (foldl_max_spec _ 0).2.2 _ (mem_flatMap.2 ⟨x, hx, by simp⟩)

/-- What the triggers and other events of a program are before triggers are divided. -/
def codedEvents (xs : List (Int × HwEvent)) : List (Int × HwEvent) := (xs.flatMap stagesOf).flatMap codedOf

theorem hwEventOf_raw {g : Gate} (h : hwEventOf cfg g = .ok e) : e.duration = 0 ∧ e.setBits = [] := by
  obtain ⟨_, _, _, -, -, -, ⟨-, _, _, _, -, -, -, rfl⟩ | ⟨-, _, _, -, -, ⟨-, rfl⟩ | ⟨_, _, _, -, -, -, rfl⟩⟩ | ⟨-, -, rfl⟩⟩ :=
    hwEventOf_inv h <;> exact ⟨rfl, rfl⟩

theorem hwEventOf_measure {g : Gate} (h : hwEventOf cfg g = .ok e) (hn : e.name = "measure") :
    e.codeword = dummyCodeword ∧ g.name = "measure" := by
  -- an event has the name of its gate only where the codeword is the dummy
  have hname {cw : Int} {kind : String} (hk : kind ≠ "measure")
      (hn : (if cw = dummyCodeword then g.name else kind) = "measure") :
      cw = dummyCodeword ∧ g.name = "measure" := by
    split at hn
    · exact ⟨‹_›, hn⟩
    · exact absurd hn hk
  obtain ⟨_, _, _, -, -, -, ⟨-, _, _, _, -, -, -, rfl⟩ | ⟨-, _, _, -, -, ⟨-, rfl⟩ | ⟨_, _, _, -, -, -, rfl⟩⟩ | ⟨-, -, rfl⟩⟩ :=
    hwEventOf_inv h
  · exact hname (by decide) hn
  · exact absurd hn (show "trigger" ≠ "measure" by decide)
  · exact hname (by decide) hn
  · exact absurd hn (show "" ≠ "measure" by decide)

/-- A trigger with its bits set is a stage of a trigger: the first stage ends where the last one starts. -/
theorem codedOf_trigger {y z : Int × HwEvent} (hz : z ∈ stagesOf y) (hx : x ∈ codedOf z) (hn : x.2.name = "trigger")
    (h0 : y.2.duration = 0) :
    (x.2.duration = 0 ∨ x.2.duration ∈ y.2.stageClocks) ∧
      (x.1 + x.2.duration = y.1 ∨ x.1 + x.2.duration = y.1 + y.2.lastStage) := by
  have hkeep : z.2.name = "trigger" ∧ x.1 = z.1 ∧ x.2.duration = z.2.duration := by
    rw [codedOf] at hx
    split at hx
    · rename_i hzn
      split at hx
      · rw [mem_singleton.1 hx]
        exact ⟨hzn, rfl, rfl⟩
      · cases hx
    · rename_i hzn
      rw [mem_singleton.1 hx] at hn
      exact absurd hn hzn
  obtain ⟨hzn, ht, hd⟩ := hkeep
  rw [ht, hd]
  rw [stagesOf] at hz
  split at hz
  · rename_i hyn
    rcases hf : y.2.format with _ | ⟨d, _ | ⟨d₂, _ | ⟨d₃, r⟩⟩⟩ <;> rw [hf] at hz <;>
      simp only [mem_cons, not_mem_nil, or_false] at hz
    · rw [hz, h0]
      exact ⟨.inl rfl, .inl (by omega)⟩
    · rw [hz]
      simp [HwEvent.lastStage, HwEvent.stageClocks, hyn, hf]
    · rcases hz with rfl | rfl <;> simp [HwEvent.lastStage, HwEvent.stageClocks, hyn, hf]
  · rename_i hyn
    rw [mem_singleton.1 hz] at hzn
    exact absurd hzn hyn

theorem codedOf_other {y z : Int × HwEvent} (hz : z ∈ stagesOf y) (hx : x ∈ codedOf z) (hn : x.2.name ≠ "trigger") :
    x = y := by
  rw [codedOf] at hx
  split at hx
  · rename_i hzn
    split at hx
    · rw [mem_singleton.1 hx] at hn
      exact absurd hzn hn
    · cases hx
  · rename_i hzn
    obtain rfl := mem_singleton.1 hx
    rw [stagesOf] at hz
    split at hz
    · rename_i hyn
      rcases hf : y.2.format with _ | ⟨d, _ | ⟨d₂, _ | ⟨d₃, r⟩⟩⟩ <;> rw [hf] at hz <;>
        simp only [mem_cons, not_mem_nil, or_false] at hz
      · exact hz
      · rw [hz] at hzn
        exact absurd hyn hzn
      · rcases hz with rfl | rfl <;> exact absurd hyn hzn
    · exact mem_singleton.1 hz

theorem mem_codedEvents_other (xs : List (Int × HwEvent)) (hn : x.2.name ≠ "trigger") :
    x ∈ codedEvents xs ↔ x ∈ xs := by
  constructor
  · intro hx
    obtain ⟨z, hz, hxz⟩ := mem_flatMap.1 hx
    obtain ⟨y, hy, hzy⟩ := mem_flatMap.1 hz
    exact codedOf_other hzy hxz hn ▸ hy
  · intro hx
    refine mem_flatMap.2 ⟨x, mem_flatMap.2 ⟨x, hx, ?_⟩, ?_⟩
    · rw [stagesOf, if_neg hn]
      exact mem_singleton_self x
    · rw [codedOf, if_neg hn]
      exact mem_singleton_self x

/-- The bounds of a program are bounds of its triggers and other events before division. -/
theorem codedEvents_bounds {xs : List (Int × HwEvent)} (hraw : ∀ x ∈ xs, x.2.duration = 0)
    (hB : ∀ x ∈ xs, x.1 ≤ B ∧ x.1 + x.2.lastStage ≤ B) (hD : 0 ≤ D ∧ ∀ x ∈ xs, ∀ d ∈ x.2.stageClocks, d ≤ D) :
    ∀ x ∈ codedEvents xs, (x.2.name = "trigger" → x.2.duration ≤ D ∧ x.1 + x.2.duration ≤ B) ∧
      (x.2.name ≠ "trigger" → x.1 ≤ B) := by
  intro x hx
  obtain ⟨z, hz, hxz⟩ := mem_flatMap.1 hx
  obtain ⟨y, hy, hzy⟩ := mem_flatMap.1 hz
  have hBy := hB y hy
  refine ⟨fun hn => ?_, fun hn => codedOf_other hzy hxz hn ▸ hBy.1⟩
  obtain ⟨hd, ht⟩ := codedOf_trigger hzy hxz hn (hraw y hy)
  refine ⟨?_, by omega⟩
  rcases hd with hd | hd
  · exact hd ▸ hD.1
  · exact hD.2 y hy _ hd

theorem Built.of_perm {Q : List (Int × HwEvent)} (h : Built P g) (hp : P.Perm Q) : Built Q g :=
  ⟨h.sorted, h.filled, h.events.trans hp⟩

theorem idle_start : Idle (List.replicate 8 0) := fun i => by
  rw [getD_eq_getElem?_getD, getElem?_replicate]
  split <;> rfl

theorem countersOk_start : CountersOk (List.replicate 8 0) := ⟨rfl, rfl, fun i => le_of_eq (idle_start i).symm⟩

/-- The passes over hardware events pass the last point on. -/
theorem Stages.fronts {c : Compilation}
    (hst : Stages cfg loop lines c) {conv : Grid HwEvent} {e : TimePoint HwEvent} (hconv : c.converted = conv ++ [e]) :
    ∃ front₁ front₂ out, (timed front₁).Perm ((timed c.converted).flatMap stagesOf) ∧
      Built ((timed (front₁ ++ [e])).flatMap codedOf) front₂ ∧
      divideRest [] (List.replicate 8 0) (front₂ ++ [e]) = .ok out ∧ c.divided = out ++ [e] := by
  have hlast {g : Grid HwEvent} : (g ++ [e]).getLast?.toList = [e] := by rw [getLast?_concat]; rfl
  obtain ⟨front₁, hstaged, hperm₁⟩ := splitTriggers_timed hst.staged
  obtain ⟨front₂, hcoded, hbuilt⟩ := applyCodewords_built hst.coded
  obtain ⟨out, hout, hdiv⟩ := bind_eq_ok.1 hst.divided
  replace hdiv : withEnd c.coded out = c.divided := Except.ok.inj hdiv
  rw [hconv, hlast] at hstaged
  rw [hstaged, hlast] at hcoded
  rw [hcoded, withEnd, hlast] at hdiv
  exact ⟨front₁, front₂, out, hperm₁, hstaged ▸ hbuilt, hcoded ▸ hout, hdiv.symm⟩

/-- **What the hardware grid of a program holds**: its events, with triggers divided, and the end of the program. -/
theorem Stages.division {c : Compilation}
    (hst : Stages cfg loop lines c) (hd : ∀ l ∈ lines, ∀ op ∈ l, op.declares = false)
    (ha : ∀ l ∈ lines, ∀ op ∈ l, op.kind.isAlone = true → l = [op]) (hw : ∀ l ∈ lines, 0 ≤ lineLength cfg l)
    (hB : ∀ x ∈ hwEvents cfg c.names.map lines, x.1 ≤ B ∧ x.1 + x.2.lastStage ≤ B)
    (hD : 0 ≤ D ∧ ∀ x ∈ hwEvents cfg c.names.map lines, ∀ d ∈ x.2.stageClocks, d ≤ D) :
    ∃ front e Q, c.divided = front ++ [e] ∧ e.time = programLength cfg lines ∧ e.events = [] ∧ Built Q front ∧
      Division B D (codedEvents (hwEvents cfg c.names.map lines)) Q := by
  obtain ⟨hplan, hok⟩ := hst.converted_plan hd ha hw
  obtain ⟨conv, e, hconv, het, hee⟩ := hplan.last
  obtain ⟨front₁, front₂, out, hperm, hbuilt, hout, hdiv⟩ := hst.fronts hconv
  have hend : timed (front₁ ++ [e]) = timed front₁ := by simp [hee]
  rw [hend] at hbuilt
  replace hbuilt : Built (codedEvents (hwEvents cfg c.names.map lines)) front₂ :=
    hbuilt.of_perm ((hperm.trans (hplan.events.flatMap_right _)).flatMap_right _)
  have hraw : ∀ x ∈ hwEvents cfg c.names.map lines, x.2.duration = 0 := by
    intro x hx
    obtain ⟨s, hs, rfl⟩ := mem_map.1 hx
    exact (hwEventOf_raw (hok s hs)).1
  have hbounds := codedEvents_bounds hraw hB hD
  obtain ⟨Q, hQ, hdivision⟩ := divideRest_spec hee hbuilt.sorted countersOk_start (fun i => (idle_start i).symm ▸ hD.1)
    (.inl idle_start) (fun x hx => (hbounds x (hbuilt.events.mem_iff.1 hx)).1) Built.nil hout
  refine ⟨out, e, Q, hdiv, het, hee, hQ, ⟨fun x hx => ?_, fun x hx => ?_, fun x hx => ?_⟩⟩
  · exact (hdivision.made x hx).imp_left fun h => ⟨h.1, hbuilt.events.mem_iff.1 h.2⟩
  · exact hdivision.kept x (hbuilt.events.mem_iff.2 hx)
  · exact hdivision.sent x (hbuilt.events.mem_iff.2 hx)

/-! ## Programs of any lengths -/

theorem length_le_addEvents {ε : Type} (g : Grid ε) (t : Int) (es : List ε) : g.length ≤ (addEvents g t es).length := by
  rcases addEvents_cases g t es with ⟨a, p, b, rfl, -, h⟩ | ⟨a, b, rfl, h⟩ <;> rw [h] <;> simp

theorem length_le_compensateFrom (least : Int) (n : Nat) (st : Grid Gate × Nat) :
    st.1.length ≤ (compensateFrom least n st).length := by
  have hmove (t : Int) (gs : List Gate) (st : Grid Gate × Nat) : st.1.length ≤ (gs.foldl (moveGate least t) st).1.length := by
    induction gs generalizing st with
    | nil => exact le_refl _
    | cons g gs ih => exact (length_le_addEvents st.1 _ [g]).trans (ih (moveGate least t st g))
  induction n generalizing st with
  | zero => exact le_refl _
  | succ n ih =>
    refine le_trans ?_ (ih (compensatePoint least st))
    rw [compensatePoint]
    split
    · exact le_refl _
    · rename_i p _
      refine le_trans ?_ (hmove p.time _ (_, st.2))
      rw [length_set]

/-- A hardware grid has a last point, and the events of that point are as gates make them. -/
theorem Stages.converted_last {c : Compilation} (hst : Stages cfg loop lines c) :
    ∃ conv e, c.converted = conv ++ [e] ∧ ∀ x ∈ e.events, x.duration = 0 ∧ x.setBits = [] := by
  obtain ⟨pts, -, hgrid⟩ := bind_eq_ok.1 hst.placed
  replace hgrid : withTimes 0 pts = c.timed := Except.ok.inj hgrid
  obtain ⟨hlatent, -⟩ := withLatencies_spec hst.latent
  obtain ⟨hconv, hevents⟩ := hardwareGrid_spec hst.converted
  have hlen : 0 < c.converted.length := by
    have htimed : 0 < c.timed.length := by
      rw [← hgrid]
      cases pts <;> simp [withTimes]
    have hle := length_le_compensateFrom c.least c.latent.length (c.latent, 0)
    rw [hconv, mapEvents, length_map, compensate]
    rw [hlatent, mapEvents, splitGates] at hle ⊢
    simp only [length_map] at hle ⊢
    omega
  obtain ⟨conv, e, hce⟩ : ∃ conv e, c.converted = conv ++ [e] :=
    ⟨_, _, (dropLast_append_getLast (ne_nil_of_length_pos hlen)).symm⟩
  refine ⟨conv, e, hce, fun x hx => ?_⟩
  have hmem : (e.time, x) ∈ timed c.converted := mem_timed.2 ⟨e, by rw [hce]; simp, rfl, hx⟩
  rw [hconv, timed_mapEvents] at hmem
  obtain ⟨y, hy, hxy⟩ := mem_flatMap.1 hmem
  have := hwEventOf_raw (hevents y hy)
  simp only [map_singleton, mem_singleton, Prod.mk.injEq] at hxy
  exact hxy.2 ▸ this

/-- **Every hardware grid** is built point by point, its triggers are of running bits, and a last point follows. -/
theorem Stages.divided_built {c : Compilation} (hst : Stages cfg loop lines c) :
    ∃ front e Q, c.divided = front ++ [e] ∧ Built Q front ∧ (∀ x ∈ Q, IsCut x.2 ∨ x.2.name ≠ "trigger") ∧
      ∀ x ∈ e.events, x.duration = 0 ∧ x.setBits = [] := by
  obtain ⟨conv, e, hconv, hraw⟩ := hst.converted_last
  obtain ⟨front₁, front₂, out, -, -, hout, hdiv⟩ := hst.fronts hconv
  obtain ⟨Q, hQ, hcut, -⟩ := divideRest_cuts countersOk_start Built.nil hout
  exact ⟨out, e, Q, hdiv, hQ, fun x hx => (hcut x hx).imp_right And.left, hraw⟩

end QubitLab.Qasm
