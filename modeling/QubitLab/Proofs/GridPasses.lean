import QubitLab.Proofs.Grid

/-!
# Passes over grids

`Plan T P g`: the grid `g` is in time order, its events are `P` and it ends with an empty point at time `T`. Each pass
from the timing grid to the hardware grid is described by what it does to a plan: a pass over events maps them
(`Plan.mapEvents`), latency compensation moves each gate ahead (`compensate_plan`) and nothing else (`compensate_moves`),
and the passes that build a new grid out of the events of another keep them (`withEnd_plan`).
-/

namespace QubitLab.Qasm

open List

variable {ε δ : Type}

/-- An ordered grid with given events that ends with an empty point at a given time. -/
structure Plan (T : Int) (P : List (Int × ε)) (g : Grid ε) : Prop where
  ordered : Ordered g
  last : ∃ front e, g = front ++ [e] ∧ e.time = T ∧ e.events = []
  events : (timed g).Perm P

variable {T least t : Int} {front : Grid Gate} {P : List (Int × HwEvent)} {g out : Grid HwEvent}

theorem Plan.time_le {P : List (Int × ε)} {g : Grid ε} (h : Plan T P g) : ∀ x ∈ P, x.1 ≤ T := by
  intro x hx
  obtain ⟨front, e, rfl, rfl, he⟩ := h.last
  obtain ⟨p, hp, ht, hxe⟩ := mem_timed.1 (h.events.mem_iff.2 hx)
  rcases mem_append.1 hp with hp | hp
  · exact ht ▸ (pairwise_append.1 h.ordered).2.2 p hp e (mem_singleton_self e)
  · rw [mem_singleton.1 hp, he] at hxe
    exact absurd hxe not_mem_nil

/-! ## Passes over events -/

/-- A grid with each event replaced by some events. -/
def mapEvents (f : ε → List δ) (g : Grid ε) : Grid δ := g.map fun p => ⟨p.label, p.time, p.wait, p.events.flatMap f⟩

theorem timed_mapEvents (f : ε → List δ) (g : Grid ε) :
    timed (mapEvents f g) = (timed g).flatMap fun x => (f x.2).map fun e => (x.1, e) := by
  simp only [timed, mapEvents, flatMap_map, flatMap_assoc, map_flatMap]

theorem Plan.mapEvents {P : List (Int × ε)} {g : Grid ε} (h : Plan T P g) (f : ε → List δ) :
    Plan T (P.flatMap fun x => (f x.2).map fun e => (x.1, e)) (mapEvents f g) := by
  refine ⟨pairwise_map.2 h.ordered, ?_, ?_⟩
  · obtain ⟨front, e, rfl, ht, he⟩ := h.last
    exact ⟨Qasm.mapEvents f front, _, map_append, ht, by simp [he]⟩
  · rw [timed_mapEvents]
    exact h.events.flatMap_right _

theorem Plan.mapEach {P : List (Int × ε)} {g : Grid ε} (h : Plan T P g) (f : ε → δ) :
    Plan T (P.map fun x => (x.1, f x.2)) (Qasm.mapEvents (fun e => [f e]) g) := by
  rw [map_eq_flatMap]
  exact h.mapEvents fun e => [f e]

theorem mapM_events {F : ε → Step δ} {G : ε → δ} (hG : ∀ e b, F e = .ok b → b = G e) {g : Grid ε} {out : Grid δ}
    (h : g.mapM (fun p => (p.events.mapM F).bind fun es => .ok (⟨p.label, p.time, p.wait, es⟩ : TimePoint δ)) = .ok out) :
    out = Qasm.mapEvents (fun e => [G e]) g ∧ ∀ x ∈ timed g, F x.2 = .ok (G x.2) := by
  replace h := mapM_eq_ok.1 h
  induction h with
  | nil => exact ⟨rfl, by simp⟩
  | @cons p q g out hp _ ih =>
    obtain ⟨es, hes, hq⟩ := bind_eq_ok.1 hp
    cases hq
    refine ⟨?_, ?_⟩
    · rw [mapM_ok_eq_map hes fun e _ b hb => hG e b hb, ih.1, map_eq_flatMap]
      rfl
    · rw [timed_cons, forall_mem_append]
      refine ⟨fun x hx => ?_, ih.2⟩
      obtain ⟨e, he, rfl⟩ := mem_map.1 hx
      obtain ⟨b, -, hb⟩ := mapM_ok_mem hes he
      exact hG e b hb ▸ hb

/-! ## Times of lines -/

/-- The sum of numbers. -/
def total : List Int → Int
  | [] => 0
  | n :: ns => n + total ns

theorem withTimes_plan {pts : List (TimePoint Gate)} (hw : ∀ p ∈ pts, 0 ≤ p.wait) (t : Int) :
    Plan (t + total (pts.map (·.wait))) (timed (withTimes t pts)) (withTimes t pts) ∧
      ∀ p ∈ withTimes t pts, t ≤ p.time := by
  induction pts generalizing t with
  | nil =>
    refine ⟨⟨pairwise_singleton _ _, ⟨[], _, rfl, (Int.add_zero t).symm, rfl⟩, List.Perm.refl _⟩, ?_⟩
    simp [withTimes]
  | cons p pts ih =>
    have hp := hw p mem_cons_self
    obtain ⟨ihplan, ihle⟩ := ih (fun q hq => hw q (mem_cons_of_mem p hq)) (t + p.wait)
    obtain ⟨front, e, hlast, ht, he⟩ := ihplan.last
    have hle : ∀ q ∈ withTimes (t + p.wait) pts, t ≤ q.time := fun q hq => by
      have := ihle q hq
      omega
    rw [withTimes]
    refine ⟨⟨pairwise_cons.2 ⟨hle, ihplan.ordered⟩, ⟨_ :: front, e, by rw [hlast]; rfl, ?_, he⟩, List.Perm.refl _⟩, ?_⟩
    · rw [ht, map_cons, total]
      omega
    · exact forall_mem_cons.2 ⟨Int.le_refl t, hle⟩

/-! ## Latency compensation -/

/-- The points of a grid without their events: labels, times and waits. -/
def places (g : Grid ε) : List (String × Int × Int) := g.map fun p => (p.label, p.time, p.wait)

/-- The second grid has the points of the first one in their order, and else only points at other times. -/
def Widens (g g' : Grid ε) : Prop := (places g').filter (fun x => x.2.1 ∈ (places g).map (·.2.1)) = places g

theorem Widens.of_places {g g' : Grid ε} (h : places g = places g') : Widens g g' := by
  rw [Widens, h]
  exact filter_eq_self.2 fun x hx => decide_eq_true (mem_map_of_mem hx)

theorem Widens.trans {g₁ g₂ g₃ : Grid ε} (h : Widens g₁ g₂) (h' : Widens g₂ g₃) : Widens g₁ g₃ := by
  rw [Widens] at h h' ⊢
  -- the times of the first grid are among those of the second
  have hsub : ∀ t ∈ (places g₁).map (·.2.1), t ∈ (places g₂).map (·.2.1) := by
    rw [← h]
    exact fun t ht => map_subset _ (filter_subset_self _) ht
  calc (places g₃).filter (fun x => x.2.1 ∈ (places g₁).map (·.2.1))
      = ((places g₃).filter fun x => x.2.1 ∈ (places g₂).map (·.2.1)).filter
          (fun x => x.2.1 ∈ (places g₁).map (·.2.1)) := by
        rw [filter_filter]
        refine filter_congr fun x _ => ?_
        by_cases hx : x.2.1 ∈ (places g₁).map (·.2.1)
        · simp only [hx, hsub _ hx, decide_true, Bool.and_true]
        · simp only [hx, decide_false, Bool.false_and]
    _ = places g₁ := by rw [h', h]

theorem Widens.addEvents {g : Grid ε} (ho : Ordered g) (t : Int) (es : List ε) : Widens g (addEvents g t es) := by
  rcases addEvents_ordered ho t es with ⟨-, a, p, b, rfl, -, -, hadd⟩ | ⟨-, a, b, rfl, ha, hb, hadd⟩
  · exact .of_places (by rw [hadd]; simp [places])
  · have hnew : t ∉ (places (a ++ b)).map (·.2.1) := by
      simp only [places, map_map, mem_map, mem_append, Function.comp_apply]
      rintro ⟨q, hq | hq, rfl⟩
      · exact absurd (ha q hq) (by omega)
      · exact absurd (hb q hq) (by omega)
    have hplaces : places (a ++ { time := t, events := es } :: b) = places a ++ ("", t, -1) :: places b := by
      simp [places]
    rw [hadd, Widens, hplaces, filter_append, filter_cons_of_neg (by simpa using hnew), ← filter_append]
    exact (map_append (f := fun p : TimePoint ε => (p.label, p.time, p.wait))) ▸ Widens.of_places rfl

/-- Where a gate goes. -/
def ahead (least : Int) (x : Int × Gate) : Int × Gate := (x.1 - (x.2.latency - least), x.2)

/-- Gates that start before a point leave that point and those behind it as they are. -/
theorem moveGates_front {r : Grid Gate} (hr : ∀ q ∈ r, t ≤ q.time) {gs : List Gate}
    (hl : ∀ g ∈ gs, least < g.latency) (ho : Ordered (front ++ r)) :
    ∃ front', gs.foldl (moveGate least t) (front ++ r, front.length) = (front' ++ r, front'.length) ∧
      Ordered (front' ++ r) ∧ Widens (front ++ r) (front' ++ r) ∧
      (timed front').Perm (timed front ++ gs.map fun g => ahead least (t, g)) := by
  induction gs generalizing front with
  | nil => exact ⟨front, rfl, ho, .of_places rfl, by simp⟩
  | cons g gs ih =>
    have hg := hl g mem_cons_self
    obtain ⟨f₁, hadd, ho₁, hlen, hperm⟩ := addEvents_front ho (t := t - (g.latency - least))
      (fun q hq => by have := hr q hq; omega) [g]
    have hext := Widens.addEvents ho (t - (g.latency - least)) [g]
    obtain ⟨f₂, hfold, ho₂, hext₂, hperm₂⟩ := ih (fun x hx => hl x (mem_cons_of_mem g hx)) ho₁
    refine ⟨f₂, ?_, ho₂, (hadd ▸ hext).trans hext₂, hperm₂.trans ?_⟩
    · rw [foldl_cons, ← hfold, ← hadd, hlen]
      rfl
    · refine (hperm.append_right _).trans ?_
      rw [append_assoc]
      exact List.Perm.refl _

/-- Compensation of one point: it keeps the gates of least latency, and the others go ahead. -/
theorem compensatePoint_spec {r : Grid Gate} {p : TimePoint Gate} (ho : Ordered (front ++ p :: r))
    (hl : ∀ g ∈ p.events, least ≤ g.latency) :
    ∃ front', compensatePoint least (front ++ p :: r, front.length) = (front' ++ r, front'.length) ∧
      Ordered (front' ++ r) ∧ Widens (front ++ p :: r) (front' ++ r) ∧
      (∃ a b, front' = a ++ [{ p with events := b }] ∧ b.Sublist p.events) ∧
      (timed front').Perm (timed front ++ p.events.map fun g => ahead least (p.time, g)) := by
  set kept : TimePoint Gate := { p with events := p.events.filter fun g => g.latency == least } with hkept
  have ho' : Ordered (front ++ kept :: r) := by
    unfold Ordered at ho ⊢
    rw [pairwise_append, pairwise_cons] at ho ⊢
    refine ⟨ho.1, ho.2.1, fun x hx y hy => ?_⟩
    rcases mem_cons.1 hy with rfl | hy
    · exact ho.2.2 x hx p mem_cons_self
    · exact ho.2.2 x hx y (mem_cons_of_mem p hy)
  have hbehind : ∀ q ∈ kept :: r, p.time ≤ q.time :=
    forall_mem_cons.2 ⟨Int.le_refl _, (pairwise_cons.1 (pairwise_append.1 ho).2.1).1⟩
  have hlate : ∀ g ∈ p.events.filter (fun g => g.latency != least), least < g.latency := by
    intro g hg
    obtain ⟨hg, hne⟩ := mem_filter.1 hg
    have := hl g hg
    have : g.latency ≠ least := by simpa using hne
    omega
  obtain ⟨f, hfold, hof, hext, hperm⟩ := moveGates_front hbehind hlate ho'
  have hsame : Widens (front ++ p :: r) (front ++ kept :: r) := .of_places (by simp [places, hkept])
  refine ⟨f ++ [kept], ?_, ?_, ?_, ⟨f, _, rfl, List.filter_sublist⟩, ?_⟩
  · rw [compensatePoint, getElem?_append_right (Nat.le_refl _), Nat.sub_self]
    simp only [getElem?_cons_zero, set_append_right _ _ (Nat.le_refl front.length), Nat.sub_self,
      set_cons_zero, ← hkept, hfold]
    simp
  · rwa [append_assoc]
  · rw [append_assoc]
    exact hsame.trans hext
  · have hstay : kept.events.map (fun g => (kept.time, g)) = kept.events.map fun g => ahead least (p.time, g) := by
      refine map_congr_left fun g hg => ?_
      have : g.latency = least := by simpa using (mem_filter.1 hg).2
      simp [ahead, this, hkept]
    rw [timed_append, timed_cons, timed_nil, append_nil, hstay]
    refine (hperm.append_right _).trans ?_
    rw [append_assoc, ← map_append]
    refine List.Perm.append_left _ (List.Perm.map _ ?_)
    exact perm_append_comm.trans (filter_append_perm (fun g : Gate => g.latency == least) p.events)

/-- **Compensation of all points** behind a front that is done: the gates of each point go ahead once, and a last point
without gates stays the last one. -/
theorem compensateFrom_spec {rest : Grid Gate} (hl : ∀ x ∈ timed rest, least ≤ x.2.latency)
    {out : Grid Gate} (ho : Ordered (front ++ rest))
    (hout : compensateFrom least rest.length (front ++ rest, front.length) = out) :
    Ordered out ∧ Widens (front ++ rest) out ∧ (timed out).Perm (timed front ++ (timed rest).map (ahead least)) ∧
      ∀ e ∈ rest.getLast?, e.events = [] → ∃ a, out = a ++ [e] := by
  induction rest generalizing front with
  | nil =>
    simp only [length_nil, compensateFrom, append_nil] at hout ho
    subst hout
    exact ⟨ho, .of_places (by simp), by simp, by simp⟩
  | cons p rest ih =>
    rw [timed_cons, forall_mem_append] at hl
    obtain ⟨f, hstep, hof, hext, ⟨a, b, hf, hb⟩, hperm⟩ :=
      compensatePoint_spec ho fun g hg => hl.1 (p.time, g) (mem_map_of_mem hg)
    rw [length_cons, compensateFrom, hstep] at hout
    obtain ⟨ho', hext', hperm', hlast⟩ := ih hl.2 hof hout
    refine ⟨ho', hext.trans hext', hperm'.trans ((hperm.append_right _).trans ?_), fun e he hempty => ?_⟩
    · rw [timed_cons, map_append, map_map, append_assoc]
      exact List.Perm.refl _
    · cases rest with
      | nil =>
        -- the last point keeps its place, and there is no gate to move
        obtain rfl : p = e := by simpa using he
        rw [hempty, sublist_nil] at hb
        refine ⟨a, ?_⟩
        rw [← hout, length_nil, compensateFrom, append_nil, hf, hb, ← hempty]
      | cons q rest => exact hlast e (by simpa using he) hempty

/-- **Compensation moves each gate ahead** by how much its latency exceeds the least one. -/
theorem compensate_plan {P : List (Int × Gate)} {g : Grid Gate} (h : Plan T P g)
    (hl : ∀ x ∈ P, least ≤ x.2.latency) : Plan T (P.map (ahead least)) (compensate least g) := by
  obtain ⟨front, e, hg, ht, he⟩ := h.last
  have ho : Ordered ([] ++ g) := h.ordered
  obtain ⟨hof, -, hperm, hlast⟩ := compensateFrom_spec (fun x hx => hl x (h.events.mem_iff.1 hx)) ho rfl
  obtain ⟨a, ha⟩ := hlast e (by rw [hg, getLast?_concat]; rfl) he
  exact ⟨hof, ⟨a, e, ha, ht, he⟩, hperm.trans (h.events.map _)⟩

/-- **Compensation moves gates and nothing else.** The grid stays in time order, its points are those that are at its times,
in their order, and its gates are the same, each ahead by how much its latency exceeds the least one. -/
theorem compensate_moves {least : Int} {g : Grid Gate} (ho : Ordered g) (hl : ∀ x ∈ timed g, least ≤ x.2.latency) :
    Ordered (compensate least g) ∧
      (places (compensate least g)).filter (fun x => x.2.1 ∈ g.map (·.time)) = places g ∧
      (timed (compensate least g)).Perm ((timed g).map (ahead least)) := by
  have hstart : Ordered ([] ++ g) := ho
  obtain ⟨ho', hext, hperm, -⟩ := compensateFrom_spec hl hstart rfl
  have htimes : (places g).map (·.2.1) = g.map (·.time) := by simp [places]
  rw [nil_append, Widens, htimes] at hext
  exact ⟨ho', hext, hperm⟩

/-- Two lines that start together, with gates of several latencies, and the end. -/
def parallelGates : Grid Gate :=
  let gate (name : String) (latency : Int) : Gate := ⟨1, .rf, name, [0], latency⟩
  [{ label := "x", time := 0, wait := 0, events := [gate "x" 5, gate "y" 2] },
    { label := "z", time := 0, wait := 4, events := [gate "z" 3, gate "u" 5] }, { time := 4 }]

theorem compensate_moves_parallelGates :
    (compensate 2 parallelGates).map (fun p => (p.label, p.time, p.events.map (·.name))) =
      [("", -3, ["x", "u"]), ("", -1, ["z"]), ("x", 0, ["y"]), ("z", 0, []), ("", 4, [])] ∧
    Ordered (compensate 2 parallelGates) ∧
    (places (compensate 2 parallelGates)).filter (fun x => x.2.1 ∈ parallelGates.map (·.time)) = places parallelGates ∧
    (timed (compensate 2 parallelGates)).Perm ((timed parallelGates).map (ahead 2)) := by
  refine ⟨by decide, compensate_moves ?_ (by decide)⟩
  rw [Ordered]
  decide

/-! ## Passes that build a new grid -/

/-- What a gate on a pulse channel becomes: a pulse, or an event under the name of a gate that plays nothing. -/
structure PulseEvent (e : HwEvent) : Prop where
  format : e.format = []
  bits : e.setBits = []
  trigger : e.triggerBit = -1
  name : e.name = "pulse" ∨ e.codeword = dummyCodeword
  awg : 0 ≤ e.awg ∧ e.awg < 3

theorem PulseEvent.addHw {e : HwEvent} (he : PulseEvent e) (g : Grid HwEvent) (t : Int) :
    addHw g t e = .ok (addEvents g t [e]) := by
  rw [Qasm.addHw, he.bits]
  rfl

theorem timed_shiftBy (d : Int) (g : Grid HwEvent) : timed (shiftBy d g) = (timed g).map fun x => (x.1 + d, x.2) := by
  simp only [timed, shiftBy, flatMap_map, map_flatMap, map_map]
  rfl

theorem shiftOf_spec (ho : Ordered g) : 0 ≤ shiftOf g ∧ ∀ p ∈ shiftBy (shiftOf g) g, 0 ≤ p.time := by
  cases g with
  | nil => exact ⟨Int.le_refl 0, by simp [shiftBy]⟩
  | cons q r =>
    have hs : 0 ≤ shiftOf (q :: r) ∧ 0 ≤ q.time + shiftOf (q :: r) := by
      rw [shiftOf]
      split <;> omega
    refine ⟨hs.1, fun p hp => ?_⟩
    obtain ⟨a, ha, rfl⟩ := mem_map.1 hp
    show 0 ≤ a.time + shiftOf (q :: r)
    rcases mem_cons.1 ha with rfl | ha
    · exact hs.2
    · have := (pairwise_cons.1 ho).1 a ha
      omega

end QubitLab.Qasm
