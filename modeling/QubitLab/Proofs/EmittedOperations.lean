import QubitLab.Proofs.HardwareOrder

/-!
# What operations leave in an emitted program

`wanted?` is the instruction that a gate on a qubit asks for by the kind of its channel, at the time of its line and ahead
by its latency: a codeword on a generator, bits of a trigger, or a measurement. `Plays` says that a program has such an
instruction at a time. `compileWith_plays`: gates are played, all later by one shift, if they are `Kept`. Of two codewords
at one time on one generator one is lost; a trigger is played if it has bits and its last stage lasts; and a measurement
is played only where some gate is called `measure` and has no codeword (`compileWith_lostOperations`).
-/

namespace QubitLab.Qasm

open List

open Qumis (Item Operand)

/-! ## Instructions with their times -/

/-- Instructions with the times at which they start. -/
def timedItems (t : Int) : List Item → List (Int × Item)
  | [] => []
  | x :: r => (t, x) :: timedItems (t + clocksOf x) r

/-- The instructions of a program with their times. -/
def itemsOf (assembly : List String) : List (Int × Item) := timedItems 0 (assembly.map lineItem)

theorem timedItems_append (t : Int) (xs ys : List Item) :
    timedItems t (xs ++ ys) = timedItems t xs ++ timedItems (t + total (xs.map clocksOf)) ys := by
  induction xs generalizing t with
  | nil => simp [timedItems, total]
  | cons x xs ih => simp [timedItems, total, ih, Int.add_assoc]

theorem timedItems_add (t d : Int) (xs : List Item) :
    timedItems (t + d) xs = (timedItems t xs).map fun x => (x.1 + d, x.2) := by
  induction xs generalizing t with
  | nil => rfl
  | cons x xs ih => rw [timedItems, timedItems, map_cons, ← ih, show t + d + clocksOf x = t + clocksOf x + d by omega]

theorem timedItems_still {xs : List Item} (h : ∀ x ∈ xs, x.name ≠ "wait") (t : Int) :
    timedItems t xs = xs.map (fun x => (t, x)) ∧ total (xs.map clocksOf) = 0 := by
  induction xs with
  | nil => exact ⟨rfl, rfl⟩
  | cons x xs ih =>
    rw [forall_mem_cons] at h
    obtain ⟨hxs, htotal⟩ := ih h.2
    rw [timedItems, map_cons, map_cons, total, htotal, clocksOf, if_neg h.1, Int.add_zero, hxs]
    exact ⟨rfl, rfl⟩

theorem timedItems_waitLines (n t : Int) :
    (∀ x ∈ timedItems t ((waitLines n).map lineItem), x.2.name = "wait") ∧
      total (((waitLines n).map lineItem).map clocksOf) = n := by
  rw [waitLines]
  split
  · rename_i hn
    exact ⟨by simp [timedItems], hn.symm⟩
  · simp only [map_singleton, lineItem_wait, timedItems, total, clocksOf_wait, mem_singleton, forall_eq]
    exact ⟨trivial, by omega⟩

variable {g : Grid HwEvent} {t : Int} {lines : List String}

/-- **The instructions of points stand at their times**, waits apart. -/
theorem mem_timedItems_body (h : bodyFrom t g = .ok lines)
    {x : Int × Item} (hx : x.2.name ≠ "wait") : x ∈ timedItems t (lines.map lineItem) ↔
      ∃ p ∈ g, p.time = x.1 ∧ ∃ here, pointText p = .ok here ∧ ∃ l ∈ here, lineItem l = x.2 := by
  induction g generalizing t lines with
  | nil =>
    cases h
    simp [timedItems]
  | cons p r ih =>
    obtain ⟨here, rest, hhere, hrest, rfl⟩ := bodyFrom_cons.1 h
    obtain ⟨hwaits, htotal⟩ := timedItems_waitLines (p.time - t) t
    have hevent : ∀ y ∈ here.map lineItem, y.name ≠ "wait" := by
      intro y hy
      obtain ⟨l, hl, rfl⟩ := mem_map.1 hy
      exact (pointText_notes hhere l hl).item.2.ne_wait
    have hstill := timedItems_still hevent p.time
    rw [map_append, map_append, append_assoc, timedItems_append, timedItems_append, htotal,
      show t + (p.time - t) = p.time by omega, hstill.1, hstill.2, Int.add_zero, mem_append, mem_append, ih hrest]
    simp only [mem_map, exists_exists_and_eq_and, mem_cons, exists_eq_or_imp]
    obtain ⟨u, y⟩ := x
    constructor
    · rintro (hwait | ⟨l, hl, heq⟩ | hr)
      · exact absurd (hwaits _ hwait) hx
      · cases heq
        exact .inl ⟨rfl, here, hhere, l, hl, rfl⟩
      · exact .inr hr
    · rintro (⟨ht, here', hhere', l, hl, hy⟩ | hr)
      · rw [hhere] at hhere'
        cases hhere'
        exact .inr (.inl ⟨l, hl, by rw [ht, hy]⟩)
      · exact .inr (.inr hr)

/-- What instructions render a grid: each point has a text, and events are played at the times of their points, later by
a delay. -/
structure Rendering (g : Grid HwEvent) (delay : Int) (items : List (Int × Item)) : Prop where
  texts : ∀ p ∈ g, ∃ here, pointText p = .ok here
  mem_iff : ∀ t x, IsEventItem x → ((t + delay, x) ∈ items ↔
    ∃ p ∈ g, p.time = t ∧ ∃ here, pointText p = .ok here ∧ ∃ l ∈ here, lineItem l = x)

theorem bodyFrom_texts (h : bodyFrom t g = .ok lines) : ∀ p ∈ g, ∃ here, pointText p = .ok here := by
  induction g generalizing t lines with
  | nil => simp
  | cons p r ih =>
    obtain ⟨here, rest, hhere, hrest, -⟩ := bodyFrom_cons.1 h
    exact forall_mem_cons.2 ⟨⟨here, hhere⟩, ih hrest⟩

theorem mem_of_mem_timedItems {u : Int} {xs : List Item} {x : Item} (hx : (u, x) ∈ timedItems t xs) : x ∈ xs := by
  induction xs generalizing t with
  | nil => cases hx
  | cons y ys ih =>
    rcases mem_cons.1 hx with heq | hx
    · cases heq
      exact mem_cons_self
    · exact mem_cons_of_mem y (ih hx)

theorem emit_rendering {loop : Bool} (h : emit loop g = .ok lines) :
    ∃ delay, 0 ≤ delay ∧ Rendering g delay (itemsOf lines) := by
  obtain ⟨body, hbody, rfl⟩ := emit_eq h
  have hbefore : 0 ≤ total (((preamble loop body).map lineItem).map clocksOf) ∧
      ∀ x ∈ (preamble loop body).map lineItem, ¬IsEventItem x := by
    have hloop : 0 ≤ total ((("wait 1" :: loopHead).map lineItem).map clocksOf) ∧
        ∀ x ∈ ("wait 1" :: loopHead).map lineItem, ¬IsEventItem x := by decide +kernel
    have hwait : 0 ≤ total ((["wait 1"].map lineItem).map clocksOf) ∧
        ∀ x ∈ ["wait 1"].map lineItem, ¬IsEventItem x := by decide +kernel
    rw [preamble]
    split
    · exact hloop
    · split
      · exact ⟨Int.le_refl 0, by simp⟩
      · exact hwait
  have hafter : ∀ x ∈ (if loop then loopTail else []).map lineItem, ¬IsEventItem x := by
    have htail : ∀ x ∈ loopTail.map lineItem, ¬IsEventItem x := by decide +kernel
    split
    · exact htail
    · simp
  refine ⟨_, hbefore.1, bodyFrom_texts hbody, fun t x hx => ?_⟩
  rw [itemsOf, map_append, map_append, timedItems_append, timedItems_append, timedItems_add, mem_append,
    mem_append, mem_map, ← mem_timedItems_body hbody (x := (t, x)) hx.ne_wait]
  constructor
  · rintro (hx' | ⟨⟨u, y⟩, hy, heq⟩ | hx')
    · exact absurd hx (hbefore.2 x (mem_of_mem_timedItems hx'))
    · obtain ⟨hu, rfl⟩ := Prod.mk.inj heq
      obtain rfl : u = t := by simp only at hu; omega
      exact hy
    · exact absurd hx (hafter x (mem_of_mem_timedItems hx'))
  · exact fun hx' => .inr (.inl ⟨(t, x), hx', rfl⟩)

/-- All pulse lines of a point are one, and its fields are codewords of the point. -/
theorem pointText_pulse {p : TimePoint HwEvent} {here : List String} (h : pointText p = .ok here) :
    ∃ fields : PulseFields,
      (∀ (i : Nat) (cw : Int), fields[i]? = some (some cw) →
        (∃ e ∈ p.events, e.name = "pulse" ∧ position? 3 e.awg = some i ∧ e.codeword = cw) ∧
        ∃ l ∈ here, lineItem l = ⟨"", "pulse", fields.map fun f => .word (pulseField f)⟩) ∧
      (∀ e ∈ p.events, e.name = "pulse" → ∃ i cw, position? 3 e.awg = some i ∧ fields[i]? = some (some cw)) ∧
      ∀ l ∈ here, (lineItem l).name = "pulse" → lineItem l = ⟨"", "pulse", fields.map fun f => .word (pulseField f)⟩ := by
  obtain ⟨out, fields, rfl, hw⟩ := pointText_written h
  obtain ⟨f₁, f₂, f₃, hf⟩ := length_eq_three.1 hw.length
  replace hf : fields = [f₁, f₂, f₃] := hf
  have hline : ∀ l ∈ pulseLines fields, lineItem l = ⟨"", "pulse", fields.map fun f => .word (pulseField f)⟩ := by
    intro l hl
    rw [pulseLines] at hl
    split at hl
    · rw [mem_singleton.1 hl, hf, lineItem_pulse]
    · cases hl
  refine ⟨fields, fun i cw hi => ⟨hw.fields i cw hi, ?_⟩, hw.pulses,
    forall_mem_append.2 ⟨fun l hl hn => ?_, fun l hl _ => ?_⟩⟩
  · have hany : fields.any (·.isSome) = true := any_eq_true.2 ⟨_, mem_of_getElem? hi, rfl⟩
    obtain ⟨l, hl⟩ : ∃ l, l ∈ pulseLines fields := by
      rw [pulseLines, if_pos hany]
      exact ⟨_, mem_singleton_self _⟩
    exact ⟨l, mem_append_right _ hl, hline l hl⟩
  · obtain ⟨e, -, ⟨-, ht⟩ | ⟨-, rfl⟩⟩ := hw.lines l hl
    · obtain ⟨mask, -, -, hitem⟩ := lineItem_trigger ht
      rw [hitem] at hn
      exact absurd hn (show "trigger" ≠ "pulse" by decide)
    · rw [lineItem_measure] at hn
      exact absurd hn (show "measure" ≠ "pulse" by decide)
  · exact hline l hl

theorem name_of_mem_pulsesAt {x : Item} {y : Pulse} (h : y ∈ pulsesAt t x) : x.name = "pulse" := by
  by_contra hn
  rw [pulsesAt, if_neg hn] at h
  cases h

/-- A field of the pulse lines of a point shows one codeword, of an event of the point. -/
theorem pointText_codeword {p : TimePoint HwEvent} {here : List String} (h : pointText p = .ok here) {l : String}
    (hl : l ∈ here) {cw : Int} {i : Nat} (hcw : ⟨t, i, cw⟩ ∈ pulsesAt t (lineItem l)) :
    p.events ≠ [] ∧ (0 ≤ cw ∧ cw < 8) ∧ ∀ l' ∈ here, ∀ cw', ⟨t, i, cw'⟩ ∈ pulsesAt t (lineItem l') → cw' = cw := by
  obtain ⟨fields, hfields, -, hline⟩ := pointText_pulse h
  have hread {l : String} (hl : l ∈ here) {cw : Int} (hcw : ⟨t, i, cw⟩ ∈ pulsesAt t (lineItem l)) :
      ∃ k, fields[i]? = some (some k) ∧ cw = k % 8 := by
    rw [hline l hl (name_of_mem_pulsesAt hcw), mem_pulsesAt] at hcw
    obtain ⟨j, k, hk, heq⟩ := hcw
    simp only [Pulse.mk.injEq, Int.natCast_inj, true_and] at heq
    exact ⟨k, heq.1 ▸ hk, heq.2⟩
  obtain ⟨k, hk, rfl⟩ := hread hl hcw
  obtain ⟨⟨e, he, -⟩, -⟩ := hfields i k hk
  refine ⟨ne_nil_of_mem he, by omega, fun l' hl' cw' hcw' => ?_⟩
  obtain ⟨k', hk', rfl⟩ := hread hl' hcw'
  rw [hk, Option.some.injEq, Option.some.injEq] at hk'
  rw [hk']

/-! ## What gates ask for -/

/-- What a gate asks for: a codeword on a generator, a trigger of bits or a measurement. -/
inductive Wanted
  | pulse (awg codeword : Int)
  | trigger (bits : List Int)
  | measure
  deriving DecidableEq

/-- What a gate on a qubit asks for and when: its channel says which instruction plays it and how early. A gate with the
dummy codeword asks for nothing. -/
def wanted? (cfg : Config) : Int × SourceOp × Int → Option (Int × Wanted)
  | (t, op, q) => do
    let ch ← (channelFor cfg q op.kind).toOption
    let start := t - (ch.latency - leastOf cfg)
    let codeword : Option Int := do
      let cw ← (codewordOf cfg (← ch.table.toOption) op.name).toOption
      if cw = dummyCodeword then none else some cw
    let instruction ← ch.instruction.toOption
    if instruction = "pulse" then return (start, .pulse (← ch.awg.toOption) (← codeword))
    if instruction = "trigger" then
      let bit ← ch.triggerBit.toOption
      match ch.codewordBits with
      | none => return (start, .trigger (← (bitsOf { triggerBit := bit }).toOption))
      | some bits =>
        let e : HwEvent := { triggerBit := bit, codeword := ← codeword, codewordBits := ← bits.toOption }
        return (start, .trigger (← (bitsOf e).toOption))
    if instruction = "measure" then return (start, .measure)
    none

/-- The instructions play what is wanted at a time: a pulse field of the generator holds the codeword, the mask of a
trigger has all the bits, or there is a measurement. -/
def Plays (items : List (Int × Item)) (t : Int) : Wanted → Prop
  | .pulse awg cw => ∃ i x, position? 3 awg = some i ∧ (t, x) ∈ items ∧ ⟨t, i, cw⟩ ∈ pulsesAt t x
  | .trigger bits => ∃ mask d, (t, ⟨"", "trigger", [.word mask, .word d]⟩) ∈ items ∧
      ∀ b ∈ bits, mask.toList[(b % 8 - 1).toNat]? = some '1'
  | .measure => (t, ⟨"", "measure", []⟩) ∈ items

/-- What is wanted of an event is not lost among the events of a program: all pulses at its time on its generator, itself
included, have its codeword as their three low bits; a trigger has bits and its last stage lasts; some event is called
`measure`. -/
def Kept (events : List (Int × HwEvent)) (x : Int × HwEvent) : Wanted → Prop
  | .pulse awg cw => ∀ y ∈ events, y.1 = x.1 → y.2.name = "pulse" → position? 3 y.2.awg = position? 3 awg →
      y.2.codeword % 8 = cw
  | .trigger bits => bits ≠ [] ∧ 0 < x.2.lastStage
  | .measure => ∃ y ∈ events, y.1 = x.1 ∧ y.2.name = "measure"

instance (events : List (Int × HwEvent)) (x : Int × HwEvent) : (w : Wanted) → Decidable (Kept events x w)
  | .pulse awg cw => inferInstanceAs (Decidable (∀ y ∈ events, y.1 = x.1 → y.2.name = "pulse" →
      position? 3 y.2.awg = position? 3 awg → y.2.codeword % 8 = cw))
  | .trigger bits => inferInstanceAs (Decidable (bits ≠ [] ∧ 0 < x.2.lastStage))
  | .measure => inferInstanceAs (Decidable (∃ y ∈ events, y.1 = x.1 ∧ y.2.name = "measure"))

/-- The event is what is asked for; for a measurement there is none. -/
def HwEvent.Answers (e : HwEvent) : Wanted → Prop
  | .pulse awg cw => e.name = "pulse" ∧ e.awg = awg ∧ e.codeword = cw
  | .trigger bits => e.name = "trigger" ∧ bitsOf e = .ok bits
  | .measure => e.name = ""

/-- **The event of a gate** answers what the gate asks for, at its time. -/
theorem startEvent_answers {cfg : Config} {s : Int × SourceOp × Int} {w : Wanted}
    (h : hwEventOf cfg (withLatency cfg (gateOn s.2.1 s.2.2)) = .ok (startEvent cfg s).2)
    (hw : wanted? cfg s = some (t, w)) :
    (startEvent cfg s).1 = t ∧ (startEvent cfg s).2.Answers w := by
  obtain ⟨u, op, q⟩ := s
  obtain ⟨q', ch, instr, hq, hch, hinstr, hcases⟩ := hwEventOf_inv h
  obtain rfl : q = q' := singleton_inj.1 hq
  replace hch : channelFor cfg q op.kind = .ok ch := hch
  have htime : (startEvent cfg (u, op, q)).1 = u - (ch.latency - leastOf cfg) := by
    simp [startEvent, ahead, withLatency, gateOn, hch, Except.toOption]
  simp only [wanted?, hch, hinstr, Except.toOption, Option.bind_eq_bind, Option.bind_some] at hw
  rw [htime]
  rcases hcases with ⟨rfl, awg, table, cw, ha, ht, hcw, he⟩ | ⟨rfl, bit, format, hb, -, hcases⟩ | ⟨hp, ht, he⟩
  · replace hcw : codewordOf cfg table op.name = .ok cw := hcw
    rw [if_pos rfl, ha, ht] at hw
    simp only [Option.bind_some, hcw] at hw
    split at hw
    · cases hw
    · rename_i hdummy
      cases hw
      rw [he]
      exact ⟨rfl, if_neg hdummy, rfl, rfl⟩
  · rw [if_neg (by decide), if_pos rfl, hb] at hw
    rcases hcases with ⟨hnone, he⟩ | ⟨bits, table, cw, hbits, ht, hcw, he⟩
    · rw [hnone] at hw
      simp only [Option.bind_some] at hw
      obtain ⟨bs, hbs, hw⟩ := Option.bind_eq_some_iff.1 hw
      cases hw
      rw [he]
      exact ⟨rfl, rfl, toOption_eq_some.1 hbs⟩
    · replace hcw : codewordOf cfg table op.name = .ok cw := hcw
      rw [hbits] at hw
      simp only [Option.bind_some, ht, hcw] at hw
      split at hw
      · cases hw
      · rename_i hdummy
        rw [Option.bind_some] at hw
        obtain ⟨bs, hbs, hw⟩ := Option.bind_eq_some_iff.1 hw
        cases hw
        rw [he]
        exact ⟨rfl, if_neg hdummy, toOption_eq_some.1 hbs⟩
  · rw [if_neg hp, if_neg ht] at hw
    split at hw
    · cases hw
      rw [he]
      exact ⟨rfl, rfl⟩
    · cases hw

/-! ## Events that are played -/

section
variable {d : Int} {items : List (Int × Item)}

/-- A codeword is played where a pulse stands, and it is one of those that stand there. -/
theorem Rendering.pulse (h : Rendering g d items) {e : HwEvent} (he : (t, e) ∈ timed g) (hn : e.name = "pulse") :
    ∃ y, (t, y) ∈ timed g ∧ y.name = "pulse" ∧ position? 3 y.awg = position? 3 e.awg ∧
      Plays items (t + d) (.pulse e.awg (y.codeword % 8)) := by
  obtain ⟨p, hp, rfl, hep⟩ := mem_timed.1 he
  obtain ⟨here, hhere⟩ := h.texts p hp
  obtain ⟨fields, hfields, hpulses, -⟩ := pointText_pulse hhere
  obtain ⟨i, cw, hi, hcw⟩ := hpulses e hep hn
  obtain ⟨⟨y, hy, hyn, hyi, rfl⟩, l, hl, hitem⟩ := hfields i cw hcw
  refine ⟨y, mem_timed.2 ⟨p, hp, rfl, hy⟩, hyn, hyi.trans hi.symm, i, lineItem l, hi, ?_, ?_⟩
  · exact (h.mem_iff p.time _ (.inl (by rw [hitem]))).2 ⟨p, hp, rfl, here, hhere, l, hl, rfl⟩
  · rw [hitem]
    exact mem_pulsesAt.2 ⟨i, _, hcw, rfl⟩

/-- The mask of a trigger has its bits. -/
theorem Rendering.trigger (h : Rendering g d items) {e : HwEvent} (he : (t, e) ∈ timed g) (hn : e.name = "trigger")
    (hb : e.setBits.Sublist [1, 2, 3, 4, 5, 6, 7]) : Plays items (t + d) (.trigger e.setBits) := by
  obtain ⟨p, hp, rfl, hep⟩ := mem_timed.1 he
  obtain ⟨here, hhere⟩ := h.texts p hp
  obtain ⟨out, fields, rfl, hw⟩ := pointText_written hhere
  obtain ⟨l, hl, htext⟩ := hw.triggers e hep hn
  obtain ⟨mask, hmask, -, hitem⟩ := lineItem_trigger htext
  obtain ⟨mask', hmask', hdigits⟩ := triggerMask_digits hb
  obtain rfl : mask = mask' := Except.ok.inj (hmask.symm.trans hmask')
  refine ⟨_, _, (h.mem_iff p.time _ (.inr (.inl rfl))).2 ⟨p, hp, rfl, _, hhere, l, mem_append_left _ hl, hitem⟩,
    fun b hbit => ?_⟩
  have hseven : ∀ b ∈ [(1 : Int), 2, 3, 4, 5, 6, 7], [(1 : Int), 2, 3, 4, 5, 6, 7][(b % 8 - 1).toNat]? = some b := by decide
  rw [String.toList_ofList, hdigits, getElem?_map, hseven b (hb.subset hbit)]
  simp [hbit]

theorem Rendering.measure_iff (h : Rendering g d items) :
    Plays items (t + d) .measure ↔ ∃ e, (t, e) ∈ timed g ∧ e.name = "measure" := by
  rw [Plays, h.mem_iff t _ (.inr (.inr rfl))]
  constructor
  · rintro ⟨p, hp, rfl, here, hhere, l, hl, hitem⟩
    cases pointText_notes hhere l hl with
    | trigger he hn hl =>
      obtain ⟨mask, -, -, hitem'⟩ := lineItem_trigger hl
      rw [hitem', Item.mk.injEq] at hitem
      exact absurd hitem.2.1 (by decide)
    | measure he hn => exact ⟨_, mem_timed.2 ⟨p, hp, rfl, he⟩, hn⟩
    | pulse f g h =>
      rw [lineItem_pulse, Item.mk.injEq] at hitem
      exact absurd hitem.2.1 (by decide)
  · rintro ⟨e, he, hn⟩
    obtain ⟨p, hp, rfl, hep⟩ := mem_timed.1 he
    obtain ⟨here, hhere⟩ := h.texts p hp
    obtain ⟨out, fields, rfl, hw⟩ := pointText_written hhere
    exact ⟨p, hp, rfl, _, hhere, "measure", mem_append_left _ (hw.measures e hep hn), lineItem_measure⟩

/-- No two points with events have one time. -/
def OnePerTime (g : Grid HwEvent) : Prop :=
  ∀ p ∈ g, ∀ q ∈ g, p.events ≠ [] → q.events ≠ [] → p.time = q.time → p = q

/-- A generator plays one codeword at a time, and one of three bits. -/
theorem Rendering.pulse_unique (h : Rendering g d items) (hg : OnePerTime g) {awg cw cw' : Int}
    (hcw : Plays items t (.pulse awg cw)) (hcw' : Plays items t (.pulse awg cw')) : cw = cw' ∧ 0 ≤ cw ∧ cw < 8 := by
  have hpoint {x : Item} {i : Nat} {cw : Int} (hx : (t, x) ∈ items) (hpulse : ⟨t, i, cw⟩ ∈ pulsesAt t x) :
      ∃ p ∈ g, p.time = t - d ∧ ∃ here, pointText p = .ok here ∧ ∃ l ∈ here, lineItem l = x := by
    rw [show t = t - d + d by omega] at hx
    exact (h.mem_iff (t - d) x (.inl (name_of_mem_pulsesAt hpulse))).1 hx
  obtain ⟨i, x, hi, hx, hpulse⟩ := hcw
  obtain ⟨j, y, hj, hy, hpulse'⟩ := hcw'
  obtain rfl := Option.some.inj (hi.symm.trans hj)
  obtain ⟨p, hp, hpt, here, hhere, l, hl, rfl⟩ := hpoint hx hpulse
  obtain ⟨q, hq, hqt, here', hhere', l', hl', rfl⟩ := hpoint hy hpulse'
  obtain ⟨hne, hcw, hone⟩ := pointText_codeword hhere hl hpulse
  obtain rfl := hg p hp q hq hne (pointText_codeword hhere' hl' hpulse').1 (hpt.trans hqt.symm)
  obtain rfl := Except.ok.inj (hhere.symm.trans hhere')
  exact ⟨(hone l' hl' cw' hpulse').symm, hcw⟩

end

/-! ## Compiled programs -/

theorem onePerTime_of_sorted {front : Grid HwEvent} {e : TimePoint HwEvent} (hs : front.Pairwise fun p q => p.time < q.time)
    (he : e.events = []) (d : Int) : OnePerTime (shiftBy d (front ++ [e])) := by
  have hfront : ∀ p ∈ shiftBy d (front ++ [e]), p.events ≠ [] → ∃ a ∈ front, p = { a with time := a.time + d } := by
    intro p hp hne
    obtain ⟨a, ha, rfl⟩ := mem_map.1 hp
    rcases mem_append.1 ha with ha | ha
    · exact ⟨a, ha, rfl⟩
    · rw [mem_singleton.1 ha] at hne
      exact absurd he hne
  intro p hp q hq hpe hqe htime
  obtain ⟨a, ha, rfl⟩ := hfront p hp hpe
  obtain ⟨b, hb, rfl⟩ := hfront q hq hqe
  have hnodup : (front.map (·.time)).Nodup := pairwise_map.2 (hs.imp fun h => by omega)
  rw [inj_on_of_nodup_map hnodup ha hb (by simp only at htime; omega)]

/-- A trigger with bits whose last stage lasts has all its bits set where that stage starts. -/
theorem mem_codedEvents_trigger {xs : List (Int × HwEvent)} {x : Int × HwEvent} (hx : x ∈ xs) (hn : x.2.name = "trigger")
    {bits : List Int} (hb : bitsOf x.2 = .ok bits) (hne : bits ≠ []) (hl : 0 < x.2.lastStage) :
    ∃ y ∈ codedEvents xs, y.1 = x.1 ∧ y.2.name = "trigger" ∧ 0 < y.2.duration ∧ y.2.setBits = bits := by
  obtain ⟨d, hd, hstage⟩ : ∃ d, 0 < d ∧ (x.1, { x.2 with duration := d, format := [] }) ∈ stagesOf x := by
    rw [HwEvent.lastStage, HwEvent.stageClocks] at hl
    rw [stagesOf, if_pos hn]
    rcases hf : x.2.format with _ | ⟨d, _ | ⟨d₂, _ | ⟨d₃, r⟩⟩⟩ <;> simp [hn, hf] at hl ⊢
    · exact hl
    · exact ⟨d₂, hl, .inr rfl⟩
  obtain ⟨b, bs, rfl⟩ := exists_cons_of_ne_nil hne
  refine ⟨(x.1, { x.2 with
    duration := d, format := [], setBits := b :: bs, triggerBit := -1, codeword := -1
    codewordBits := if x.2.codeword = -1 then x.2.codewordBits else [] }),
    mem_flatMap.2 ⟨_, mem_flatMap.2 ⟨x, hx, hstage⟩, ?_⟩, rfl, hn, hd, rfl⟩
  rw [codedOf, if_pos hn, show bitsOf { x.2 with duration := d, format := [] } = .ok (b :: bs) from hb]
  exact mem_singleton_self _

theorem shiftOf_nonneg (g : Grid HwEvent) : 0 ≤ shiftOf g := by
  cases g with
  | nil => exact Int.le_refl 0
  | cons p r =>
    rw [shiftOf]
    split <;> omega

/-- **What the final grid of a program holds**: all events that are no triggers, at their times, and a trigger of running
bits where each trigger starts. -/
theorem Stages.final_events {cfg : Config} {loop : Bool} {lines : List (List SourceOp)} {c : Compilation}
    (hst : Stages cfg loop lines c) (hd : ∀ l ∈ lines, ∀ op ∈ l, op.declares = false)
    (ha : ∀ l ∈ lines, ∀ op ∈ l, op.kind.isAlone = true → l = [op]) (hw : ∀ l ∈ lines, 0 ≤ lineLength cfg l) :
    OnePerTime c.final ∧
      (∀ (t : Int) (e : HwEvent), e.name ≠ "trigger" →
        ((t + shiftOf c.divided, e) ∈ timed c.final ↔ (t, e) ∈ hwEvents cfg c.names.map lines)) ∧
      ∀ x ∈ hwEvents cfg c.names.map lines, x.2.name = "trigger" → ∀ bits, bitsOf x.2 = .ok bits → bits ≠ [] →
        0 < x.2.lastStage → ∃ k n, CountersOk k ∧ (x.1 + shiftOf c.divided, cutOf n k) ∈ timed c.final ∧
          ∀ b ∈ bits, b % 8 ∈ runningBits k := by
  obtain ⟨B, hB⟩ := exists_endBound (hwEvents cfg c.names.map lines)
  obtain ⟨D, hD⟩ := exists_stageBound (hwEvents cfg c.names.map lines)
  obtain ⟨front, e, Q, hdiv, -, hee, hbuilt, hdivision⟩ := hst.division hd ha hw hB hD
  have hmem (t : Int) (x : HwEvent) : (t + shiftOf c.divided, x) ∈ timed c.final ↔ (t, x) ∈ Q := by
    have hfront : timed c.divided = timed front := by simp [hdiv, hee]
    rw [hst.final, timed_shiftBy, hfront, ← hbuilt.events.mem_iff, mem_map]
    constructor
    · rintro ⟨⟨u, y⟩, hy, heq⟩
      simp only [Prod.mk.injEq, Int.add_left_inj] at heq
      rwa [← heq.1, ← heq.2]
    · exact fun hx => ⟨(t, x), hx, rfl⟩
  refine ⟨?_, fun t x hn => ?_, fun x hx hn bits hbits hne hl => ?_⟩
  · rw [hst.final, hdiv]
    exact onePerTime_of_sorted hbuilt.sorted hee _
  · rw [hmem, ← mem_codedEvents_other (hwEvents cfg c.names.map lines) hn]
    refine ⟨fun hx => ?_, fun hx => hdivision.kept _ hx hn⟩
    rcases hdivision.made _ hx with ⟨-, hx⟩ | ⟨k, n, -, -, -, rfl, -⟩
    · exact hx
    · exact absurd rfl hn
  · obtain ⟨y, hy, ht, hyn, hyd, rfl⟩ := mem_codedEvents_trigger hx hn hbits hne hl
    obtain ⟨k, n, hk, hcut, hbits⟩ := hdivision.sent y hy hyn hyd hne
    exact ⟨k, n, hk, (hmem _ _).2 (ht ▸ hcut), hbits⟩

/-- **No operation is lost but by an exception.** There is one shift, and each gate whose wish is kept is played at its time
with the shift. A generator plays one codeword of three bits at a time, and a measurement is played only for a gate that is
called `measure` and has the dummy codeword. -/
theorem compileWith_plays {s : Session} {cfg : Config} {loop : Bool} {text : String} {c : Compilation}
    (h : (s.compileWith cfg loop text).2 = .ok c) (hw : ∀ l ∈ playedLines c.parsed, 0 ≤ lineLength cfg l) :
    ∃ shift, 0 ≤ shift ∧
      (∀ x ∈ startsFrom cfg c.names.map 0 (playedLines c.parsed), ∀ t w, wanted? cfg x = some (t, w) →
        Kept (hwEvents cfg c.names.map (playedLines c.parsed)) (startEvent cfg x) w →
        Plays (itemsOf c.assembly) (t + shift) w) ∧
      (∀ t awg cw cw', Plays (itemsOf c.assembly) t (.pulse awg cw) → Plays (itemsOf c.assembly) t (.pulse awg cw') →
        cw = cw' ∧ 0 ≤ cw ∧ cw < 8) ∧
      ∀ t, Plays (itemsOf c.assembly) (t + shift) .measure → ∃ x ∈ startsFrom cfg c.names.map 0 (playedLines c.parsed),
        (startEvent cfg x).1 = t ∧ (startEvent cfg x).2.codeword = dummyCodeword ∧ x.2.1.name = "measure" := by
  obtain ⟨hst, halone⟩ := compileWith_stages h
  have hdecl : ∀ l ∈ playedLines c.parsed, ∀ op ∈ l, op.declares = false := fun _ => playedLines_declares
  obtain ⟨hone, hother, htrigger⟩ := hst.final_events hdecl halone hw
  have hevents := (hst.converted_plan hdecl halone hw).2
  obtain ⟨d, hd, hr⟩ := emit_rendering hst.assembly
  rw [← hst.final] at hr
  refine ⟨shiftOf c.divided + d, Int.add_nonneg (shiftOf_nonneg _) hd, fun x hx t w hwant hkept => ?_,
    fun t awg cw cw' hcw hcw' => hr.pulse_unique hone hcw hcw', fun t hm => ?_⟩
  · obtain ⟨rfl, hans⟩ := startEvent_answers (hevents x hx) hwant
    have hmem : startEvent cfg x ∈ hwEvents cfg c.names.map (playedLines c.parsed) := mem_map_of_mem hx
    rw [← Int.add_assoc]
    cases w with
    | pulse awg cw =>
      obtain ⟨hn, rfl, rfl⟩ := hans
      obtain ⟨y, hy, hyn, hpos, hplays⟩ := hr.pulse ((hother _ (startEvent cfg x).2 (by rw [hn]; decide)).2 hmem) hn
      rwa [hkept _ ((hother _ y (by rw [hyn]; decide)).1 hy) rfl hyn hpos] at hplays
    | trigger bits =>
      obtain ⟨hn, hbits⟩ := hans
      obtain ⟨k, n, hk, hcut, hrun⟩ := htrigger _ hmem hn bits hbits hkept.1 hkept.2
      obtain ⟨mask, clocks, hitem, hmask⟩ := hr.trigger hcut rfl hk.runningBits_sublist
      refine ⟨mask, clocks, hitem, fun b hb => ?_⟩
      rw [← hmask _ (hrun b hb), Int.emod_emod_of_dvd b (Int.dvd_refl 8)]
    | measure =>
      obtain ⟨y, hy, ht, hyn⟩ := hkept
      exact hr.measure_iff.2 ⟨y.2, (hother _ y.2 (by rw [hyn]; decide)).2 (ht ▸ hy), hyn⟩
  · rw [← Int.add_assoc, hr.measure_iff] at hm
    obtain ⟨e, he, hn⟩ := hm
    obtain ⟨x, hx, heq⟩ := mem_map.1 ((hother t e (by rw [hn]; decide)).1 he)
    have hevent := hevents x hx
    rw [heq] at hevent
    obtain ⟨hcw, hname⟩ := hwEventOf_measure hevent hn
    exact ⟨x, hx, by rw [heq], by rw [heq]; exact hcw, hname⟩

/-- Two qubits with triggers of one and of two stages, the second sending codewords on bits 3 and 4. -/
def codedReadout : Config :=
  { triggeredReadout [5] [2, 10] 40 with
    qubits := [[("rf", pulseChannel 0 0), ("measurement", triggerChannel 1 [5])],
      [("rf", pulseChannel 3 1),
        ("measurement", { triggerChannel 2 [2, 10] with table := .ok 0, codewordBits := some (.ok [3, 4]) })]]
    tables := .ok [.ok [("x", .ok 1), ("ro", .ok 2)]] }

theorem compileWith_plays_readout :
    ∃ c shift, (Session.compileWith {} codedReadout true "x a | x b\nro a | ro b").2 = .ok c ∧
      (startsFrom codedReadout c.names.map 0 (playedLines c.parsed)).map (wanted? codedReadout) =
        [some (0, .pulse 0 1), some (-3, .pulse 1 1), some (4, .trigger [1]), some (4, .trigger [2, 4])] ∧
      ∀ x ∈ startsFrom codedReadout c.names.map 0 (playedLines c.parsed), ∀ t w, wanted? codedReadout x = some (t, w) →
        Plays (itemsOf c.assembly) (t + shift) w := by
  have hrun : (Session.compileWith {} codedReadout true "x a | x b\nro a | ro b").2.map (fun c =>
      let starts := startsFrom codedReadout c.names.map 0 (playedLines c.parsed)
      ((playedLines c.parsed).map (lineLength codedReadout), starts.map (wanted? codedReadout),
        decide (∀ x ∈ starts, ∀ y ∈ wanted? codedReadout x,
          Kept (hwEvents codedReadout c.names.map (playedLines c.parsed)) (startEvent codedReadout x) y.2))) =
      .ok ([4, 40], [some (0, .pulse 0 1), some (-3, .pulse 1 1), some (4, .trigger [1]), some (4, .trigger [2, 4])],
        true) := by
    decide +kernel
  obtain ⟨c, hc, hshown⟩ := map_eq_ok.1 hrun
  obtain ⟨hlines, hshown⟩ := Prod.mk.inj hshown
  obtain ⟨hwanted, hkept⟩ := Prod.mk.inj hshown
  obtain ⟨shift, -, hplays, -⟩ := compileWith_plays hc fun l hl => by
    have := mem_map_of_mem (f := lineLength codedReadout) hl
    rw [hlines] at this
    simp only [mem_cons, not_mem_nil, or_false] at this
    omega
  exact ⟨c, shift, hc, hwanted, fun x hx t w hw => hplays x hx t w hw (of_decide_eq_true hkept x hx (t, w) hw)⟩

/-- A channel that measures. -/
def measureChannel : Channel := { triggerChannel 1 [] with instruction := .ok "measure", triggerBit := .error .keyMissing }

/-- A gate on a channel that measures is lost, and of two gates at one time on one generator only the last one is played. -/
theorem compileWith_lostOperations :
    let measured := { triggeredReadout [5] [10] 4 with qubits := [[("measurement", measureChannel)]], physical := [0] }
    let shared := { twoChannels 0 4 with qubits := [[("rf", pulseChannel 0 0)], [("rf", pulseChannel 0 0)]] }
    let result (cfg : Config) (text : String) := (Session.compileWith {} cfg true text).2.map fun c =>
      ((startsFrom cfg c.names.map 0 (playedLines c.parsed)).map (wanted? cfg), c.assembly)
    result measured "ro a" = .ok ([some (0, .measure)], ["wait 1"] ++ loopHead ++ ["wait 4"] ++ loopTail) ∧
      result shared "x a | y b" = .ok ([some (0, .pulse 0 1), some (0, .pulse 0 2)],
        ["wait 1"] ++ loopHead ++ ["pulse 1010, 0000, 0000", "wait 4"] ++ loopTail) := by
  decide +kernel

end QubitLab.Qasm
