import QubitLab.Proofs.PulseTiming
import Mathlib.Data.List.Sublists

/-!
# The lines of an emitted program

What each line of a program is, for points with any events: `pointText_written` says which events of a point have a line
and which field of the pulse line holds which codeword, `emit_eq` what stands around the lines of the points. The lines
read as the instructions that they are meant to be (`lineItem_trigger`, `NoteLine.item`). `bodyFrom_waits_iff`: all waits
are positive exactly when the points are in time order.
-/

namespace QubitLab.Qasm

open List

open Qumis (Item Operand)

/-! ## Trigger lines -/

theorem triggerMask_nonneg {bits : List Int} {m mask : Int} (hm : 0 ≤ m)
    (h : bits.foldlM (fun m b => if b > 7 then .error .valueInvalid else .ok (m + Nat.pow 2 (7 - b).toNat)) m =
      (.ok mask : Step Int)) : 0 ≤ mask := by
  induction bits generalizing m with
  | nil =>
    cases h
    exact hm
  | cons b bits ih =>
    rw [foldlM_cons] at h
    obtain ⟨m₁, h₁, h⟩ := bind_eq_ok.1 h
    split at h₁
    · cases h₁
    · cases h₁
      exact ih (Int.add_nonneg hm (Int.natCast_nonneg _)) h

theorem binaryDigits_isDigit (width : Nat) {n : Int} (hn : 0 ≤ n) :
    Qumis.binaryDigits width n ≠ [] ∧ ∀ c ∈ Qumis.binaryDigits width n, c.isDigit = true := by
  rw [Qumis.binaryDigits, if_neg (by omega), Decimal.zeroPad]
  refine ⟨by simp [Nat.toDigits_ne_nil], fun c hc => ?_⟩
  rcases mem_append.1 hc with hc | hc
  · rw [eq_of_mem_replicate hc]
    decide
  · exact Nat.isDigit_of_mem_toDigits (by decide) (by decide) hc

variable {l : String} {st' : List String × PulseFields} {p : TimePoint HwEvent} {lines : List String} {g : Grid HwEvent}

theorem lineItem_trigger {e : HwEvent} (h : triggerText e = .ok l) :
    ∃ mask, triggerMask e.setBits = .ok mask ∧ 0 ≤ mask ∧
      lineItem l = ⟨"", "trigger",
        [.word (String.ofList (Qumis.binaryDigits 7 mask)), .word (Decimal.intText e.duration)]⟩ := by
  obtain ⟨mask, hmask, h⟩ := bind_eq_ok.1 h
  have hm := triggerMask_nonneg (Int.le_refl 0) hmask
  obtain ⟨hne, hd⟩ := binaryDigits_isDigit 7 hm
  refine ⟨mask, hmask, hm, ?_⟩
  have hline : l = String.ofList (spaced ["trigger".toList, Qumis.binaryDigits 7 mask ++ [','],
      (Decimal.intText e.duration).toList]) := by
    cases h
    rw [← String.toList_inj]
    simp [String.toList_append, spaced]
  rw [hline, lineItem_spaced]
  · simp only [map_cons, List.map_nil, trimBy_comma hne hd, trimBy_intText, String.ofList_toList]
    rfl
  · intro w hw
    simp only [mem_cons, not_mem_nil, or_false] at hw
    rcases hw with rfl | rfl | rfl
    · exact plain_of_all (by decide) (by decide)
    · refine ⟨by simp, fun c hc => ?_⟩
      rcases mem_append.1 hc with hc | hc
      · exact (plain_of_isDigit hne hd).2 c hc
      · rw [mem_singleton.1 hc]
        decide
    · exact plain_intText e.duration

theorem triggerMask_digits {bits : List Int} (h : bits.Sublist [1, 2, 3, 4, 5, 6, 7]) :
    ∃ mask, triggerMask bits = .ok mask ∧
      Qumis.binaryDigits 7 mask = [1, 2, 3, 4, 5, 6, 7].map fun b : Int => if b ∈ bits then '1' else '0' := by
  have hall : ∀ bits ∈ List.sublists [(1 : Int), 2, 3, 4, 5, 6, 7], (triggerMask bits).map (Qumis.binaryDigits 7) =
      .ok ([1, 2, 3, 4, 5, 6, 7].map fun b : Int => if b ∈ bits then '1' else '0') := by decide +kernel
  exact map_eq_ok.1 (hall bits (mem_sublists.2 h))

/-! ## The lines of a point -/

/-- The instructions and fields of a point after some of its events. -/
structure Written (seen : List HwEvent) (st : List String × PulseFields) : Prop where
  lines : ∀ l ∈ st.1, ∃ e ∈ seen, (e.name = "trigger" ∧ triggerText e = .ok l) ∨ (e.name = "measure" ∧ l = "measure")
  triggers : ∀ e ∈ seen, e.name = "trigger" → ∃ l ∈ st.1, triggerText e = .ok l
  measures : ∀ e ∈ seen, e.name = "measure" → "measure" ∈ st.1
  length : st.2.length = 3
  fields : ∀ (i : Nat) (cw : Int), st.2[i]? = some (some cw) →
    ∃ e ∈ seen, e.name = "pulse" ∧ position? 3 e.awg = some i ∧ e.codeword = cw
  pulses : ∀ e ∈ seen, e.name = "pulse" → ∃ i cw, position? 3 e.awg = some i ∧ st.2[i]? = some (some cw)

theorem position?_lt {n : Nat} {b : Int} {i : Nat} (h : position? n b = some i) : i < n := by
  rw [position?] at h
  split at h <;> split at h <;> cases h <;> omega

/-- What one event does to the lines and fields of its point. -/
theorem noteEvent_cases {st : List String × PulseFields} {e : HwEvent} (h : noteEvent st e = .ok st') :
    (e.name = "pulse" ∧ ∃ i, position? st.2.length e.awg = some i ∧ st' = (st.1, st.2.set i (some e.codeword))) ∨
      (e.name = "trigger" ∧ ∃ l, triggerText e = .ok l ∧ st' = (st.1 ++ [l], st.2)) ∨
      (e.name = "measure" ∧ st' = (st.1 ++ ["measure"], st.2)) ∨
      (e.name ≠ "pulse" ∧ e.name ≠ "trigger" ∧ e.name ≠ "measure" ∧ st' = st) := by
  obtain ⟨fields, hf, h⟩ := bind_eq_ok.1 h
  rw [notePulse] at hf
  by_cases hp : e.name = "pulse"
  · rw [if_pos hp] at hf
    obtain ⟨i, hi, hf⟩ := bind_eq_ok.1 hf
    cases hf
    rw [if_neg (by rw [hp]; decide), if_neg (by rw [hp]; decide)] at h
    cases h
    exact .inl ⟨hp, i, orError_eq_ok.1 hi, rfl⟩
  · rw [if_neg hp] at hf
    cases hf
    by_cases ht : e.name = "trigger"
    · rw [if_pos ht] at h
      obtain ⟨l, hl, h⟩ := bind_eq_ok.1 h
      cases h
      exact .inr (.inl ⟨ht, l, hl, rfl⟩)
    · rw [if_neg ht] at h
      by_cases hm : e.name = "measure"
      · rw [if_pos hm] at h
        cases h
        exact .inr (.inr (.inl ⟨hm, rfl⟩))
      · rw [if_neg hm] at h
        cases h
        exact .inr (.inr (.inr ⟨hp, ht, hm, rfl⟩))

section
variable {seen : List HwEvent} {st : List String × PulseFields} {e : HwEvent}

theorem exists_seen {p : HwEvent → Prop} (h : ∃ x ∈ seen, p x) : ∃ x ∈ seen ++ [e], p x := by
  obtain ⟨x, hx, hp⟩ := h
  exact ⟨x, mem_append_left _ hx, hp⟩

theorem Written.addPulse (hs : Written seen st) (hn : e.name = "pulse") {i : Nat} (hi : position? 3 e.awg = some i) :
    Written (seen ++ [e]) (st.1, st.2.set i (some e.codeword)) where
  lines l hl := exists_seen (hs.lines l hl)
  triggers := forall_mem_append.2 ⟨hs.triggers, by simp [hn]⟩
  measures := forall_mem_append.2 ⟨hs.measures, by simp [hn]⟩
  length := by simpa using hs.length
  fields j cw hj := by
    simp only [getElem?_set] at hj
    split at hj
    · rename_i hij
      split at hj
      · cases hj
        exact ⟨e, by simp, hn, hij ▸ hi, rfl⟩
      · cases hj
    · exact exists_seen (hs.fields j cw hj)
  pulses := by
    have hi3 := position?_lt hi
    refine forall_mem_append.2 ⟨fun x hx hxn => ?_, fun x hx _ => ?_⟩
    · obtain ⟨j, cw, hj, hcw⟩ := hs.pulses x hx hxn
      by_cases hij : i = j
      · exact ⟨j, e.codeword, hj, by simp [← hij, hs.length, hi3]⟩
      · exact ⟨j, cw, hj, by simpa [getElem?_set, hij] using hcw⟩
    · rw [mem_singleton.1 hx]
      exact ⟨i, e.codeword, hi, by simp [hs.length, hi3]⟩

theorem Written.addLine (hs : Written seen st)
    (hl : (e.name = "trigger" ∧ triggerText e = .ok l) ∨ (e.name = "measure" ∧ l = "measure")) :
    Written (seen ++ [e]) (st.1 ++ [l], st.2) where
  lines := forall_mem_append.2 ⟨fun k hk => exists_seen (hs.lines k hk), fun k hk =>
    ⟨e, by simp, mem_singleton.1 hk ▸ hl⟩⟩
  triggers := by
    refine forall_mem_append.2 ⟨fun x hx hxn => ?_, fun x hx hxn => ?_⟩
    · obtain ⟨k, hk, htext⟩ := hs.triggers x hx hxn
      exact ⟨k, mem_append_left _ hk, htext⟩
    · rw [mem_singleton.1 hx] at hxn ⊢
      rcases hl with ⟨-, htext⟩ | ⟨hn, -⟩
      · exact ⟨l, by simp, htext⟩
      · exact absurd (hn.symm.trans hxn) (by decide)
  measures := by
    refine forall_mem_append.2 ⟨fun x hx hxn => mem_append_left _ (hs.measures x hx hxn), fun x hx hxn => ?_⟩
    rw [mem_singleton.1 hx] at hxn
    rcases hl with ⟨hn, -⟩ | ⟨-, rfl⟩
    · exact absurd (hn.symm.trans hxn) (by decide)
    · simp
  length := hs.length
  fields j cw hj := exists_seen (hs.fields j cw hj)
  pulses := forall_mem_append.2 ⟨hs.pulses, by rcases hl with ⟨hn, -⟩ | ⟨hn, -⟩ <;> simp [hn]⟩

theorem noteEvent_written (hs : Written seen st) (h : noteEvent st e = .ok st') : Written (seen ++ [e]) st' := by
  rcases noteEvent_cases h with ⟨hn, i, hi, rfl⟩ | ⟨hn, l, hl, rfl⟩ | ⟨hn, rfl⟩ | ⟨hp, ht, hm, rfl⟩
  · exact hs.addPulse hn (hs.length ▸ hi)
  · exact hs.addLine (.inl ⟨hn, hl⟩)
  · exact hs.addLine (.inr ⟨hn, rfl⟩)
  · exact ⟨fun l hl => exists_seen (hs.lines l hl), forall_mem_append.2 ⟨hs.triggers, by simp [ht]⟩,
      forall_mem_append.2 ⟨hs.measures, by simp [hm]⟩, hs.length, fun j cw hj => exists_seen (hs.fields j cw hj),
      forall_mem_append.2 ⟨hs.pulses, by simp [hp]⟩⟩

end

theorem Written.start : Written [] ([], [none, none, none]) :=
  ⟨by simp, by simp, by simp, rfl, fun i cw => by rcases i with _ | _ | _ | i <;> simp, by simp⟩

theorem noteEvents_written {es seen : List HwEvent} {st : List String × PulseFields} (hs : Written seen st)
    (h : es.foldlM noteEvent st = .ok st') : Written (seen ++ es) st' := by
  induction es generalizing seen st with
  | nil =>
    cases h
    simpa using hs
  | cons e es ih =>
    rw [foldlM_cons] at h
    obtain ⟨st₁, h₁, h⟩ := bind_eq_ok.1 h
    simpa using ih (noteEvent_written hs h₁) h

/-- **The lines of a point**: those of its triggers and measurements, and the line of its pulses. -/
theorem pointText_written {here : List String} (h : pointText p = .ok here) :
    ∃ out fields, here = out ++ pulseLines fields ∧ Written p.events (out, fields) := by
  obtain ⟨⟨out, fields⟩, hfold, h⟩ := bind_eq_ok.1 h
  cases h
  exact ⟨out, fields, rfl, by simpa using noteEvents_written .start hfold⟩

/-- The lines that events can have. -/
inductive NoteLine (es : List HwEvent) : String → Prop
  | trigger {e : HwEvent} {l : String} (he : e ∈ es) (hn : e.name = "trigger") (hl : triggerText e = .ok l) : NoteLine es l
  | measure {e : HwEvent} (he : e ∈ es) (hn : e.name = "measure") : NoteLine es "measure"
  | pulse (f g h : Option Int) : NoteLine es ("pulse " ++ ", ".intercalate ([f, g, h].map pulseField))

theorem pointText_notes {here : List String} (h : pointText p = .ok here) : ∀ l ∈ here, NoteLine p.events l := by
  obtain ⟨out, fields, rfl, hw⟩ := pointText_written h
  refine forall_mem_append.2 ⟨fun l hl => ?_, fun l hl => ?_⟩
  · obtain ⟨e, he, ⟨hn, ht⟩ | ⟨hn, rfl⟩⟩ := hw.lines l hl
    · exact .trigger he hn ht
    · exact .measure he hn
  · obtain ⟨f₁, f₂, f₃, rfl⟩ := length_eq_three.1 hw.length
    rw [pulseLines] at hl
    split at hl
    · rw [mem_singleton.1 hl]
      exact .pulse f₁ f₂ f₃
    · cases hl

/-- The instruction is a pulse, a trigger or a measurement. -/
abbrev IsEventItem (x : Item) : Prop := x.name = "pulse" ∨ x.name = "trigger" ∨ x.name = "measure"

theorem IsEventItem.ne_wait {x : Item} (h : IsEventItem x) : x.name ≠ "wait" := by
  rcases h with h | h | h <;> rw [h] <;> decide

theorem NoteLine.item {es : List HwEvent} (h : NoteLine es l) : (lineItem l).label = "" ∧ IsEventItem (lineItem l) := by
  cases h with
  | trigger he hn hl =>
    obtain ⟨mask, -, -, hitem⟩ := lineItem_trigger hl
    rw [hitem]
    exact ⟨rfl, .inr (.inl rfl)⟩
  | measure he hn =>
    rw [lineItem_measure]
    exact ⟨rfl, .inr (.inr rfl)⟩
  | pulse f g h =>
    rw [lineItem_pulse]
    exact ⟨rfl, .inl rfl⟩

/-! ## The lines of a program -/

/-- The wait up to a point. -/
def waitLines (n : Int) : List String := if n = 0 then [] else ["wait " ++ Decimal.intText n]

theorem bodyFrom_cons {t : Int} {r : Grid HwEvent} :
    bodyFrom t (p :: r) = .ok lines ↔ ∃ here rest, pointText p = .ok here ∧ bodyFrom p.time r = .ok rest ∧
      lines = waitLines (p.time - t) ++ here ++ rest := by
  rw [bodyFrom]
  constructor
  · intro h
    obtain ⟨here, hhere, h⟩ := bind_eq_ok.1 h
    obtain ⟨rest, hrest, h⟩ := bind_eq_ok.1 h
    cases h
    exact ⟨here, rest, hhere, hrest, rfl⟩
  · rintro ⟨here, rest, hhere, hrest, rfl⟩
    rw [hhere, hrest]
    rfl

/-- What stands before the lines of the points: the start of the loop, or a wait if they do not start with one. -/
def preamble (loop : Bool) (body : List String) : List String :=
  if loop then "wait 1" :: loopHead else if startsWithWait body then [] else ["wait 1"]

/-- **An emitted program** is the lines of its points between the start and the end of the loop. -/
theorem emit_eq {loop : Bool} (h : emit loop g = .ok lines) :
    ∃ body, bodyFrom 0 g = .ok body ∧ lines = preamble loop body ++ (body ++ if loop then loopTail else []) := by
  cases loop with
  | true =>
    obtain ⟨body, hbody, rfl⟩ := emit_loop h
    exact ⟨body, hbody, rfl⟩
  | false =>
    obtain ⟨body, hbody, h⟩ := bind_eq_ok.1 h
    simp only [Bool.false_eq_true, if_false, nil_append, append_nil] at h
    split at h
    · cases h
    · cases h
      refine ⟨body, hbody, ?_⟩
      rw [preamble]
      split <;> simp_all

/-- The instruction waits for at least one clock, if it waits. -/
def PositiveWait (x : Item) : Prop := x.name = "wait" → 1 ≤ clocksOf x

/-- **Positive waits are time order**: from a time on, the points come in order exactly when all waits are positive. -/
theorem bodyFrom_waits_iff {t : Int} (h : bodyFrom t g = .ok lines) :
    (∀ l ∈ lines, PositiveWait (lineItem l)) ↔ Ordered g ∧ ∀ p ∈ g, t ≤ p.time := by
  induction g generalizing t lines with
  | nil =>
    cases h
    simp [Ordered]
  | cons p r ih =>
    obtain ⟨here, rest, hhere, hrest, rfl⟩ := bodyFrom_cons.1 h
    have hnotes : ∀ l ∈ here, PositiveWait (lineItem l) := fun l hl hw =>
      absurd hw (pointText_notes hhere l hl).item.2.ne_wait
    have hwait : (∀ l ∈ waitLines (p.time - t), PositiveWait (lineItem l)) ↔ t ≤ p.time := by
      rw [waitLines]
      split
      · simp
        omega
      · simp only [mem_singleton, forall_eq, lineItem_wait, PositiveWait, clocksOf_wait, forall_const]
        omega
    rw [forall_mem_append, forall_mem_append, hwait, ih hrest]
    simp only [Ordered, pairwise_cons, forall_mem_cons]
    constructor
    · rintro ⟨⟨ht, -⟩, ho, hr⟩
      exact ⟨⟨hr, ho⟩, ht, fun q hq => Int.le_trans ht (hr q hq)⟩
    · rintro ⟨⟨hr, ho⟩, ht, -⟩
      exact ⟨⟨ht, hnotes⟩, ho, hr⟩

theorem emit_waits_iff {loop : Bool} (h : emit loop g = .ok lines) :
    (∀ l ∈ lines, PositiveWait (lineItem l)) ↔ Ordered g ∧ ∀ p ∈ g, 0 ≤ p.time := by
  obtain ⟨body, hbody, rfl⟩ := emit_eq h
  have hone : PositiveWait (lineItem "wait 1") := fun _ => by decide +kernel
  have hhead : ∀ l ∈ loopHead, PositiveWait (lineItem l) := by
    have : ∀ l ∈ loopHead, (lineItem l).name ≠ "wait" := by decide +kernel
    exact fun l hl hw => absurd hw (this l hl)
  have htail : ∀ l ∈ loopTail, PositiveWait (lineItem l) := by
    have : ∀ l ∈ loopTail, (lineItem l).name ≠ "wait" := by decide +kernel
    exact fun l hl hw => absurd hw (this l hl)
  have hbefore : ∀ l ∈ preamble loop body, PositiveWait (lineItem l) := by
    rw [preamble]
    split
    · exact forall_mem_cons.2 ⟨hone, hhead⟩
    · split
      · simp
      · simpa using hone
  have hafter : ∀ l ∈ (if loop then loopTail else []), PositiveWait (lineItem l) := by
    split
    · exact htail
    · simp
  rw [forall_mem_append, forall_mem_append, bodyFrom_waits_iff hbody]
  exact ⟨fun h => h.2.1, fun h => ⟨hbefore, h, hafter⟩⟩

end QubitLab.Qasm
