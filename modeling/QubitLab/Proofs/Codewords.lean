import QubitLab.Proofs.BranchTargets
import QubitLab.Proofs.EmittedOperations
import QubitLab.Proofs.ErrorDiscipline

/-!
# Codewords in an emitted program

A codeword is shown in three digits of a pulse field, or on the codeword bits of a trigger channel, lowest digit first
(`codewordOn`). Nothing is said about codewords that have more digits: the field shows the last three digits, and on a
channel the digits without a bit are dropped. `compileWith_codewords` says exactly when a codeword can be read back: from a
field if it is below eight and no later pulse of the point is on its generator, and from the bits of a trigger if it is
`Carried`. `compileWith_cutCodewords` are programs whose codewords are cut.
-/

namespace QubitLab.Qasm

open List

open Qumis (Item Operand)

/-! ## Fields of pulses -/

/-- The codeword of the last pulse on a generator. -/
def lastCodeword? (i : Nat) : List HwEvent → Option Int
  | [] => none
  | e :: es => (lastCodeword? i es).or (if e.name = "pulse" ∧ position? 3 e.awg = some i then some e.codeword else none)

variable {i : Nat}

theorem lastCodeword?_isSome {es : List HwEvent} {e : HwEvent} (he : e ∈ es) (hn : e.name = "pulse")
    (hi : position? 3 e.awg = some i) : ∃ cw, lastCodeword? i es = some cw := by
  induction es with
  | nil => cases he
  | cons x es ih =>
    rw [lastCodeword?]
    rcases mem_cons.1 he with rfl | he
    · rw [if_pos ⟨hn, hi⟩]
      cases lastCodeword? i es <;> simp
    · obtain ⟨cw, hcw⟩ := ih he
      exact ⟨cw, by rw [hcw, Option.some_or]⟩

/-- **The last pulse wins**: the fields of a point are those of the last pulses on the generators. -/
theorem noteEvents_fields {es : List HwEvent} {st st' : List String × PulseFields} (hl : st.2.length = 3)
    (h : es.foldlM noteEvent st = .ok st') {f : Option Int} (hf : st.2[i]? = some f) :
    st'.2[i]? = some ((lastCodeword? i es).or f) := by
  induction es generalizing st f with
  | nil =>
    cases h
    simpa [lastCodeword?] using hf
  | cons e es ih =>
    rw [foldlM_cons] at h
    obtain ⟨st₁, h₁, hrest⟩ := bind_eq_ok.1 h
    rw [lastCodeword?, Option.or_assoc]
    rcases noteEvent_cases h₁ with ⟨hn, j, hj, rfl⟩ | ⟨hn, l, -, rfl⟩ | ⟨hn, rfl⟩ | ⟨hn, -, -, rfl⟩
    · rw [hl] at hj
      refine ih (by simpa using hl) hrest ?_
      by_cases hij : j = i
      · subst hij
        simp [hn, hj, hl, position?_lt hj]
      · simpa [hn, hj, hij, getElem?_set] using hf
    all_goals
      refine ih ?_ hrest ?_
      · exact hl
      · simpa [hn] using hf

/-- A program has a pulse instruction at a time that shows digits in the field of a generator. -/
def ShowsField (items : List (Int × Item)) (t : Int) (i : Nat) (digits : List Char) : Prop :=
  ∃ fields, (t, ⟨"", "pulse", fields⟩) ∈ items ∧ fields[i]? = some (.word ("1" ++ String.ofList digits))

/-- A program that renders a grid shows three digits of the last pulse of a point on a generator. -/
theorem Rendering.showsField {g : Grid HwEvent} {d : Int} {items : List (Int × Item)} (h : Rendering g d items)
    {p : TimePoint HwEvent} (hp : p ∈ g) (hi : i < 3) {cw : Int} (hcw : lastCodeword? i p.events = some cw) :
    ShowsField items (p.time + d) i (Qumis.twosComplement 3 cw) := by
  obtain ⟨here, hhere⟩ := h.texts p hp
  obtain ⟨⟨out, fields⟩, hfold, hout⟩ := bind_eq_ok.1 hhere
  replace hout : out ++ pulseLines fields = here := Except.ok.inj hout
  have hstart : ([none, none, none] : PulseFields)[i]? = some none := by
    obtain rfl | rfl | rfl : i = 0 ∨ i = 1 ∨ i = 2 := by omega
    all_goals rfl
  have hfield : fields[i]? = some (some cw) := by
    rw [noteEvents_fields rfl hfold hstart, hcw, Option.some_or]
  have hany : fields.any Option.isSome = true := any_eq_true.2 ⟨_, mem_of_getElem? hfield, rfl⟩
  obtain ⟨f₁, f₂, f₃, hf⟩ := length_eq_three.1 (noteEvents_written .start hfold).length
  obtain rfl : fields = [f₁, f₂, f₃] := hf
  refine ⟨[f₁, f₂, f₃].map fun f => .word (pulseField f), ?_, by rw [getElem?_map, hfield]; rfl⟩
  refine (h.mem_iff p.time _ (.inl rfl)).2 ⟨p, hp, rfl, here, hhere, _, ?_, lineItem_pulse f₁ f₂ f₃⟩
  rw [← hout, pulseLines, if_pos hany]
  simp

/-! ## Bits of triggers -/

/-- The number that set bits show on wires, the lowest digit on the first one. -/
def codewordOn (bits : List Int) : List Int → Nat
  | [] => 0
  | w :: ws => (if w ∈ bits then 1 else 0) + 2 * codewordOn bits ws

theorem testBit_codewordOn (bits wires : List Int) (i : Nat) :
    (codewordOn bits wires).testBit i = true ↔ ∃ w, wires[i]? = some w ∧ w ∈ bits := by
  induction wires generalizing i with
  | nil => simp [codewordOn]
  | cons w ws ih =>
    cases i with
    | zero =>
      rw [codewordOn, Nat.testBit_zero]
      split <;> simp_all
    | succ i =>
      have hhalf : ((if w ∈ bits then 1 else 0) + 2 * codewordOn bits ws) / 2 = codewordOn bits ws := by
        split <;> omega
      rw [codewordOn, Nat.testBit_succ, hhalf, ih, getElem?_cons_succ]

theorem codewordOn_eq_iff {bits wires : List Int} {n : Nat} :
    codewordOn bits wires = n ↔ ∀ i, n.testBit i = true ↔ ∃ w, wires[i]? = some w ∧ w ∈ bits := by
  simp only [← testBit_codewordOn, ← Bool.eq_iff_iff]
  exact ⟨fun h i => by rw [h], fun h => (Nat.eq_of_testBit_eq h).symm⟩

theorem toDigits_eq_one_iff (n i : Nat) :
    ((Nat.toDigits 2 n).reverse.map fun c => if c == '1' then 1 else 0)[i]? = some 1 ↔ n.testBit i = true := by
  induction n using Nat.strongRecOn generalizing i with
  | ind n ih =>
    by_cases hn : n < 2
    · rw [Nat.toDigits_of_lt_base hn]
      obtain rfl | rfl : n = 0 ∨ n = 1 := by omega
      · cases i <;> simp [Nat.digitChar]
      · cases i <;> simp [Nat.digitChar, Nat.testBit_succ]
    · rw [Nat.toDigits_of_base_le (by decide) (by omega), reverse_append, reverse_singleton,
        singleton_append, map_cons]
      cases i with
      | zero =>
        rw [Nat.testBit_zero]
        rcases Nat.mod_two_eq_zero_or_one n with h | h <;> simp [h, Nat.digitChar]
      | succ i => rw [getElem?_cons_succ, ih (n / 2) (by omega), Nat.testBit_succ]

theorem lowBits_eq_one_iff (width n i : Nat) : (lowBits width n)[i]? = some 1 ↔ n.testBit i = true := by
  rw [lowBits, getElem?_append]
  split
  · exact toDigits_eq_one_iff n i
  · rename_i hi
    have hzero := (toDigits_eq_one_iff n i).not.1 (by rw [getElem?_eq_none (by omega)]; simp)
    simp [hzero, getElem?_replicate]

section
variable {e : HwEvent} {bits : List Int}

/-- The bits that a trigger with a codeword sets: the trigger bit, and those of the digits that are one. -/
theorem mem_bitsOf (h : bitsOf e = .ok bits) (hcw : e.codeword ≠ -1) : 0 ≤ e.codeword ∧
    ∀ b, b ∈ bits ↔ (e.triggerBit ≠ -1 ∧ b = e.triggerBit) ∨
      ∃ i, e.codewordBits[i]? = some b ∧ e.codeword.toNat.testBit i = true := by
  have h0 := triggerBit_of_bitsOf h
  have hpos : ¬e.codeword < 0 := by
    intro hneg
    simp [bitsOf, h0, hcw, hneg, bind, Except.bind] at h
  simp only [bitsOf, h0, hcw, hpos, if_false] at h
  replace h := Except.ok.inj h
  refine ⟨by omega, fun b => ?_⟩
  rw [← h, mem_append, mem_filterMap]
  refine or_congr (by split <;> simp_all) ⟨?_, ?_⟩
  · rintro ⟨⟨w, d⟩, hmem, hd⟩
    obtain ⟨i, hi⟩ := mem_iff_getElem?.1 hmem
    obtain ⟨hw, hdigit⟩ := getElem?_zip_eq_some.1 hi
    simp only [Option.ite_none_right_eq_some, Option.some.injEq] at hd
    exact ⟨i, hd.2 ▸ hw, (lowBits_eq_one_iff _ _ i).1 (hd.1 ▸ hdigit)⟩
  · rintro ⟨i, hw, hbit⟩
    have hdigit := (lowBits_eq_one_iff e.codewordBits.length _ i).2 hbit
    exact ⟨(b, 1), mem_of_getElem? (getElem?_zip_eq_some.2 ⟨hw, hdigit⟩), by simp⟩

/-- A codeword has no more digits than its channel has bits, and no bit of a digit that is zero is the trigger bit or a bit
of a digit that is one. -/
structure HwEvent.Carried (e : HwEvent) : Prop where
  fits : e.codeword < 2 ^ e.codewordBits.length
  free : ∀ i b, e.codewordBits[i]? = some b → e.codeword.toNat.testBit i = false →
    (e.triggerBit = -1 ∨ b ≠ e.triggerBit) ∧ ∀ j, e.codewordBits[j]? = some b → e.codeword.toNat.testBit j = false

theorem codewordOn_bitsOf (h : bitsOf e = .ok bits) (hcw : e.codeword ≠ -1) :
    codewordOn bits e.codewordBits = e.codeword ↔ e.Carried := by
  obtain ⟨hpos, hmem⟩ := mem_bitsOf h hcw
  have hcast : (codewordOn bits e.codewordBits : Int) = e.codeword ↔ codewordOn bits e.codewordBits = e.codeword.toNat := by
    omega
  have hfits : e.codeword < 2 ^ e.codewordBits.length ↔ e.codeword.toNat < 2 ^ e.codewordBits.length := by
    zify [Int.toNat_of_nonneg hpos]
  rw [hcast, codewordOn_eq_iff]
  constructor
  · intro hall
    refine ⟨hfits.2 (Nat.lt_pow_two_of_testBit _ fun i hi => ?_), fun i b hb hzero => ?_⟩
    · have := (hall i).not
      rw [getElem?_eq_none hi] at this
      simpa using this
    · have hunset : b ∉ bits := fun hset => by simpa [hzero] using (hall i).2 ⟨b, hb, hset⟩
      rw [hmem, not_or] at hunset
      exact ⟨by tauto, fun j hj => Bool.eq_false_iff.2 fun hone => hunset.2 ⟨j, hj, hone⟩⟩
  · rintro ⟨hlt, hfree⟩ i
    constructor
    · intro hone
      have hi : i < e.codewordBits.length := by
        by_contra hge
        rw [Nat.testBit_lt_two_pow (Nat.lt_of_lt_of_le (hfits.1 hlt) (Nat.pow_le_pow_right (by decide) (by omega)))] at hone
        cases hone
      have hb := getElem?_eq_getElem hi
      exact ⟨_, hb, (hmem _).2 (.inr ⟨i, hb, hone⟩)⟩
    · rintro ⟨b, hb, hset⟩
      by_contra hzero
      obtain ⟨htrigger, hothers⟩ := hfree i b hb (Bool.eq_false_iff.2 hzero)
      rcases (hmem b).1 hset with ⟨hne, rfl⟩ | ⟨j, hj, hone⟩
      · exact htrigger.elim hne fun h => h rfl
      · rw [hothers j hj] at hone
        cases hone

end

/-! ## Codewords of a program -/

theorem binaryDigits_inj {width : Nat} {m n : Int} (hm : 0 ≤ m) :
    Qumis.binaryDigits width m = Qumis.binaryDigits width n ↔ m = n := by
  refine ⟨fun h => ?_, fun h => by rw [h]⟩
  by_cases hn : n < 0
  · -- a sign is no digit
    have hdigit := (binaryDigits_isDigit width hm).2
    rw [h, Qumis.binaryDigits, if_pos hn] at hdigit
    exact absurd (hdigit '-' mem_cons_self) (by decide)
  · have hread {k : Int} (hk : ¬k < 0) : Qumis.maskNumber (Qumis.binaryDigits width k) = k := by
      rw [Qumis.binaryDigits, if_neg hk, Qumis.maskNumber_zeroPad, Qumis.maskNumber_toDigits]
      omega
    rw [← hread (k := m) (by omega), h, hread hn]

/-- Events that are no triggers reach the final grid of a program. -/
theorem Stages.mem_final_of_ne_trigger {cfg : Config} {loop : Bool} {lines : List (List SourceOp)} {c : Compilation}
    (hst : Stages cfg loop lines c) {x : Int × HwEvent} (hx : x ∈ timed c.converted) (hn : x.2.name ≠ "trigger") :
    (x.1 + shiftOf c.divided, x.2) ∈ timed c.final := by
  obtain ⟨conv, e, hconv, -⟩ := hst.converted_last
  obtain ⟨front₁, front₂, out, hstaged, hcoded, hout, hdiv⟩ := hst.fronts hconv
  obtain ⟨Q, hQ, -, hkept⟩ := divideRest_cuts countersOk_start Built.nil hout
  have h₁ : x ∈ timed front₁ := by
    refine hstaged.mem_iff.2 (mem_flatMap.2 ⟨x, hx, ?_⟩)
    rw [stagesOf, if_neg hn]
    exact mem_singleton_self x
  have h₂ : x ∈ timed front₂ := by
    refine hcoded.events.mem_iff.2 (mem_flatMap.2 ⟨x, ?_, ?_⟩)
    · rw [timed_append]
      exact mem_append_left _ h₁
    · rw [codedOf, if_neg hn]
      exact mem_singleton_self x
  have h₃ : x ∈ timed out := hQ.events.mem_iff.2 (hkept x (by rw [timed_append]; exact mem_append_left _ h₂) hn)
  rw [hst.final, timed_shiftBy, hdiv, timed_append]
  exact mem_map_of_mem (mem_append_left _ h₃)

/-- **Where codewords can be read back.** For each pulse there is a point of the final grid, and the field of its generator
shows three digits of the last pulse on that generator; they are the digits of its codeword exactly if that is the rest of
the last one modulo eight. The bits that are set for a trigger with a codeword show it exactly if it is carried. Nothing
else is asked of codewords than that those of triggers are not negative. -/
theorem compileWith_codewords {s : Session} {cfg : Config} {loop : Bool} {text : String} {c : Compilation}
    (h : (s.compileWith cfg loop text).2 = .ok c) :
    (∃ delay, 0 ≤ delay ∧ ∀ x ∈ timed c.converted, x.2.name = "pulse" →
      ∃ p ∈ c.final, p.time = x.1 + shiftOf c.divided ∧ x.2 ∈ p.events ∧
        ∃ i cw, position? 3 x.2.awg = some i ∧ lastCodeword? i p.events = some cw ∧
          ShowsField (itemsOf c.assembly) (p.time + delay) i (Qumis.twosComplement 3 cw) ∧
          (Qumis.twosComplement 3 cw = Qumis.binaryDigits 3 x.2.codeword ↔ cw % 8 = x.2.codeword)) ∧
    ∀ x ∈ timed c.staged, x.2.name = "trigger" → x.2.codeword ≠ -1 →
      0 ≤ x.2.codeword ∧ ∃ bits, bitsOf x.2 = .ok bits ∧
        (bits ≠ [] → ∃ y, (x.1, y) ∈ timed c.coded ∧ y.setBits = bits ∧ y.duration = x.2.duration) ∧
        (codewordOn bits x.2.codewordBits = x.2.codeword ↔ x.2.Carried) := by
  obtain ⟨hst, -⟩ := compileWith_stages h
  obtain ⟨delay, hdelay, hr⟩ := emit_rendering hst.assembly
  rw [← hst.final] at hr
  refine ⟨⟨delay, hdelay, fun x hx hn => ?_⟩, fun x hx hn hcw => ?_⟩
  · obtain ⟨p, hp, ht, hxp⟩ := mem_timed.1 (hst.mem_final_of_ne_trigger hx (by rw [hn]; decide))
    obtain ⟨here, hhere⟩ := hr.texts p hp
    obtain ⟨_, -, hpulses, -⟩ := pointText_pulse hhere
    obtain ⟨i, _, hi, -⟩ := hpulses x.2 hxp hn
    obtain ⟨cw, hcw⟩ := lastCodeword?_isSome hxp hn hi
    refine ⟨p, hp, ht, hxp, i, cw, hi, hcw, hr.showsField hp (position?_lt hi) hcw, ?_⟩
    exact binaryDigits_inj (Int.emod_nonneg cw (by decide))
  · obtain ⟨bits, hbits⟩ := bitsOf_of_applyCodewords hst.coded (mem_events_iff.2 ⟨x.1, hx⟩) hn
    refine ⟨(mem_bitsOf hbits hcw).1, bits, hbits, fun hne => ?_, codewordOn_bitsOf hbits hcw⟩
    obtain ⟨front, hfront, hbuilt⟩ := applyCodewords_built hst.coded
    obtain ⟨b, bs, rfl⟩ := exists_cons_of_ne_nil hne
    have hmem : (x.1, { x.2 with setBits := b :: bs, triggerBit := -1, codeword := -1, codewordBits := [] }) ∈ timed c.coded := by
      rw [hfront, timed_append]
      refine mem_append_left _ (hbuilt.events.mem_iff.2 (mem_flatMap.2 ⟨x, hx, ?_⟩))
      rw [codedOf, if_pos hn, hbits, if_neg hcw]
      exact mem_singleton_self _
    exact ⟨_, hmem, rfl, rfl⟩

theorem compileWith_codewords_readout :
    ∃ c delay, (Session.compileWith {} codedReadout true "x a | x b\nro a | ro b").2 = .ok c ∧
      (timed c.staged).map (fun x => (x.1, x.2.name, x.2.codeword)) =
        [(-3, "pulse", 1), (0, "pulse", 1), (2, "trigger", 2), (4, "trigger", -1), (4, "trigger", 2)] ∧
      (∀ x ∈ timed c.converted, x.2.name = "pulse" → ∃ i, position? 3 x.2.awg = some i ∧
        ShowsField (itemsOf c.assembly) (x.1 + shiftOf c.divided + delay) i (Qumis.binaryDigits 3 x.2.codeword)) ∧
      ∀ x ∈ timed c.staged, x.2.name = "trigger" → x.2.codeword ≠ -1 → x.2.Carried := by
  have hrun : (Session.compileWith {} codedReadout true "x a | x b\nro a | ro b").2.map (fun c =>
      ((timed c.staged).map (fun x => (x.1, x.2.name, x.2.codeword)),
        decide (∀ x ∈ timed c.converted, x.2.name = "pulse" → ∀ p ∈ c.final, ∀ i ∈ [0, 1, 2],
          ∀ cw ∈ lastCodeword? i p.events, cw % 8 = x.2.codeword),
        decide (∀ x ∈ timed c.staged, x.2.name = "trigger" → x.2.codeword ≠ -1 →
          (bitsOf x.2).toOption.map (fun bits => (codewordOn bits x.2.codewordBits : Int)) = some x.2.codeword))) =
      .ok ([(-3, "pulse", 1), (0, "pulse", 1), (2, "trigger", 2), (4, "trigger", -1), (4, "trigger", 2)], true, true) := by
    decide +kernel
  obtain ⟨c, hc, hshown⟩ := map_eq_ok.1 hrun
  obtain ⟨hstaged, hshown⟩ := Prod.mk.inj hshown
  obtain ⟨hlast, hread⟩ := Prod.mk.inj hshown
  obtain ⟨⟨delay, -, hpulses⟩, htriggers⟩ := compileWith_codewords hc
  refine ⟨c, delay, hc, hstaged, fun x hx hn => ?_, fun x hx hn hcw => ?_⟩
  · obtain ⟨p, hp, ht, -, i, cw, hi, hcw, hshows, hiff⟩ := hpulses x hx hn
    have hi3 : i ∈ [0, 1, 2] := by
      have := position?_lt hi
      simp only [mem_cons, not_mem_nil, or_false]
      omega
    rw [ht, hiff.2 (of_decide_eq_true hlast x hx hn p hp i hi3 cw hcw)] at hshows
    exact ⟨i, hi, hshows⟩
  · obtain ⟨-, bits, hbits, -, hiff⟩ := htriggers x hx hn hcw
    have := of_decide_eq_true hread x hx hn hcw
    rw [hbits] at this
    exact hiff.1 (Option.some.inj this)

/-- Codewords with too many digits are cut: nine is shown as one in a field, and four sets no bit of two. -/
theorem compileWith_cutCodewords :
    let coded (cw : Int) : Config := { codedReadout with tables := .ok [.ok [("x", .ok cw), ("ro", .ok cw)]] }
    (Session.compileWith {} (coded 9) true "x a").2.map (·.assembly) =
      .ok (["wait 1"] ++ loopHead ++ ["pulse 1001, 0000, 0000", "wait 4"] ++ loopTail) ∧
    (Session.compileWith {} (coded 4) true "ro b").2.map (fun c =>
      ((timed c.staged).map (fun x => (x.2.codeword, x.2.codewordBits)), (timed c.coded).map (·.2.setBits))) =
      .ok ([(4, [3, 4]), (4, [3, 4])], [[2]]) := by
  decide +kernel

end QubitLab.Qasm
