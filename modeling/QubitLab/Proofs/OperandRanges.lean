import QubitLab.Proofs.InstructionWords
import QubitLab.Proofs.ZeroWaits

/-!
# Operands that are refused

`Checked` says what is asked of the operands of an instruction, and exactly those instructions have a word (`word_iff`).
Registers, byte positions, trigger masks and durations are held to their fields. An immediate is taken modulo `2 ^ 15`, a
byte is only not negative, and the fields of a pulse are pasted as they are written; where these fit, the word has 32 bits
(`word_lt`).

The passes change operands before any check: `mov` is cut to bytes, long waits are split and neighbouring waits added. So a
wait of negative length is refused if no other wait is beside it (`Lone`), and may vanish in a sum otherwise. Together this
is `assemble_admitted`.
-/

namespace QubitLab.Qumis

open List

/-! ## Digits in a row -/

/-- A binary digit, or an underscore between digits. -/
def BinaryMark (c : Char) : Prop := c = '_' ∨ ∃ d, Decimal.digitValue? c = some d ∧ d < 2

variable {k : Nat} {n m : Int} {b r a : Operand} {x w : Item} {name : String} {xs final ys : List Item}

theorem readDigits?_marks {acc : Nat} {b : Bool} {cs : List Char} (h : Decimal.readDigits? 2 acc b cs = some k) :
    ∀ c ∈ cs, BinaryMark c := by
  induction cs generalizing acc b with
  | nil => simp
  | cons c cs ih =>
    by_cases hc : c = '_'
    · subst hc
      rw [Decimal.readDigits?] at h
      split at h
      · exact forall_mem_cons.2 ⟨.inl rfl, ih h⟩
      · cases h
    · obtain ⟨d, hd, hlt, h⟩ := Decimal.readDigits?_digit hc h
      exact forall_mem_cons.2 ⟨.inr ⟨d, hd, hlt⟩, ih h⟩

/-- Between binary digits stand no signs, no base marks and no blanks. -/
theorem readInt?_marks (front mid : List Char) {z : Char} (hfront : Binary front) (htwo : 2 ≤ front.length)
    (hz : Binary [z]) (h : Decimal.readInt? 2 (front ++ (mid ++ [z])) = some n) : ∀ c ∈ mid, BinaryMark c := by
  obtain ⟨c, d, r, rfl⟩ : ∃ c d r, front = c :: d :: r := by
    rcases front with _ | ⟨c, _ | ⟨d, r⟩⟩
    · simp at htwo
    · simp at htwo
    · exact ⟨c, d, r, rfl⟩
  have hblank {c : Char} (hc : c = '0' ∨ c = '1') : Chars.isBlank c = false := by rcases hc with rfl | rfl <;> decide
  have hc : c = '0' ∨ c = '1' := hfront c (by simp)
  have hd : d = '0' ∨ d = '1' := hfront d (by simp)
  rw [cons_append, cons_append] at h
  generalize hr : r ++ (mid ++ [z]) = r' at h
  have hsign : Decimal.takeSign (c :: d :: r') = (false, c :: d :: r') := by
    rcases hc with rfl | rfl <;> rfl
  have hmark : Decimal.dropBaseMark 2 (c :: d :: r') = c :: d :: r' := by
    rcases hc with rfl | rfl <;> rcases hd with rfl | rfl <;> rfl
  have htrim : Chars.trim (c :: d :: r') = c :: d :: r' := by
    refine Decimal.trimBy_eq_self (fun x hx => ?_) fun x hx => hblank (hz x ?_)
    · cases hx
      exact hblank hc
    · rw [← hr, ← append_assoc, ← cons_append, ← cons_append, getLast?_concat] at hx
      cases hx
      exact mem_singleton_self z
  simp only [Decimal.readInt?, htrim, hsign, hmark, Option.map_eq_some_iff] at h
  obtain ⟨_, hk, -⟩ := h
  obtain ⟨k, hk, -⟩ := Option.bind_eq_some_iff.1 hk
  exact fun x hx => readDigits?_marks hk x (by simp [← hr, hx])

theorem binaryDigits_negative (width : Nat) (hn : n < 0) :
    ∃ ds z, binaryDigits width n = '-' :: ds ++ [z] ∧ Binary [z] := by
  have hbinary : Binary (Decimal.zeroPad (width - 1) (Nat.toDigits 2 n.natAbs)) :=
    Binary.append (fun c hc => .inl (eq_of_mem_replicate hc)) (toDigits_binary _)
  rw [binaryDigits, if_pos hn]
  rcases eq_nil_or_concat (Decimal.zeroPad (width - 1) (Nat.toDigits 2 n.natAbs)) with hnil | ⟨ds, z, hds⟩
  · exact absurd (append_eq_nil_iff.1 hnil).2 Nat.toDigits_ne_nil
  · rw [hds, concat_eq_append] at hbinary ⊢
    exact ⟨ds, z, rfl, fun c hc => hbinary c (mem_append_right ds hc)⟩

theorem maskNumber_lt (ds : List Char) : 0 ≤ maskNumber ds ∧ maskNumber ds < 2 ^ ds.length := by
  induction ds with
  | nil => decide
  | cons c ds ih =>
    have hc : maskNumber [c] = 0 ∨ maskNumber [c] = 1 := by
      simp only [maskNumber, foldl_cons, foldl_nil]
      split <;> simp
    rw [← singleton_append, maskNumber_append, length_append, length_singleton, Int.pow_add]
    rcases hc with hc | hc <;> rw [hc] <;> omega

/-! ## What is asked of operands -/

def IsRegister (op : Operand) : Prop := ∃ s k, op = .word s ∧ registerNumber s = .ok k ∧ 0 ≤ k ∧ k ≤ 15

/-- The digits of a pulse. -/
def pulseDigits (a b c : String) : List Char :=
  "000000001".toList ++ a.toList ++ b.toList ++ c.toList ++ "00000000001".toList

/-- What is asked of the operands of an instruction. -/
inductive Checked (cfg : Settings) (name : String) : List Operand → Prop
  | arithmetic {d a b : Operand} (hname : name = "add" ∨ name = "sub") (hd : IsRegister d) (ha : IsRegister a)
      (hb : IsRegister b) : Checked cfg name [d, a, b]
  | branch {a b off : Operand} {n : Int} (hname : name = "beq" ∨ name = "bne") (ha : IsRegister a) (hb : IsRegister b)
      (hn : off.int? = some n) : Checked cfg name [a, b, off]
  | addImmediate {d a imm : Operand} {n : Int} (hname : name = "addi") (hd : IsRegister d) (ha : IsRegister a)
      (hn : imm.int? = some n) : Checked cfg name [d, a, imm]
  | loadByte {r place byte : Operand} {p n : Int} (hname : name = "lui") (hr : IsRegister r)
      (hp : place.int? = some p ∧ 0 ≤ p ∧ p ≤ 3) (hn : byte.int? = some n ∧ 0 ≤ n) : Checked cfg name [r, place, byte]
  | waitRegister {r : Operand} (hname : name = "waitreg") (hr : IsRegister r) : Checked cfg name [r]
  | pulse {a b c : String} {n : Int} (hname : name = "pulse") (hn : Decimal.readInt? 2 (pulseDigits a b c) = some n)
      (hmarks : ∀ ch ∈ a.toList ++ b.toList ++ c.toList, BinaryMark ch) : Checked cfg name [.word a, .word b, .word c]
  | wait {op : Operand} {n : Int} (hname : name = "wait") (hn : op.int? = some n ∧ cfg.minWait ≤ n ∧ n ≤ cfg.maxWait) :
      Checked cfg name [op]
  | trigger {mask : String} {op : Operand} {n : Int} (hname : name = "trigger")
      (hmask : mask.length = 7 ∧ Binary mask.toList) (hn : op.int? = some n ∧ 0 ≤ n ∧ n ≤ 2047) :
      Checked cfg name [.word mask, op]
  | constant (hname : name = "measure" ∨ name = "nop") : Checked cfg name []

/-- The operands that nothing checks fit into their fields. -/
def Item.narrow (x : Item) : Prop :=
  (x.name = "lui" → ∀ n, x.operands[2]?.bind Operand.int? = some n → n ≤ 255) ∧
  (x.name = "pulse" → ∀ op ∈ x.operands, op.text.length = 4 ∧ Binary op.text.toList)

section
variable {cfg : Settings} {op : Operand} {lead : String} {ops : List Operand} {ds : List Char}

theorem ticks?_iff : x.ticks? = .ok n ↔ ∃ op rest, x.operands = op :: rest ∧ op.int? = some n := by
  rw [Item.ticks?]
  cases x.operands with
  | nil => simp
  | cons op rest => cases hop : op.int? <;> simp [hop]

theorem withLead_eq_ok {α : Type} {r : Except OperandError α} {a : α} : withLead lead r = .ok a ↔ r = .ok a := by
  cases r <;> simp [withLead]

theorem int?_of_operandInt (h : operandInt op = .ok n) : op.int? = some n := by
  cases op with
  | number m =>
    cases h
    rfl
  | word s =>
    rw [operandInt] at h
    split at h
    · cases h
      assumption
    · cases h

theorem int?_of_immediate (h : immediate op = .ok n) : op.int? = some n := by
  cases op with
  | number m =>
    cases h
    rfl
  | word s =>
    rw [immediate] at h
    split at h
    · exact int?_of_operandInt h
    · cases h

theorem int?_of_bytePosition (h : bytePosition op = .ok n) : op.int? = some n ∧ 0 ≤ n ∧ n ≤ 3 := by
  have hrange {k : Int} (hk : op.int? = some k) (h : (if k < 0 ∨ k > 3 then .error .positionRange else .ok k) =
      (.ok n : Except OperandError Int)) : op.int? = some n ∧ 0 ≤ n ∧ n ≤ 3 := by
    split at h
    · cases h
    · cases h
      exact ⟨hk, by omega, by omega⟩
  cases op with
  | number m => exact hrange rfl h
  | word s =>
    rw [bytePosition] at h
    split at h
    · cases h
    · obtain ⟨k, hk, h⟩ := bind_eq_ok.1 h
      exact hrange (int?_of_operandInt hk) h

theorem isRegister_of_field (h : registerField lead op = .ok ds) : IsRegister op := by
  cases op with
  | number m => cases h
  | word s =>
    rw [registerField] at h
    obtain ⟨k, hk, -⟩ := map_eq_ok.1 h
    have hk := withLead_eq_ok.1 hk
    exact ⟨s, k, rfl, hk, registerNumber_range hk⟩

theorem IsRegister.field (h : IsRegister op) (lead : String) : ∃ ds k, registerField lead op = .ok ds ∧ Spells ds 4 k := by
  obtain ⟨s, k, rfl, hk, h0, h15⟩ := h
  obtain ⟨j, rfl⟩ := Int.eq_ofNat_of_zero_le h0
  exact ⟨_, j, (registerField_ok hk lead).1, spells_binaryDigits (by decide) (by omega)⟩

/-! ## From words to checks -/

theorem arithmetic_of_encode {f : String} (h : encodeArithmetic lead f ops = .ok ds)
    (hname : name = "add" ∨ name = "sub") : Checked cfg name ops := by
  unfold encodeArithmetic at h
  split at h
  · obtain ⟨rd, hrd, h⟩ := bind_eq_ok.1 h
    obtain ⟨rs, hrs, h⟩ := bind_eq_ok.1 h
    obtain ⟨rt, hrt, -⟩ := bind_eq_ok.1 h
    exact .arithmetic hname (isRegister_of_field hrd) (isRegister_of_field hrs) (isRegister_of_field hrt)
  · cases h

theorem branch_of_encode {code : String} (h : encodeBranch lead code ops = .ok ds)
    (hname : name = "beq" ∨ name = "bne") : Checked cfg name ops := by
  unfold encodeBranch at h
  split at h
  · obtain ⟨rs, hrs, h⟩ := bind_eq_ok.1 h
    obtain ⟨rt, hrt, h⟩ := bind_eq_ok.1 h
    obtain ⟨n, hn, -⟩ := bind_eq_ok.1 h
    exact .branch hname (isRegister_of_field hrs) (isRegister_of_field hrt) (int?_of_immediate (withLead_eq_ok.1 hn))
  · cases h

theorem addImmediate_of_encode (h : encodeAddImmediate ops = .ok ds) : Checked cfg "addi" ops := by
  unfold encodeAddImmediate at h
  split at h
  · obtain ⟨rs, hrs, h⟩ := bind_eq_ok.1 h
    obtain ⟨rt, hrt, h⟩ := bind_eq_ok.1 h
    obtain ⟨n, hn, -⟩ := bind_eq_ok.1 h
    exact .addImmediate rfl (isRegister_of_field hrt) (isRegister_of_field hrs) (int?_of_immediate (withLead_eq_ok.1 hn))
  · cases h

theorem loadByte_of_encode (h : encodeLoadByte ops = .ok ds) {w : Int} (hw : Decimal.readInt? 2 ds = some w) :
    Checked cfg "lui" ops := by
  unfold encodeLoadByte at h
  split at h
  · obtain ⟨rt, hrt, h⟩ := bind_eq_ok.1 h
    obtain ⟨p, hp, h⟩ := bind_eq_ok.1 h
    obtain ⟨n, hn, h⟩ := bind_eq_ok.1 h
    cases h
    refine .loadByte rfl (isRegister_of_field hrt) (int?_of_bytePosition (withLead_eq_ok.1 hp))
      ⟨int?_of_operandInt (withLead_eq_ok.1 hn), ?_⟩
    by_contra hneg
    obtain ⟨low, z, hlow, hz⟩ := binaryDigits_negative 8 (show n < 0 by omega)
    simp only [hlow, append_assoc] at hw
    have hmarks := readInt?_marks "001111100".toList
      (rt ++ rt ++ binaryDigits 4 (Nat.pow 2 p.toNat) ++ "000".toList ++ '-' :: low) (by decide) (by decide) hz
      (by simpa only [append_assoc] using hw) '-' (by simp)
    rcases hmarks with hc | ⟨d, hd, -⟩
    · cases hc
    · simp [Decimal.digitValue?, Chars.digit?] at hd
  · cases h

theorem waitRegister_of_encode (h : encodeWaitRegister ops = .ok ds) : Checked cfg "waitreg" ops := by
  unfold encodeWaitRegister at h
  split at h
  · obtain ⟨rs, hrs, -⟩ := bind_eq_ok.1 h
    exact .waitRegister rfl (isRegister_of_field hrs)
  · cases h

theorem pulse_of_encode (h : encodePulse ops = .ok ds) {w : Int} (hw : Decimal.readInt? 2 ds = some w) :
    Checked cfg "pulse" ops := by
  unfold encodePulse at h
  split at h
  · rename_i a b c
    cases h
    refine .pulse rfl hw fun x hx => ?_
    have hdigits : "00000000001".toList = "0000000000".toList ++ ['1'] := by decide
    simp only [hdigits, append_assoc] at hw
    exact readInt?_marks "000000001".toList (a.toList ++ b.toList ++ c.toList ++ "0000000000".toList) (by decide) (by decide)
      (z := '1') (by decide) (by simpa only [append_assoc] using hw) x (mem_append_left _ hx)
  · cases h
  · cases h

theorem wait_of_encode (h : encodeWait cfg ops = .ok ds) : Checked cfg "wait" ops := by
  unfold encodeWait at h
  split at h
  · split at h
    · cases h
    · split at h
      · cases h
      · exact .wait rfl ⟨‹_›, by omega, by omega⟩
  · cases h

theorem trigger_of_encode (h : encodeTrigger ops = .ok ds) : Checked cfg "trigger" ops := by
  unfold encodeTrigger at h
  split at h
  · rename_i mask dur
    split at h
    · cases h
    · split at h
      · cases h
      · rename_i hlength hdigits
        split at h
        · cases h
        · split at h
          · cases h
          · refine .trigger rfl ⟨not_not.1 hlength, fun c hc => ?_⟩ ⟨‹_›, by omega, by omega⟩
            have := any_eq_false.1 (Bool.eq_false_iff.2 hdigits) c hc
            by_contra hne
            simp_all
  · cases h
  · cases h

theorem constant_of_encode {digits : String} (h : encodeConstant digits ops = .ok ds)
    (hname : name = "measure" ∨ name = "nop") : Checked cfg name ops := by
  unfold encodeConstant at h
  split at h
  · rename_i hnil
    obtain rfl := List.isEmpty_iff.1 hnil
    exact .constant hname
  · cases h

theorem checked_of_word {w : Int} (h : wordOf cfg x = .ok w) : Checked cfg x.name x.operands := by
  obtain ⟨ds, hds, h⟩ := bind_eq_ok.1 h
  split at h
  · rename_i k hk
    generalize x.name = name at hds ⊢
    unfold encode at hds
    split at hds
    · exact arithmetic_of_encode hds (.inl rfl)
    · exact arithmetic_of_encode hds (.inr rfl)
    · exact branch_of_encode hds (.inl rfl)
    · exact branch_of_encode hds (.inr rfl)
    · exact addImmediate_of_encode hds
    · exact loadByte_of_encode hds hk
    · exact waitRegister_of_encode hds
    · exact pulse_of_encode hds hk
    · exact constant_of_encode hds (.inl rfl)
    · exact wait_of_encode hds
    · exact trigger_of_encode hds
    · exact constant_of_encode hds (.inr rfl)
    · cases hds
  · cases h

/-! ## From checks to words -/

theorem Binary.spells (h : Binary ds) : Spells ds ds.length (maskNumber ds).toNat :=
  ⟨h, rfl, (Int.toNat_of_nonneg (maskNumber_lt ds).1).symm⟩

theorem word_of_spells (h : encode cfg x.name x.operands = .ok ds) (hs : Spells ds 32 k) :
    ∃ w, wordOf cfg x = .ok w ∧ 0 ≤ w ∧ w < 2 ^ 32 := by
  refine ⟨k, wordOf_of_spells h hs rfl, Int.natCast_nonneg k, ?_⟩
  have := (maskNumber_lt ds).2
  rwa [hs.value, hs.length] at this

theorem spells_twosComplement_some (width : Nat) (hw : 0 < width) (n : Int) : ∃ k, Spells (twosComplement width n) width k := by
  have h := (twosComplement_binary width n).spells
  rw [(twosComplement_spec hw n).1] at h
  exact ⟨_, h⟩

theorem encodeArithmetic_spells (lead : String) {f : String} (hf : Spells f.toList 6 k) {d : Operand}
    (hd : IsRegister d) (ha : IsRegister a) (hb : IsRegister b) :
    ∃ ds k, encodeArithmetic lead f [d, a, b] = .ok ds ∧ Spells ds 32 k := by
  obtain ⟨rd, _, hrd, hd⟩ := hd.field lead
  obtain ⟨rs, _, hrs, ha⟩ := ha.field lead
  obtain ⟨rt, _, hrt, hb⟩ := hb.field lead
  have hlead : Spells "000000100".toList 9 0b100 := ⟨by decide, rfl, rfl⟩
  have hzeros : Spells "00000".toList 5 0 := ⟨by decide, rfl, rfl⟩
  exact ⟨_, _, by rw [encodeArithmetic, hrd, hrs, hrt]; rfl,
    ((((hlead.append ha).append hb).append hd).append hzeros).append hf⟩

theorem encodeBranch_spells (lead : String) {c : String} (hk : Spells c.toList 6 k) {off : Operand}
    (ha : IsRegister a) (hb : IsRegister b) (hn : off.int? = some n) :
    ∃ ds k, encodeBranch lead c [a, b, off] = .ok ds ∧ Spells ds 32 k := by
  obtain ⟨rs, _, hrs, ha⟩ := ha.field lead
  obtain ⟨rt, _, hrt, hb⟩ := hb.field lead
  obtain ⟨_, hoff⟩ := spells_twosComplement_some 15 (by decide) n
  have hunit : Spells "100".toList 3 0b100 := ⟨by decide, rfl, rfl⟩
  exact ⟨_, _, by rw [encodeBranch, hrs, hrt, (immediate_eq hn).1]; rfl, (((hk.append hunit).append ha).append hb).append hoff⟩

theorem encodeAddImmediate_spells {d imm : Operand} (hd : IsRegister d) (ha : IsRegister a)
    (hn : imm.int? = some n) : ∃ ds k, encodeAddImmediate [d, a, imm] = .ok ds ∧ Spells ds 32 k := by
  obtain ⟨rs, _, hrs, ha⟩ := ha.field "Addi instruction format error: "
  obtain ⟨rt, _, hrt, hd⟩ := hd.field "Addi instruction format error: "
  obtain ⟨_, himm⟩ := spells_twosComplement_some 15 (by decide) n
  have hlead : Spells "001000100".toList 9 0b001000100 := ⟨by decide, rfl, rfl⟩
  exact ⟨_, _, by rw [encodeAddImmediate, hrs, hrt, (immediate_eq hn).1]; rfl, ((hlead.append ha).append hd).append himm⟩

theorem encodeWaitRegister_spells (hr : IsRegister r) : ∃ ds k, encodeWaitRegister [r] = .ok ds ∧ Spells ds 32 k := by
  obtain ⟨rs, _, hrs, hr⟩ := hr.field "WaitReg instruction format error: "
  have hlead : Spells "000000001".toList 9 0b001 := ⟨by decide, rfl, rfl⟩
  have hrest : Spells "0000000000000010000".toList 19 0b010000 := ⟨by decide, rfl, rfl⟩
  exact ⟨_, _, by rw [encodeWaitRegister, hrs]; rfl, (hlead.append hr).append hrest⟩

theorem encodeWait_spells {op : Operand} (hint : op.int? = some n) (hmin : cfg.minWait ≤ n) (hmax : n ≤ cfg.maxWait) :
    ∃ ds k, encodeWait cfg [op] = .ok ds ∧ Spells ds 32 k := by
  have hrange : ¬(n < cfg.minWait ∨ n > cfg.maxWait) := by omega
  have hlead : Spells "11000000100000000".toList 17 (0b110000001 * 2 ^ 8) := ⟨by decide, rfl, rfl⟩
  obtain ⟨_, hticks⟩ := spells_twosComplement_some 15 (by decide) n
  refine ⟨_, _, ?_, hlead.append hticks⟩
  simp only [encodeWait, hint, if_neg hrange]
  cases op with
  | number m => rfl
  | word s => simp only [isNumberWord_of_int hint, if_true]

theorem encodeTrigger_spells {mask : String} {op : Operand} (hlength : mask.length = 7) (hmask : Binary mask.toList)
    (hint : op.int? = some n) (hn : 0 ≤ n ∧ n ≤ 2047) : ∃ ds k, encodeTrigger [.word mask, op] = .ok ds ∧ Spells ds 32 k := by
  have hdigits : mask.toList.any (fun c => c != '0' && c != '1') = false := by
    rw [any_eq_false]
    intro c hc
    rcases hmask c hc with rfl | rfl <;> decide
  have hrange : ¬(n < 0 ∨ n > 2047) := by omega
  have hlead : Spells "10100000100000".toList 14 (0b101000001 * 2 ^ 5) := ⟨by decide, rfl, rfl⟩
  have hreverse : Binary mask.toList.reverse := fun c hc => hmask c (mem_reverse.1 hc)
  have hduration : Binary ((twosComplement 12 n).drop 1) := fun c hc => twosComplement_binary 12 n c (mem_of_mem_drop hc)
  have hs := (hlead.append hreverse.spells).append hduration.spells
  rw [length_reverse, String.length_toList, hlength, length_drop, (twosComplement_spec (by decide) n).1] at hs
  exact ⟨_, _, by simp only [encodeTrigger, hlength, hdigits, hint, if_neg hrange]; rfl, hs⟩

theorem loadByte_word (l : String) {place byte : Operand} {p : Int} (hr : IsRegister r)
    (hp : place.int? = some p ∧ 0 ≤ p ∧ p ≤ 3) (hn : byte.int? = some n ∧ 0 ≤ n) :
    ∃ w, wordOf cfg ⟨l, "lui", [r, place, byte]⟩ = .ok w ∧
      ((⟨l, "lui", [r, place, byte]⟩ : Item).narrow → 0 ≤ w ∧ w < 2 ^ 32) := by
  obtain ⟨q, rfl⟩ : ∃ q : Fin 4, p = (q.val : Int) := ⟨⟨p.toNat, by omega⟩, by simp only; omega⟩
  obtain ⟨m, rfl⟩ := Int.eq_ofNat_of_zero_le hn.2
  obtain ⟨rt, _, hrt, hr⟩ := hr.field "Lui instruction format error:"
  have hplace : 2 ^ q.val ≤ 2 ^ 3 := Nat.pow_le_pow_right (by decide) (by omega)
  have hencode : encode cfg (⟨l, "lui", [r, place, byte]⟩ : Item).name [r, place, byte] =
      .ok ("001111100".toList ++ rt ++ rt ++ binaryDigits 4 (2 ^ q.val : Nat) ++ "000".toList ++ binaryDigits 8 m) := by
    rw [encode, encodeLoadByte, hrt, bytePosition_eq hp.1, (immediate_eq hn.1).2]
    rfl
  have hlead : Spells "001111100".toList 9 0b001111100 := ⟨by decide, rfl, rfl⟩
  have hzeros : Spells "000".toList 3 0 := ⟨by decide, rfl, rfl⟩
  have hfront := (((hlead.append hr).append hr).append
    (spells_binaryDigits (w := 4) (by decide) (show 2 ^ q.val < 2 ^ 4 by omega))).append hzeros
  -- a wide byte has more digits, and pushes those in front of it beyond the word
  obtain ⟨w, hw⟩ := wordOf_ok _ hencode (by simp) (hfront.binary.append (binaryDigits_binary (Int.natCast_nonneg m)))
  refine ⟨w, hw, fun hnarrow => ?_⟩
  have hbyte : (m : Int) ≤ 255 := hnarrow.1 rfl m hn.1
  obtain ⟨w', hw', hlt⟩ := word_of_spells hencode
    (hfront.append (spells_binaryDigits (w := 8) (by decide) (show m < 2 ^ 8 by omega)))
  cases hw.symm.trans hw'
  exact hlt

theorem pulse_word_lt (l : String) {a b c : String} (hn : Decimal.readInt? 2 (pulseDigits a b c) = some n) :
    ∃ w, wordOf cfg ⟨l, "pulse", [.word a, .word b, .word c]⟩ = .ok w ∧
      ((⟨l, "pulse", [.word a, .word b, .word c]⟩ : Item).narrow → 0 ≤ w ∧ w < 2 ^ 32) := by
  have hencode : encode cfg (⟨l, "pulse", [.word a, .word b, .word c]⟩ : Item).name [.word a, .word b, .word c] =
      .ok (pulseDigits a b c) := rfl
  have hw : wordOf cfg ⟨l, "pulse", [.word a, .word b, .word c]⟩ = .ok n := by
    rw [wordOf, hencode]
    simp only [bind, Except.bind, hn]
  refine ⟨n, hw, fun hnarrow => ?_⟩
  have hfield {s : String} (hs : .word s ∈ [Operand.word a, .word b, .word c]) : ∃ k, Spells s.toList 4 k := by
    obtain ⟨hlength, hbinary⟩ := hnarrow.2 rfl _ hs
    have hspells := Binary.spells hbinary
    rw [String.length_toList, hlength] at hspells
    exact ⟨_, hspells⟩
  obtain ⟨_, ha⟩ := hfield (s := a) (by simp)
  obtain ⟨_, hb⟩ := hfield (s := b) (by simp)
  obtain ⟨_, hc⟩ := hfield (s := c) (by simp)
  have hlead : Spells "000000001".toList 9 0b001 := ⟨by decide, rfl, rfl⟩
  have hrest : Spells "00000000001".toList 11 0b000001 := ⟨by decide, rfl, rfl⟩
  obtain ⟨w', hw', hlt⟩ := word_of_spells hencode ((((hlead.append ha).append hb).append hc).append hrest)
  cases hw.symm.trans hw'
  exact hlt

theorem Checked.word (h : Checked cfg x.name x.operands) :
    ∃ w, wordOf cfg x = .ok w ∧ (x.narrow → 0 ≤ w ∧ w < 2 ^ 32) := by
  have narrow {k : Nat} {ds : List Char} (h : encode cfg x.name x.operands = .ok ds) (hs : Spells ds 32 k) :
      ∃ w, wordOf cfg x = .ok w ∧ (x.narrow → 0 ≤ w ∧ w < 2 ^ 32) := by
    obtain ⟨w, hw, hlt⟩ := word_of_spells h hs
    exact ⟨w, hw, fun _ => hlt⟩
  obtain ⟨l, name, ops⟩ := x
  cases h with
  | arithmetic hname hd ha hb =>
    rcases hname with rfl | rfl
    · obtain ⟨ds, k, hds, hs⟩ := encodeArithmetic_spells "Add instruction format error: " (f := "100000") ⟨by decide, rfl, rfl⟩
        hd ha hb
      exact narrow hds hs
    · obtain ⟨ds, k, hds, hs⟩ := encodeArithmetic_spells "Sub instruction format error: " (f := "100010") ⟨by decide, rfl, rfl⟩
        hd ha hb
      exact narrow hds hs
  | branch hname ha hb hn =>
    rcases hname with rfl | rfl
    · obtain ⟨ds, k, hds, hs⟩ := encodeBranch_spells "Beq instruction format error: " (c := "000100") ⟨by decide, rfl, rfl⟩
        ha hb hn
      exact narrow hds hs
    · obtain ⟨ds, k, hds, hs⟩ := encodeBranch_spells "Bne instruction format error: " (c := "000101") ⟨by decide, rfl, rfl⟩
        ha hb hn
      exact narrow hds hs
  | addImmediate hname hd ha hn =>
    subst hname
    obtain ⟨ds, k, hds, hs⟩ := encodeAddImmediate_spells hd ha hn
    exact narrow hds hs
  | loadByte hname hr hp hn =>
    subst hname
    exact loadByte_word l hr hp hn
  | waitRegister hname hr =>
    subst hname
    obtain ⟨ds, k, hds, hs⟩ := encodeWaitRegister_spells hr
    exact narrow hds hs
  | pulse hname hn _ =>
    subst hname
    exact pulse_word_lt l hn
  | wait hname hn =>
    subst hname
    obtain ⟨ds, k, hds, hs⟩ := encodeWait_spells hn.1 hn.2.1 hn.2.2
    exact narrow hds hs
  | trigger hname hmask hn =>
    subst hname
    obtain ⟨ds, k, hds, hs⟩ := encodeTrigger_spells hmask.1 hmask.2 hn.1 hn.2
    exact narrow hds hs
  | constant hname =>
    rcases hname with rfl | rfl
    · exact narrow (k := 0b011 * 2 ^ 23 + 0b10) (show encode cfg "measure" [] = _ from rfl) ⟨by decide, rfl, rfl⟩
    · exact narrow (k := 0) (show encode cfg "nop" [] = _ from rfl) ⟨by decide, rfl, rfl⟩

theorem word_iff : (∃ w, wordOf cfg x = .ok w) ↔ Checked cfg x.name x.operands :=
  ⟨fun h => checked_of_word h.choose_spec, fun h => ⟨_, h.word.choose_spec.1⟩⟩

theorem word_lt {w : Int} (h : wordOf cfg x = .ok w) (hx : x.narrow) : 0 ≤ w ∧ w < 2 ^ 32 := by
  obtain ⟨w', hw', hlt⟩ := (checked_of_word h).word
  cases h.symm.trans hw'
  exact hlt hx

/-! ## Lines that hold an instruction -/

/-- Lines hold an instruction, with any label. -/
def Holds (xs : List Item) (x : Item) : Prop := ∃ l, { x with label := l } ∈ xs

theorem Holds.alignItems (h : Holds xs x) (hx : x.name ≠ "") : Holds (alignItems xs) x := by
  obtain ⟨l, h⟩ := h
  induction xs using alignItems_induction with
  | nil => cases h
  | named y xs hy ih =>
    rw [alignItems_cons hy]
    rcases mem_cons.1 h with h | h
    · exact ⟨l, h ▸ mem_cons_self⟩
    · obtain ⟨k, hk⟩ := ih h
      exact ⟨k, mem_cons_of_mem y hk⟩
  | last y hy =>
    rw [← mem_singleton.1 h] at hy
    exact absurd hy hx
  | skip y z xs hy ih =>
    rw [alignItems_skip hy]
    rcases mem_cons.1 h with h | h
    · rw [← h] at hy
      exact absurd hy hx
    · rcases mem_cons.1 h with rfl | h
      · rw [inherit]
        split
        · exact ⟨_, mem_cons_self⟩
        · exact ⟨_, mem_cons_self⟩
      · obtain ⟨k, hk⟩ := ih h
        exact ⟨k, mem_cons_of_mem _ hk⟩

theorem Holds.flatMap {f : Item → List Item} (h : Holds xs x)
    (hf : ∀ l, Holds (f { x with label := l }) x) : Holds (xs.flatMap f) x := by
  obtain ⟨l, h⟩ := h
  obtain ⟨k, hk⟩ := hf l
  exact ⟨k, mem_flatMap.2 ⟨_, h, hk⟩⟩

theorem Holds.padded (h : Holds xs x) : Holds (padded cfg xs) x := by
  have hlabelled : Holds (if cfg.nopAfterLabel then nopsAfterLabels xs else xs) x := by
    split
    · refine h.flatMap fun l => ?_
      split
      · exact ⟨l, mem_singleton_self _⟩
      · exact ⟨"", by simp⟩
    · exact h
  rw [Qumis.padded]
  split
  · refine hlabelled.flatMap fun l => ⟨l, ?_⟩
    split
    · exact mem_cons_self
    · exact mem_singleton_self _
  · exact hlabelled

/-! ## Properties of all lines -/

theorem narrow_of_name (hlui : x.name ≠ "lui") (hpulse : x.name ≠ "pulse") : x.narrow :=
  ⟨fun h => absurd h hlui, fun h => absurd h hpulse⟩

theorem moved_eq (x : Item) : moved x = [x] ∨ ∃ reg n, moved x = loadBytes x.label reg n := by
  rcases moved_cases x with hx | ⟨-, reg, n, hx⟩
  · exact .inl (hx x.label)
  · exact .inr ⟨reg, n, hx x.label⟩

theorem narrow_moved (h : x.narrow) : ∀ y ∈ moved x, y.narrow := by
  rcases moved_eq x with hx | ⟨reg, n, hx⟩ <;> rw [hx]
  · simpa using h
  · simp only [loadBytes, forall_mem_cons, not_mem_nil, false_imp_iff, implies_true, and_true]
    refine ⟨⟨fun _ m hm => ?_, by simp⟩, ⟨fun _ m hm => ?_, by simp⟩, ⟨fun _ m hm => ?_, by simp⟩,
      ⟨fun _ m hm => ?_, by simp⟩⟩ <;>
      · cases hm
        omega

/-- **The passes keep operands narrow.** -/
theorem narrow_expand {src items : List Item} (hitems : items = alignItems src) (hfinal : expand cfg items = .ok final)
    (h : ∀ x ∈ src, x.narrow) : ∀ x ∈ final, x.narrow := by
  have hlabel (x : Item) (l : String) (hx : x.narrow) : ({ x with label := l } : Item).narrow := hx
  have hnop (l : String) : (⟨l, "nop", []⟩ : Item).narrow := narrow_of_name (by simp) (by simp)
  have hwait (l : String) (n : Int) (rest : List Operand) : (waitItem l n rest).narrow :=
    narrow_of_name (by simp [waitItem]) (by simp [waitItem])
  have halign {xs : List Item} (hx : ∀ x ∈ xs, x.narrow) : ∀ x ∈ alignItems xs, x.narrow := forall_alignItems hlabel hnop hx
  obtain ⟨empty, loads, split, hempty, hloads, hsplit, hmerge⟩ := expand_stages hfinal
  have hend : ∀ x ∈ endLoop, x.narrow := by
    simp only [endLoop, forall_mem_cons, not_mem_nil, false_imp_iff, implies_true, and_true]
    exact ⟨narrow_of_name (by simp) (by simp), narrow_of_name (by simp) (by simp), narrow_of_name (by simp) (by simp)⟩
  have hcleared : ∀ x ∈ empty, x.narrow := by
    rw [clearZeroWaits_eq_ok hempty, hitems]
    refine forall_mem_map.2 fun x hx => ?_
    rw [cleared]
    split
    · exact narrow_of_name (by simp) (by simp)
    · exact halign (forall_mem_append.2 ⟨halign h, hend⟩) x hx
  have hmoved : ∀ x ∈ loads, x.narrow := by
    rw [expandMoves_eq_ok hloads]
    intro y hy
    obtain ⟨x, hx, hy⟩ := mem_flatMap.1 hy
    exact narrow_moved (halign (forall_padded hlabel hnop (halign (halign hcleared))) x hx) y hy
  exact forall_mergeWaits hwait hmerge (forall_splitWaits hwait hsplit (halign hmoved))

theorem narrow_resolveFrom {table : LabelTable} {i : Nat} (h : resolveFrom table i xs = .ok ys)
    (hx : ∀ x ∈ xs, x.narrow) : ∀ y ∈ ys, y.narrow := by
  induction xs generalizing i ys with
  | nil =>
    cases h
    simp
  | cons x xs ih =>
    rw [forall_mem_cons] at hx
    obtain ⟨y, hy, h⟩ := bind_eq_ok.1 h
    obtain ⟨zs, hzs, h⟩ := bind_eq_ok.1 h
    cases h
    refine forall_mem_cons.2 ⟨?_, ih hzs hx.2⟩
    cases hb : x.isBranch with
    | false =>
      rw [resolveBranch, hb] at hy
      cases hy
      exact hx.1
    | true =>
      obtain ⟨a, b, target, rest, addr, -, -, rfl⟩ := resolveBranch_inv hb hy
      refine narrow_of_name ?_ ?_ <;>
        · rcases isBranch_name hb with hname | hname <;> simp [hname]

/-! ## Waits that stand alone -/

theorem pass_mem {f : Item → Except AsmError (List Item)} (pass : List Item → Except AsmError (List Item))
    (hnil : pass [] = .ok []) (hcons : ∀ x r, pass (x :: r) = do
      let ys ← f x
      let zs ← pass r
      return ys ++ zs) {out : List Item} (h : pass xs = .ok out) (hx : x ∈ xs) :
    ∃ ys, f x = .ok ys ∧ ys ⊆ out := by
  obtain ⟨pre, post, rfl⟩ := append_of_mem hx
  obtain ⟨a, b, -, hb, rfl⟩ := pass_append hnil hcons h
  rw [hcons] at hb
  obtain ⟨ys, hys, hb⟩ := bind_eq_ok.1 hb
  obtain ⟨zs, -, hb⟩ := bind_eq_ok.1 hb
  cases hb
  exact ⟨ys, hys, fun y hy => by simp [hy]⟩

theorem mem_splitWaits (h : splitWaits m xs = .ok ys) (hx : x ∈ xs) (hn : x.name ≠ "wait") : x ∈ ys := by
  obtain ⟨zs, hzs, hsub⟩ := pass_mem (splitWaits m) rfl (fun _ _ => rfl) h hx
  rw [splitWait, if_neg hn] at hzs
  cases hzs
  exact hsub (mem_singleton_self x)

theorem Lone.mem (h : Lone w xs) : w ∈ xs := by
  obtain ⟨pre, post, rfl, -⟩ := h
  simp

/-- A pass keeps an item alone if it keeps the label of each item in front and makes waits of waits only. -/
theorem Lone.flatMap {f : Item → List Item} (hw : f w = [w])
    (hf : ∀ x, ∃ y t, f x = y :: t ∧ y.label = x.label ∧ (x.name ≠ "wait" → ∀ z ∈ y :: t, z.name ≠ "wait"))
    (h : Lone w xs) : Lone w (xs.flatMap f) := by
  obtain ⟨pre, post, rfl, hpre, hpost⟩ := h
  refine ⟨pre.flatMap f, post.flatMap f, by simp [hw], fun t ht => ?_, fun z hz hl hn => ?_⟩
  · rcases eq_nil_or_concat pre with rfl | ⟨front, x, rfl⟩
    · simp at ht
    · obtain ⟨y, ys, hfx, -, hname⟩ := hf x
      rw [concat_eq_append, flatMap_append, flatMap_singleton, hfx,
        getLast?_append_of_ne_nil _ (cons_ne_nil y ys)] at ht
      exact hname (hpre x (by simp)) t (mem_of_getLast? ht)
  · cases post with
    | nil => simp at hz
    | cons x post =>
      obtain ⟨y, ys, hfx, hlabel, hname⟩ := hf x
      rw [flatMap_cons, hfx] at hz
      cases hz
      have hx : x.name = "wait" := by
        by_contra hx
        exact hname hx z mem_cons_self hn
      exact hpost x rfl (hlabel.symm.trans hl) hx

theorem ticks_of_splitWait (hx : x.name = "wait") (h : splitWait m x = .ok ys) : ∃ n, x.ticks? = .ok n := by
  rw [splitWait, if_pos hx] at h
  split at h
  · cases h
  · rename_i hops
    split at h
    · cases h
    · rename_i n hn
      exact ⟨n, ticks?_iff.2 ⟨_, _, hops, hn⟩⟩

theorem lone_self (x : Item) :
    ∃ y t, [x] = y :: t ∧ y.label = x.label ∧ (x.name ≠ "wait" → ∀ z ∈ y :: t, z.name ≠ "wait") :=
  ⟨x, [], rfl, rfl, by simp⟩

section
variable (hw : w.name = "wait") (h : Lone w xs)
include hw h

theorem lone_padded (hcfg : cfg.nopAfterLabel = false) : Lone w (padded cfg xs) := by
  simp only [padded, hcfg, Bool.false_eq_true, if_false]
  split
  · refine h.flatMap (by simp [Item.isBranch, hw]) fun x => ?_
    split
    · refine ⟨x, _, rfl, rfl, fun hx => forall_mem_cons.2 ⟨hx, fun z hz => ?_⟩⟩
      simp [eq_of_mem_replicate hz]
    · exact lone_self x
  · exact h

theorem lone_moved : Lone w (xs.flatMap moved) := by
  refine h.flatMap ?_ fun x => ?_
  · rw [moved, expandMove, if_neg (by simp [hw])]
    rfl
  · rcases moved_eq x with hx | ⟨reg, k, hx⟩
    · exact hx ▸ lone_self x
    · exact ⟨_, _, hx, rfl, fun _ => by simp⟩

theorem lone_splitWaits (hn : w.ticks? = .ok n) (hshort : n ≤ m) (hsplit : splitWaits m xs = .ok ys) : Lone w ys := by
  rw [pass_eq_flatMap (splitWaits m) rfl (fun _ _ => rfl) hsplit]
  obtain ⟨op, rest, hops, hop⟩ := ticks?_iff.1 hn
  have hrange : ¬(0 < m ∧ n > m) := by omega
  refine h.flatMap ?_ fun x => ?_
  · simp only [splitWait, hw, if_true, hops, hop, if_neg hrange]
    rfl
  · rw [splitWait]
    split
    · rename_i hx
      split
      · exact lone_self x
      · split
        · exact lone_self x
        · split
          · exact ⟨_, _, rfl, rfl, fun hn => absurd hx hn⟩
          · exact lone_self x
    · exact lone_self x

/-- **A short wait that stands alone is still there when words are made.** -/
theorem mem_emitItems_lone (hcfg : cfg.nopAfterLabel = false) (hfinal : emitItems cfg xs = .ok final) :
    ∃ n, w.ticks? = .ok n ∧ (n ≤ cfg.maxWait → w ∈ final) := by
  obtain ⟨loads, hloads, hfinal⟩ := bind_eq_ok.1 hfinal
  obtain ⟨split, hsplit, hmerge⟩ := bind_eq_ok.1 hfinal
  have hmoved : Lone w loads := by
    rw [expandMoves_eq_ok hloads]
    exact lone_moved hw (lone_padded hw h hcfg)
  obtain ⟨ys, hys, -⟩ := pass_mem (splitWaits cfg.maxWait) rfl (fun _ _ => rfl) hsplit hmoved.mem
  obtain ⟨n, hn⟩ := ticks_of_splitWait hw hys
  exact ⟨n, hn, fun hshort => mem_mergeWaits_lone hmerge (lone_splitWaits hw hmoved hn hshort hsplit)⟩

end

/-- **Where no line is left without an instruction**, the passes worked on the settled program. -/
theorem emitItems_of_expand (hcfg : cfg.nopAfterLabel = false) {items : List Item} (h : expand cfg items = .ok final)
    (hnamed : ∀ x ∈ final, x.name ≠ "") : emitItems cfg (settle "" (items ++ endLoop)) = .ok final := by
  obtain ⟨empty, loads, split, hempty, hloads, hsplit, hmerge⟩ := expand_stages h
  obtain rfl := clearZeroWaits_eq_ok hempty
  have hstart : Stage (settle "" (items ++ endLoop)) (labelsOf (items ++ endLoop)) (items ++ endLoop).length
      (items ++ endLoop) :=
    ⟨rfl, List.Sublist.refl _, shortRuns_within (fun run hrun _ => hrun.length_le) (fun run hrun _ => hrun.length_le),
      items ++ endLoop.take 2, ⟨"", "beq", [.word "r0", .word "r0", .word "end_of_file_loop"]⟩, by simp [endLoop], rfl⟩
  have haligned := hstart.align.clear.align.align
  have hb := blank_alignItems (blank_alignItems (blank_cleared (alignItems (items ++ endLoop))))
  generalize hz : alignItems (alignItems ((alignItems (items ++ endLoop)).map cleared)) = zs at hloads haligned hb
  have hpadded : Stage (padded cfg (settle "" (items ++ endLoop))) (labelsOf (items ++ endLoop)) (items ++ endLoop).length
      (padded cfg zs) ∧ ∀ x ∈ padded cfg zs, x.idle = true → x.name = "" := by
    simp only [padded, hcfg, Bool.false_eq_true, if_false]
    split
    · exact ⟨haligned.inPlace (inPlace_nopsAfterBranches _), (inPlace_nopsAfterBranches _).blank hb⟩
    · exact ⟨haligned, hb⟩
  have hmove := expandMoves_settle "" (alignItems (padded cfg zs))
  rw [hpadded.1.align.settles, hloads] at hmove
  obtain rfl := expandMoves_eq_ok hloads
  have hmoved := (hpadded.1.align.inPlace inPlace_moved).align
  have hbmoved := blank_alignItems (inPlace_moved.blank (blank_alignItems hpadded.2))
  -- a line without an instruction would be no wait, and would come to the end as it is
  have hidle : ∀ x ∈ alignItems ((alignItems (padded cfg zs)).flatMap moved), x.idle = false := by
    intro x hx
    by_contra hi
    have hname := hbmoved x hx (by simpa using hi)
    exact hnamed x (mem_mergeWaits hmerge (mem_splitWaits hsplit hx (by simp [hname])) (by simp [hname])) hname
  have hsame := hmoved.settles
  rw [settle_eq_self hidle] at hsame
  rw [emitItems, hmove]
  simp only [Except.map, bind, Except.bind, (hpadded.1.align.inPlace inPlace_moved).settles, ← hsame, hsplit, hmerge]

/-! ## Assembled programs -/

/-- What is asked of a line of a source. Branches go to labels, and what else is asked of a wait depends on its neighbours. -/
inductive Admitted (cfg : Settings) (x : Item) : Prop
  | idle (h : x.idle = true)
  | checked (h : Checked cfg x.name x.operands)
  | branch {a b target : Operand} (hx : x.isBranch = true) (hops : x.operands = [a, b, target]) (ha : IsRegister a)
      (hb : IsRegister b)
  | load {reg imm : Operand} {rest : List Operand} {n : Int} (hx : x.name = "mov") (hops : x.operands = reg :: imm :: rest)
      (hr : IsRegister reg) (hn : imm.int? = some n)
  | wait {n : Int} (hx : x.name = "wait") (hn : x.ticks? = .ok n)

theorem Checked.branch_registers {off : Operand} {rest : List Operand}
    (h : Checked cfg name (a :: b :: off :: rest)) (hname : name = "beq" ∨ name = "bne") :
    IsRegister a ∧ IsRegister b ∧ rest = [] := by
  cases h with
  | branch _ ha hb _ => exact ⟨ha, hb, rfl⟩
  | _ => simp_all

theorem Checked.loadByte_register {rest : List Operand} (h : Checked cfg "lui" (r :: rest)) : IsRegister r := by
  cases h with
  | loadByte _ hr _ _ => exact hr
  | _ => simp_all

theorem Checked.wait_range (h : Checked cfg "wait" ops) :
    ∃ op n, ops = [op] ∧ op.int? = some n ∧ cfg.minWait ≤ n ∧ n ≤ cfg.maxWait := by
  cases h with
  | wait _ hn => exact ⟨_, _, rfl, hn⟩
  | _ => simp_all

theorem expandMove_inv (hx : x.name = "mov") (h : expandMove x = .ok ys) :
    ∃ reg imm rest n, x.operands = reg :: imm :: rest ∧ imm.int? = some n ∧ ys = loadBytes x.label reg n := by
  rw [expandMove, if_pos hx] at h
  split at h
  · rename_i reg imm rest hops
    split at h
    · cases h
      exact ⟨_, _, _, _, hops, rfl, rfl⟩
    · split at h
      · cases h
      · split at h
        · rename_i n hn
          cases h
          exact ⟨_, _, _, _, hops, hn, rfl⟩
        · cases h
  · cases h

section
variable {resolved : List Item} {words : List Int} {table : LabelTable}
  (hresolved : resolveBranches table final = .ok resolved) (hwords : resolved.mapM (wordOf cfg) = .ok words)
include hresolved hwords

theorem checked_of_final (hx : x ∈ final) (hb : x.isBranch = false) : Checked cfg x.name x.operands := by
  obtain ⟨w, -, hw⟩ := mapM_ok_mem hwords (mem_resolveFrom hresolved hx hb)
  exact checked_of_word hw

theorem registers_of_final (hx : x ∈ final) (hb : x.isBranch = true) :
    ∃ a b target, x.operands = [a, b, target] ∧ IsRegister a ∧ IsRegister b := by
  obtain ⟨i, hi⟩ := mem_iff_getElem?.1 hx
  obtain ⟨y, hy, hres⟩ := (resolveFrom_getElem? hresolved).2 i x hi
  obtain ⟨a, b, target, rest, addr, hops, -, rfl⟩ := resolveBranch_inv hb hres
  obtain ⟨w, -, hw⟩ := (words_getElem? hwords).2 i _ hy
  obtain ⟨ha, hb', rfl⟩ := (checked_of_word hw).branch_registers (isBranch_name hb)
  exact ⟨a, b, target, hops, ha, hb'⟩

theorem named_of_final : ∀ x ∈ final, x.name ≠ "" := by
  intro x hx
  cases hb : x.isBranch with
  | true => rcases isBranch_name hb with hname | hname <;> simp [hname]
  | false =>
    obtain ⟨w, -, hw⟩ := mapM_ok_mem hwords (mem_resolveFrom hresolved hx hb)
    exact (name_of_word hw).1

end

theorem admitted_of_assemble {text : String} {image : Image} (h : assemble cfg text = .ok image)
    (hx : x ∈ sourceItems text) : Admitted cfg x := by
  obtain ⟨items, final, resolved, hitems, hfinal, -, -, hresolved, hwords⟩ := assemble_stages h
  obtain ⟨rfl, -⟩ := align_eq_ok.1 hitems
  obtain ⟨empty, loads, split, hempty, hloads, hsplit, hmerge⟩ := expand_stages hfinal
  have hkept {y : Item} (hy : y ∈ alignItems loads) (hn : y.name ≠ "wait") : y ∈ final :=
    mem_mergeWaits hmerge (mem_splitWaits hsplit hy hn) hn
  cases hi : x.idle with
  | true => exact .idle hi
  | false =>
    have hname := name_of_not_idle hi
    have hsrc : Holds (alignItems (sourceItems text) ++ endLoop) x := by
      obtain ⟨l, hl⟩ := Holds.alignItems ⟨x.label, hx⟩ hname
      exact ⟨l, mem_append_left _ hl⟩
    have hempty : Holds empty x := by
      rw [clearZeroWaits_eq_ok hempty]
      obtain ⟨l, hl⟩ := hsrc.alignItems hname
      exact ⟨l, mem_map.2 ⟨_, hl, (cleared_spec { x with label := l }).2.2.1 hi⟩⟩
    obtain ⟨l, hl⟩ := ((hempty.alignItems hname).alignItems hname).padded.alignItems hname
    obtain ⟨ys, hys, hsub⟩ := pass_mem expandMoves rfl (fun _ _ => rfl) hloads hl
    by_cases hm : x.name = "mov"
    · obtain ⟨reg, imm, rest, n, hops, hn, rfl⟩ := expandMove_inv (x := { x with label := l }) hm hys
      obtain ⟨k, hk⟩ := Holds.alignItems (x := ⟨"", "lui", [reg, .number 0, .number _]⟩) ⟨l, hsub mem_cons_self⟩ (by simp)
      exact .load hm hops (checked_of_final hresolved hwords (hkept hk (by simp)) rfl).loadByte_register hn
    · rw [expandMove, if_neg hm] at hys
      cases hys
      obtain ⟨k, hk⟩ := Holds.alignItems ⟨l, hsub (mem_singleton_self _)⟩ hname
      by_cases hw : x.name = "wait"
      · obtain ⟨zs, hzs, -⟩ := pass_mem (splitWaits cfg.maxWait) rfl (fun _ _ => rfl) hsplit hk
        obtain ⟨n, hn⟩ := ticks_of_splitWait (x := { x with label := k }) hw hzs
        exact .wait hw hn
      · cases hb : x.isBranch with
        | false => exact .checked (checked_of_final hresolved hwords (x := { x with label := k }) (hkept hk hw) hb)
        | true =>
          obtain ⟨a, b, target, hops, ha, hb'⟩ :=
            registers_of_final hresolved hwords (x := { x with label := k }) (hkept hk hw) hb
          exact .branch hb hops ha hb'

/-- A wait of an assembled program that stands alone is not below the shortest one. -/
theorem lone_of_assemble (hcfg : cfg.nopAfterLabel = false) {text : String} {image : Image}
    (h : assemble cfg text = .ok image) (hlone : Lone w (settle "" (alignItems (sourceItems text)))) (hw : w.name = "wait") :
    ∃ n, w.ticks? = .ok n ∧ (cfg.minWait ≤ n ∨ cfg.maxWait < n) := by
  obtain ⟨items, final, resolved, hitems, hfinal, -, -, hresolved, hwords⟩ := assemble_stages h
  obtain ⟨rfl, -⟩ := align_eq_ok.1 hitems
  have hemit := emitItems_of_expand hcfg hfinal (named_of_final hresolved hwords)
  have hend : Lone w (settle "" (alignItems (sourceItems text) ++ endLoop)) := by
    rw [endLoop, settle_append_labelled (by simp)]
    obtain ⟨pre, post, hxs, hpre, hpost⟩ := hlone
    refine ⟨pre, post ++ endLoop, by rw [hxs, append_assoc]; rfl, hpre, fun y hy => ?_⟩
    cases post with
    | nil =>
      cases hy
      exact fun hl => absurd hl (by simp)
    | cons z post => exact hpost y hy
  obtain ⟨n, hn, hmem⟩ := mem_emitItems_lone hw hend hcfg hemit
  refine ⟨n, hn, ?_⟩
  by_cases hlong : cfg.maxWait < n
  · exact .inr hlong
  · have hchecked := checked_of_final hresolved hwords (hmem (by omega)) (by simp [Item.isBranch, hw])
    rw [hw] at hchecked
    obtain ⟨op, k, hops, hk, hmin, -⟩ := hchecked.wait_range
    obtain ⟨op', rest, hops', hn'⟩ := ticks?_iff.1 hn
    rw [hops] at hops'
    cases hops'
    cases hk.symm.trans hn'
    exact .inl hmin

end

/-- **What an assembled program says of its source.** An item has a word if and only if its operands are checked, and each line
was admitted: registers, byte positions, trigger masks and durations lie in their fields. A wait that stands alone is at least
the shortest one. Where bytes and the fields of pulses fit as well, the words have 32 bits. -/
theorem assemble_admitted {cfg : Settings} {text : String} {image : Image} (h : assemble cfg text = .ok image) :
    (∀ x, (∃ w, wordOf cfg x = .ok w) ↔ Checked cfg x.name x.operands) ∧
    (∀ x ∈ sourceItems text, Admitted cfg x) ∧
    (cfg.nopAfterLabel = false → ∀ w, Lone w (settle "" (alignItems (sourceItems text))) → w.name = "wait" →
      ∃ n, w.ticks? = .ok n ∧ (cfg.minWait ≤ n ∨ cfg.maxWait < n)) ∧
    ((∀ x ∈ sourceItems text, x.narrow) → ∀ w ∈ image.words, 0 ≤ w ∧ w < 2 ^ 32) := by
  refine ⟨fun x => word_iff, fun x hx => admitted_of_assemble h hx, fun hcfg w hw hname => lone_of_assemble hcfg h hw hname,
    fun hnarrow w hw => ?_⟩
  obtain ⟨items, final, resolved, hitems, hfinal, -, -, hresolved, hwords⟩ := assemble_stages h
  obtain ⟨x, hx, hword⟩ := mapM_ok_of_mem hwords hw
  exact word_lt hword (narrow_resolveFrom hresolved (narrow_expand (align_eq_ok.1 hitems).1 hfinal hnarrow) x hx)

/-- Operands at the ends of their fields: a load, a trigger, a pulse and a wait that stands alone. -/
theorem assemble_admitted_edges :
    ∃ image, assemble {} "mov r15, -1\ntrigger 1000000, 2047\nwait 1\npulse 0001, 1111, 0000" = .ok image ∧
      (∀ x ∈ sourceItems "mov r15, -1\ntrigger 1000000, 2047\nwait 1\npulse 0001, 1111, 0000", Admitted {} x) ∧
      ∀ w ∈ image.words, 0 ≤ w ∧ w < 2 ^ 32 := by
  have hsource : sourceItems "mov r15, -1\ntrigger 1000000, 2047\nwait 1\npulse 0001, 1111, 0000" =
      [⟨"", "mov", [.word "r15", .word "-1"]⟩, ⟨"", "trigger", [.word "1000000", .word "2047"]⟩, ⟨"", "wait", [.word "1"]⟩,
        ⟨"", "pulse", [.word "0001", .word "1111", .word "0000"]⟩] := by decide +kernel
  have hok : (assemble {} "mov r15, -1\ntrigger 1000000, 2047\nwait 1\npulse 0001, 1111, 0000").isOk = true := by
    decide +kernel
  generalize "mov r15, -1\ntrigger 1000000, 2047\nwait 1\npulse 0001, 1111, 0000" = text at hsource hok ⊢
  cases himage : assemble {} text with
  | error e => simp [himage, Except.isOk, Except.toBool] at hok
  | ok image =>
    obtain ⟨-, hadmitted, -, hwords⟩ := assemble_admitted himage
    refine ⟨image, rfl, hadmitted, hwords ?_⟩
    rw [hsource]
    simp only [forall_mem_cons, not_mem_nil, false_imp_iff, implies_true, and_true, Item.narrow]
    refine ⟨⟨by simp, by simp⟩, ⟨by simp, by simp⟩, ⟨by simp, by simp⟩, by simp, fun _ => ?_⟩
    decide

/-- What is not refused: a byte of eleven bits, which makes a word of 33; an immediate beyond fifteen bits, which is read as
another one; fields of a pulse with one digit; and a negative wait beside another wait, which shortens it. -/
theorem assemble_wideOperands :
    (assemble {} "lui r0, 0, 1024").toOption.map (·.words.any (2 ^ 32 ≤ ·)) = some true ∧
      (assemble {} "addi r0, r0, 16384").toOption.map (·.words) =
        (assemble {} "addi r0, r0, -16384").toOption.map (·.words) ∧
      (assemble {} "addi r0, r0, 16384").isOk = true ∧
      (assemble {} "pulse 1, 1, 1").isOk = true ∧
      (assemble {} "wait -5\nwait 10").isOk = true ∧
      (assemble {} "wait -5\nwait 10").toOption.map (·.words) = (assemble {} "wait 5").toOption.map (·.words) :=
  ⟨by decide +kernel, by decide +kernel, by decide +kernel, by decide +kernel, by decide +kernel, by decide +kernel⟩

end QubitLab.Qumis
