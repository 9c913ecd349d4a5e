import QubitLab.Proofs.BranchTargets

/-!
# Instruction words hold their instructions

An `Instruction` is a mnemonic with the values of its operands, each as wide as its field. `Denotes x i` says that a line
of a program means an instruction: registers by name, numbers in any spelling, fields digit by digit. Such a line has the
word of its instruction (`Denotes.wordOf_eq`), and `decode` finds the instruction in the word (`decode_word`). So the words
of a program determine its instructions (`words_lossless`).
-/

namespace QubitLab.Decimal

/-! ## Numbers in any spelling -/

theorem readDigits?_digit {base acc k : Nat} {b : Bool} {c : Char} {r : List Char} (hc : c ≠ '_')
    (h : readDigits? base acc b (c :: r) = some k) :
    ∃ d, digitValue? c = some d ∧ d < base ∧ readDigits? base (acc * base + d) true r = some k := by
  rw [readDigits?] at h
  · split at h
    · rename_i d hd
      split at h
      · exact ⟨d, hd, ‹_›, h⟩
      · cases h
    · cases h
  · exact fun h => hc h

theorem digit?_of_digitValue? {c : Char} {d : Nat} (h : digitValue? c = some d) (hd : d < 10) : Chars.digit? c = some d := by
  rw [digitValue?] at h
  split at h
  · rename_i e he
    exact h ▸ he
  · simp only at h
    split at h
    · rename_i hc
      simp only [Bool.and_eq_true, decide_eq_true_eq] at hc
      cases h
      omega
    · split at h
      · rename_i hc
        simp only [Bool.and_eq_true, decide_eq_true_eq] at hc
        cases h
        omega
      · cases h

theorem spanDigits_of_readDigits? {acc k : Nat} {b : Bool} {cs : List Char} (h : readDigits? 10 acc b cs = some k) :
    ∃ ds, spanDigits b cs = (ds, []) ∧ (b = false → ds ≠ []) := by
  fun_induction spanDigits b cs generalizing acc with
  | case1 b =>
    rw [readDigits?] at h
    exact ⟨[], rfl, fun hb => by simp [hb] at h⟩
  | case2 b c r hcond ds t hspan ih =>
    rw [readDigits?] at h
    simp only [Bool.and_eq_true] at hcond
    rw [if_pos hcond.1] at h
    have hc : c ≠ '_' := by
      rintro rfl
      simp [readDigits?] at h
    obtain ⟨d, -, -, h⟩ := readDigits?_digit hc h
    obtain ⟨es, hes, -⟩ := ih h
    cases hspan.symm.trans hes
    exact ⟨_, rfl, by simp⟩
  | case3 b c r hcond =>
    exfalso
    rw [readDigits?] at h
    split at h
    · rename_i hb
      have hc : c ≠ '_' := by
        rintro rfl
        simp [readDigits?] at h
      obtain ⟨d, hd, hlt, -⟩ := readDigits?_digit hc h
      exact hcond (by simp [hb, digit?_of_digitValue? hd hlt])
    · cases h
  | case4 b c r hc d hd ds t hspan ih =>
    have hc : c ≠ '_' := by
      rintro rfl
      simp [Chars.digit?] at hd
    obtain ⟨_, -, -, h⟩ := readDigits?_digit hc h
    obtain ⟨es, hes, -⟩ := ih h
    cases hspan.symm.trans hes
    exact ⟨_, rfl, by simp⟩
  | case5 b c r hc hd =>
    exfalso
    by_cases hu : c = '_'
    · subst hu
      cases r with
      | nil => simp [readDigits?] at h
      | cons c' r => exact hc c' r rfl rfl
    · obtain ⟨d, hd', hlt, -⟩ := readDigits?_digit hu h
      rw [digit?_of_digitValue? hd' hlt] at hd
      cases hd

end QubitLab.Decimal

namespace QubitLab.Qumis

/-! ## Instructions and where their operands stand in a word -/

/-- An instruction with the values of its operands. -/
inductive Instruction
  | add (target left right : BitVec 4)
  | sub (target left right : BitVec 4)
  | beq (left right : BitVec 4) (offset : BitVec 15)
  | bne (left right : BitVec 4) (offset : BitVec 15)
  | addi (target source : BitVec 4) (immediate : BitVec 15)
  | lui (target : BitVec 4) (position : Fin 4) (byte : BitVec 8)
  | waitreg (source : BitVec 4)
  | pulse (first second third : BitVec 4)
  | measure
  | wait (ticks : { n : BitVec 15 // n ≠ 0 })
  /-- The lowest bit is the first marker. -/
  | trigger (markers : BitVec 7) (duration : BitVec 11)
  | nop
  deriving DecidableEq

/-- Nine leading bits, two fields of four bits, and fifteen bits. -/
def packed (lead first second rest : Nat) : Nat := lead * 2 ^ 23 + first * 2 ^ 19 + second * 2 ^ 15 + rest

def Instruction.word : Instruction → Nat
  | .add d a b => packed 0b100 a.toNat b.toNat (d.toNat * 2 ^ 11 + 0b100000)
  | .sub d a b => packed 0b100 a.toNat b.toNat (d.toNat * 2 ^ 11 + 0b100010)
  | .beq a b n => packed 0b000100100 a.toNat b.toNat n.toNat
  | .bne a b n => packed 0b000101100 a.toNat b.toNat n.toNat
  | .addi d a n => packed 0b001000100 a.toNat d.toNat n.toNat
  | .lui d p b => packed 0b001111100 d.toNat d.toNat (2 ^ p.val * 2 ^ 11 + b.toNat)
  | .waitreg a => packed 0b001 a.toNat 0 0b010000
  | .pulse a b c => packed 0b001 a.toNat b.toNat (c.toNat * 2 ^ 11 + 0b000001)
  | .measure => packed 0b011 0 0 0b000010
  | .wait n => packed 0b110000001 0 0 n.val.toNat
  | .trigger m n => 0b101000001 * 2 ^ 23 + m.toNat * 2 ^ 11 + n.toNat
  | .nop => 0

/-- The instruction that a word holds. -/
def decode (w : Nat) : Option Instruction :=
  let register (place : Nat) : BitVec 4 := .ofNat 4 (w / 2 ^ place)
  match w / 2 ^ 23, w % 2 ^ 6 with
  | 0b000000000, _ => some .nop
  | 0b000000011, _ => some .measure
  | 0b000000001, 0b010000 => some (.waitreg (register 19))
  | 0b000000001, _ => some (.pulse (register 19) (register 15) (register 11))
  | 0b000000100, 0b100000 => some (.add (register 11) (register 19) (register 15))
  | 0b000000100, _ => some (.sub (register 11) (register 19) (register 15))
  | 0b000100100, _ => some (.beq (register 19) (register 15) (.ofNat 15 w))
  | 0b000101100, _ => some (.bne (register 19) (register 15) (.ofNat 15 w))
  | 0b001000100, _ => some (.addi (register 15) (register 19) (.ofNat 15 w))
  | 0b001111100, _ => some (.lui (register 19) (.ofNat 4 (Nat.log2 (w / 2 ^ 11 % 2 ^ 4))) (.ofNat 8 w))
  | 0b110000001, _ => if h : BitVec.ofNat 15 w ≠ 0 then some (.wait ⟨.ofNat 15 w, h⟩) else none
  | 0b101000001, _ => some (.trigger (.ofNat 7 (w / 2 ^ 11)) (.ofNat 11 w))
  | _, _ => none

theorem ofNat_eq {k n : Nat} {v : BitVec k} (h : n % 2 ^ k = v.toNat) : BitVec.ofNat k n = v :=
  BitVec.eq_of_toNat_eq (by rw [BitVec.toNat_ofNat, h])

theorem Instruction.word_lt (i : Instruction) : i.word < 2 ^ 32 := by
  cases i with
  | lui d p b =>
    have hp : 2 ^ p.val ≤ 2 ^ 3 := Nat.pow_le_pow_right (by decide) (by omega)
    simp only [word, packed]
    omega
  | _ =>
    simp only [word, packed]
    omega

theorem decode_word (i : Instruction) : decode i.word = some i := by
  obtain ⟨w, hw⟩ : ∃ w, i.word = w := ⟨_, rfl⟩
  rw [hw]
  cases i with simp only [Instruction.word, packed] at hw
  | add d a b =>
    simp only [decode, show w / 2 ^ 23 = 0b100 by omega, show w % 2 ^ 6 = 0b100000 by omega]
    rw [ofNat_eq (v := d) (by omega), ofNat_eq (v := a) (by omega), ofNat_eq (v := b) (by omega)]
  | sub d a b =>
    simp only [decode, show w / 2 ^ 23 = 0b100 by omega, show w % 2 ^ 6 = 0b100010 by omega]
    rw [ofNat_eq (v := d) (by omega), ofNat_eq (v := a) (by omega), ofNat_eq (v := b) (by omega)]
  | beq a b n =>
    simp only [decode, show w / 2 ^ 23 = 0b000100100 by omega]
    rw [ofNat_eq (v := a) (by omega), ofNat_eq (v := b) (by omega), ofNat_eq (v := n) (by omega)]
  | bne a b n =>
    simp only [decode, show w / 2 ^ 23 = 0b000101100 by omega]
    rw [ofNat_eq (v := a) (by omega), ofNat_eq (v := b) (by omega), ofNat_eq (v := n) (by omega)]
  | addi d a n =>
    simp only [decode, show w / 2 ^ 23 = 0b001000100 by omega]
    rw [ofNat_eq (v := d) (by omega), ofNat_eq (v := a) (by omega), ofNat_eq (v := n) (by omega)]
  | lui d p b =>
    have hp : 2 ^ p.val ≤ 2 ^ 3 := Nat.pow_le_pow_right (by decide) (by omega)
    have hd : w / 2 ^ 19 = 0b001111100 * 2 ^ 4 + d.toNat := by omega
    simp only [decode, show w / 2 ^ 23 = 0b001111100 by omega, show w / 2 ^ 11 % 2 ^ 4 = 2 ^ p.val by omega,
      Nat.log2_two_pow]
    rw [ofNat_eq (v := d) (by omega), ofNat_eq (v := b) (by omega), Fin.ofNat_val_eq_self]
  | waitreg a =>
    simp only [decode, show w / 2 ^ 23 = 0b001 by omega, show w % 2 ^ 6 = 0b010000 by omega]
    rw [ofNat_eq (v := a) (by omega)]
  | pulse a b c =>
    simp only [decode, show w / 2 ^ 23 = 0b001 by omega, show w % 2 ^ 6 = 0b000001 by omega]
    rw [ofNat_eq (v := a) (by omega), ofNat_eq (v := b) (by omega), ofNat_eq (v := c) (by omega)]
  | measure => simp only [decode, show w / 2 ^ 23 = 0b011 by omega]
  | wait n =>
    have hn : BitVec.ofNat 15 w = n.val := ofNat_eq (by omega)
    simp only [decode, show w / 2 ^ 23 = 0b110000001 by omega]
    rw [dif_pos (hn ▸ n.property)]
    exact congrArg (some ∘ Instruction.wait) (Subtype.ext hn)
  | trigger m n =>
    simp only [decode, show w / 2 ^ 23 = 0b101000001 by omega]
    rw [ofNat_eq (v := m) (by omega), ofNat_eq (v := n) (by omega)]
  | nop => simp only [decode, show w / 2 ^ 23 = 0 by omega]

/-! ## Digits and the numbers they spell -/

/-- So many binary digits, which spell a number. -/
structure Spells (ds : List Char) (width n : Nat) : Prop where
  binary : Binary ds
  length : ds.length = width
  value : maskNumber ds = n

theorem Spells.append {ds es : List Char} {v w m n : Nat} (h : Spells ds v m) (h' : Spells es w n) :
    Spells (ds ++ es) (v + w) (m * 2 ^ w + n) := by
  refine ⟨h.binary.append h'.binary, by rw [List.length_append, h.length, h'.length], ?_⟩
  rw [maskNumber_append, h.value, h'.value, h'.length]
  push_cast
  rfl

theorem spells_twosComplement {w : Nat} (hw : 0 < w) {n : Int} {k : Nat} (h : n % 2 ^ w = k) :
    Spells (twosComplement w n) w k :=
  ⟨twosComplement_binary w n, (twosComplement_spec hw n).1, (twosComplement_spec hw n).2.trans h⟩

theorem spells_binaryDigits {w : Nat} (hw : 0 < w) {n : Nat} (h : n < 2 ^ w) :
    Spells (binaryDigits w n) w n := by
  have hmod : (n : Int) % 2 ^ w = n := Int.emod_eq_of_lt (by omega) (by exact_mod_cast h)
  have hsame : twosComplement w n = binaryDigits w n := by
    rw [twosComplement]
    simp [hmod]
  exact hsame ▸ spells_twosComplement hw hmod

theorem spells_duration (d : BitVec 11) : Spells ((twosComplement 12 d.toNat).drop 1) 11 d.toNat := by
  obtain ⟨hb, hl, hv⟩ := spells_twosComplement (w := 12) (by decide) (n := d.toNat) (k := d.toNat) (by omega)
  obtain ⟨c, ds, hds⟩ := List.exists_cons_of_length_eq_add_one hl
  rw [hds] at hb hl hv ⊢
  have hlength : ds.length = 11 := by simpa using hl
  have hbinary : Binary ds := fun x hx => hb x (List.mem_cons_of_mem c hx)
  obtain ⟨k, -, hk⟩ := readDigits?_binary (n := 0) (b := true) hbinary fun _ => rfl
  replace hk : (k : Int) = maskNumber ds := hk
  refine ⟨hbinary, hlength, ?_⟩
  rw [← List.singleton_append, maskNumber_append, hlength] at hv
  rcases hb c List.mem_cons_self with rfl | rfl
  · rw [show maskNumber ['0'] = 0 from rfl] at hv
    simpa using hv
  · rw [show maskNumber ['1'] = 1 from rfl] at hv
    omega

theorem toInt_emod {k : Nat} (v : BitVec k) : v.toInt % 2 ^ k = v.toNat := by
  rw [BitVec.toInt_eq_toNat_bmod, show (2 : Int) ^ k = (2 ^ k : Nat) by simp, Int.bmod_emod]
  exact Int.emod_eq_of_lt (Int.natCast_nonneg _) (by exact_mod_cast v.isLt)

/-! ## Lines that mean an instruction -/

/-- The operand that names a register. -/
def registerOperand (r : BitVec 4) : Operand := .word ("r" ++ Decimal.natText r.toNat)

/-- A line means an instruction: its mnemonic is that of the instruction and its operands have these values. -/
inductive Denotes : Item → Instruction → Prop
  | add (l : String) (d a b : BitVec 4) :
      Denotes ⟨l, "add", [registerOperand d, registerOperand a, registerOperand b]⟩ (.add d a b)
  | sub (l : String) (d a b : BitVec 4) :
      Denotes ⟨l, "sub", [registerOperand d, registerOperand a, registerOperand b]⟩ (.sub d a b)
  | beq (l : String) (a b : BitVec 4) {op : Operand} {n : BitVec 15} (hn : op.int? = some n.toInt) :
      Denotes ⟨l, "beq", [registerOperand a, registerOperand b, op]⟩ (.beq a b n)
  | bne (l : String) (a b : BitVec 4) {op : Operand} {n : BitVec 15} (hn : op.int? = some n.toInt) :
      Denotes ⟨l, "bne", [registerOperand a, registerOperand b, op]⟩ (.bne a b n)
  | addi (l : String) (d a : BitVec 4) {op : Operand} {n : BitVec 15} (hn : op.int? = some n.toInt) :
      Denotes ⟨l, "addi", [registerOperand d, registerOperand a, op]⟩ (.addi d a n)
  | lui (l : String) (d : BitVec 4) {place op : Operand} {p : Fin 4} {n : BitVec 8} (hp : place.int? = some (p.val : Int))
      (hn : op.int? = some (n.toNat : Int)) : Denotes ⟨l, "lui", [registerOperand d, place, op]⟩ (.lui d p n)
  | waitreg (l : String) (a : BitVec 4) : Denotes ⟨l, "waitreg", [registerOperand a]⟩ (.waitreg a)
  | pulse (l : String) {r s t : String} {a b c : BitVec 4} (ha : Spells r.toList 4 a.toNat)
      (hb : Spells s.toList 4 b.toNat) (hc : Spells t.toList 4 c.toNat) :
      Denotes ⟨l, "pulse", [.word r, .word s, .word t]⟩ (.pulse a b c)
  | measure (l : String) : Denotes ⟨l, "measure", []⟩ .measure
  | wait (l : String) {op : Operand} {n : { n : BitVec 15 // n ≠ 0 }} (hn : op.int? = some (n.val.toNat : Int)) :
      Denotes ⟨l, "wait", [op]⟩ (.wait n)
  | trigger (l : String) {mask : String} {op : Operand} {m : BitVec 7} {n : BitVec 11}
      (hm : Spells mask.toList.reverse 7 m.toNat) (hn : op.int? = some (n.toNat : Int)) :
      Denotes ⟨l, "trigger", [.word mask, op]⟩ (.trigger m n)
  | nop (l : String) : Denotes ⟨l, "nop", []⟩ .nop

theorem isNumberWord_of_int {s : String} {n : Int} (h : Decimal.readInt? 10 s.toList = some n) : isNumberWord s = true := by
  rw [Decimal.readInt?] at h
  rw [isNumberWord, Decimal.readReal?]
  generalize Decimal.takeSign (Chars.trim s.toList) = signed at h ⊢
  simp only [Decimal.dropBaseMark_ten, Option.map_eq_some_iff] at h
  obtain ⟨_, hk, -⟩ := h
  obtain ⟨k, hk, -⟩ := Option.bind_eq_some_iff.1 hk
  obtain ⟨ds, hds, hne⟩ := Decimal.spanDigits_of_readDigits? hk
  simp only [Option.isSome_map, Decimal.readMagnitude?, hds]
  split
  · rfl
  · split
    · rfl
    · simp [hne rfl, Decimal.readExponent?]

theorem immediate_eq {op : Operand} {n : Int} (h : op.int? = some n) : immediate op = .ok n ∧ operandInt op = .ok n := by
  cases op with
  | number m =>
    cases h
    exact ⟨rfl, rfl⟩
  | word s =>
    have hread : Decimal.readInt? 10 s.toList = some n := h
    simp only [immediate, operandInt, isNumberWord_of_int hread, hread, if_true, and_self]

theorem bytePosition_eq {op : Operand} {p : Fin 4} (h : op.int? = some (p.val : Int)) : bytePosition op = .ok (p.val : Int) := by
  have hrange : ¬((p.val : Int) < 0 ∨ (p.val : Int) > 3) := by omega
  cases op with
  | number m =>
    cases h
    exact if_neg hrange
  | word s =>
    have hread : Decimal.readInt? 10 s.toList = some (p.val : Int) := h
    simp only [bytePosition, operandInt, isNumberWord_of_int hread, hread, bind, Except.bind, if_neg hrange, Bool.not_true,
      Bool.false_eq_true, if_false]

theorem registerField_eq (lead : String) (r : BitVec 4) :
    ∃ ds, registerField lead (registerOperand r) = .ok ds ∧ Spells ds 4 r.toNat := by
  have hnumber : ∀ r : BitVec 4, registerNumber ("r" ++ Decimal.natText r.toNat) = .ok (r.toNat : Int) := by decide +kernel
  exact ⟨_, (registerField_ok (hnumber r) lead).1, spells_binaryDigits (by decide) r.isLt⟩

section
variable {cfg : Settings}

theorem wordOf_of_spells {x : Item} {ds : List Char} {n m : Nat} (h : encode cfg x.name x.operands = .ok ds)
    (hds : Spells ds 32 m) (hm : m = n) : wordOf cfg x = .ok n := by
  have hne : ds ≠ [] := by
    rintro rfl
    cases hds.length
  rw [wordOf, h]
  simp only [bind, Except.bind, readInt?_binary hne hds.binary, hds.value, hm]

theorem encodeArithmetic_eq (lead : String) {f : String} {k : Nat} (hf : Spells f.toList 6 k) (d a b : BitVec 4) :
    ∃ ds, encodeArithmetic lead f [registerOperand d, registerOperand a, registerOperand b] = .ok ds ∧
      Spells ds 32 (packed 0b100 a.toNat b.toNat (d.toNat * 2 ^ 11 + k)) := by
  obtain ⟨rd, hrd, hd⟩ := registerField_eq lead d
  obtain ⟨rs, hrs, ha⟩ := registerField_eq lead a
  obtain ⟨rt, hrt, hb⟩ := registerField_eq lead b
  refine ⟨_, by rw [encodeArithmetic, hrd, hrs, hrt]; rfl, ?_⟩
  have hlead : Spells "000000100".toList 9 0b100 := ⟨by decide, rfl, rfl⟩
  have hzeros : Spells "00000".toList 5 0 := ⟨by decide, rfl, rfl⟩
  convert ((((hlead.append ha).append hb).append hd).append hzeros).append hf using 1
  simp only [packed]
  omega

/-- Nine digits, two registers and fifteen digits. -/
theorem spells_packed {lead rs rt rest : List Char} {k n : Nat} {a b : BitVec 4} (hk : Spells lead 9 k)
    (ha : Spells rs 4 a.toNat) (hb : Spells rt 4 b.toNat) (hn : Spells rest 15 n) :
    Spells (lead ++ rs ++ rt ++ rest) 32 (packed k a.toNat b.toNat n) := by
  convert ((hk.append ha).append hb).append hn using 1
  simp only [packed]
  omega

theorem spells_immediate (n : BitVec 15) : Spells (twosComplement 15 n.toInt) 15 n.toNat :=
  spells_twosComplement (by decide) (toInt_emod n)

theorem encodeBranch_eq (lead : String) {c : String} {k : Nat} (hk : Spells c.toList 6 k) (a b : BitVec 4) {op : Operand}
    {n : BitVec 15} (hn : op.int? = some n.toInt) :
    ∃ ds, encodeBranch lead c [registerOperand a, registerOperand b, op] = .ok ds ∧
      Spells ds 32 (packed (k * 2 ^ 3 + 0b100) a.toNat b.toNat n.toNat) := by
  obtain ⟨rs, hrs, ha⟩ := registerField_eq lead a
  obtain ⟨rt, hrt, hb⟩ := registerField_eq lead b
  refine ⟨_, by rw [encodeBranch, hrs, hrt, (immediate_eq hn).1]; rfl, ?_⟩
  exact spells_packed (hk.append ⟨by decide, rfl, rfl⟩) ha hb (spells_immediate n)

theorem Denotes.wordOf_eq (hmin : cfg.minWait ≤ 1) (hmax : 32767 ≤ cfg.maxWait) {x : Item} {i : Instruction}
    (h : Denotes x i) : wordOf cfg x = .ok i.word := by
  cases h with
  | add l d a b =>
    obtain ⟨ds, hds, hs⟩ := encodeArithmetic_eq "Add instruction format error: " (f := "100000") ⟨by decide, rfl, rfl⟩ d a b
    exact wordOf_of_spells hds hs rfl
  | sub l d a b =>
    obtain ⟨ds, hds, hs⟩ := encodeArithmetic_eq "Sub instruction format error: " (f := "100010") ⟨by decide, rfl, rfl⟩ d a b
    exact wordOf_of_spells hds hs rfl
  | beq l a b hn =>
    obtain ⟨ds, hds, hs⟩ := encodeBranch_eq "Beq instruction format error: " (c := "000100") ⟨by decide, rfl, rfl⟩ a b hn
    exact wordOf_of_spells hds hs rfl
  | bne l a b hn =>
    obtain ⟨ds, hds, hs⟩ := encodeBranch_eq "Bne instruction format error: " (c := "000101") ⟨by decide, rfl, rfl⟩ a b hn
    exact wordOf_of_spells hds hs rfl
  | @addi l d a op n hn =>
    obtain ⟨rs, hrs, ha⟩ := registerField_eq "Addi instruction format error: " a
    obtain ⟨rt, hrt, hd⟩ := registerField_eq "Addi instruction format error: " d
    have hencode : encodeAddImmediate [registerOperand d, registerOperand a, op] =
        .ok ("001000100".toList ++ rs ++ rt ++ twosComplement 15 n.toInt) := by
      rw [encodeAddImmediate, hrs, hrt, (immediate_eq hn).1]
      rfl
    exact wordOf_of_spells hencode (spells_packed ⟨by decide, rfl, rfl⟩ ha hd (spells_immediate n)) rfl
  | @lui l d place op p n hp hn =>
    obtain ⟨rt, hrt, hd⟩ := registerField_eq "Lui instruction format error:" d
    have hplace : 2 ^ p.val ≤ 2 ^ 3 := Nat.pow_le_pow_right (by decide) (by omega)
    have hencode : encodeLoadByte [registerOperand d, place, op] =
        .ok ("001111100".toList ++ rt ++ rt ++ binaryDigits 4 (2 ^ p.val : Nat) ++ "000".toList ++ binaryDigits 8 n.toNat) := by
      rw [encodeLoadByte, hrt, bytePosition_eq hp, (immediate_eq hn).2]
      rfl
    have hlead : Spells "001111100".toList 9 0b001111100 := ⟨by decide, rfl, rfl⟩
    have hzeros : Spells "000".toList 3 0 := ⟨by decide, rfl, rfl⟩
    have hp := spells_binaryDigits (w := 4) (by decide) (show 2 ^ p.val < 2 ^ 4 by omega)
    have hn := spells_binaryDigits (w := 8) (by decide) n.isLt
    refine wordOf_of_spells hencode (((((hlead.append hd).append hd).append hp).append hzeros).append hn) ?_
    simp only [Instruction.word, packed]
    omega
  | waitreg l a =>
    obtain ⟨rs, hrs, ha⟩ := registerField_eq "WaitReg instruction format error: " a
    have hlead : Spells "000000001".toList 9 0b001 := ⟨by decide, rfl, rfl⟩
    have hrest : Spells "0000000000000010000".toList 19 0b010000 := ⟨by decide, rfl, rfl⟩
    have hencode : encodeWaitRegister [registerOperand a] =
        .ok ("000000001".toList ++ rs ++ "0000000000000010000".toList) := by
      rw [encodeWaitRegister, hrs]
      rfl
    refine wordOf_of_spells hencode ((hlead.append ha).append hrest) ?_
    simp only [Instruction.word, packed]
    omega
  | @pulse l r s t a b c ha hb hc =>
    have hlead : Spells "000000001".toList 9 0b001 := ⟨by decide, rfl, rfl⟩
    have hrest : Spells "00000000001".toList 11 0b000001 := ⟨by decide, rfl, rfl⟩
    have hencode : encodePulse [.word r, .word s, .word t] =
        .ok ("000000001".toList ++ r.toList ++ s.toList ++ t.toList ++ "00000000001".toList) := rfl
    refine wordOf_of_spells hencode ((((hlead.append ha).append hb).append hc).append hrest) ?_
    simp only [Instruction.word, packed]
    omega
  | measure l => rfl
  | @wait l op n hn =>
    have hpos : n.val.toNat ≠ 0 := fun h => n.property (BitVec.eq_of_toNat_eq h)
    have hrange : ¬((n.val.toNat : Int) < cfg.minWait ∨ (n.val.toNat : Int) > cfg.maxWait) := by omega
    have hlead : Spells "11000000100000000".toList 17 (0b110000001 * 2 ^ 8) := ⟨by decide, rfl, rfl⟩
    have hticks := spells_twosComplement (w := 15) (by decide) (show (n.val.toNat : Int) % 2 ^ 15 = n.val.toNat by omega)
    have hencode : encodeWait cfg [op] = .ok ("11000000100000000".toList ++ twosComplement 15 n.val.toNat) := by
      simp only [encodeWait, hn, if_neg hrange]
      cases op with
      | number m => rfl
      | word s => simp only [isNumberWord_of_int hn, if_true]
    refine wordOf_of_spells hencode (hlead.append hticks) ?_
    simp only [Instruction.word, packed]
    omega
  | @trigger l mask op m n hm hn =>
    have hdigits : mask.toList.any (fun c => c != '0' && c != '1') = false := by
      rw [List.any_eq_false]
      intro c hc
      rcases hm.binary c (List.mem_reverse.2 hc) with rfl | rfl <;> decide
    have hlength : mask.length = 7 := by rw [← String.length_toList, ← List.length_reverse, hm.length]
    have hrange : ¬((n.toNat : Int) < 0 ∨ (n.toNat : Int) > 2047) := by omega
    have hlead : Spells "10100000100000".toList 14 (0b101000001 * 2 ^ 5) := ⟨by decide, rfl, rfl⟩
    have hencode : encodeTrigger [.word mask, op] =
        .ok ("10100000100000".toList ++ mask.toList.reverse ++ (twosComplement 12 n.toNat).drop 1) := by
      simp only [encodeTrigger, hlength, hdigits, hn, if_neg hrange]
      rfl
    refine wordOf_of_spells hencode ((hlead.append hm).append (spells_duration n)) ?_
    simp only [Instruction.word]
    omega
  | nop l => rfl

theorem mapM_wordOf (hmin : cfg.minWait ≤ 1) (hmax : 32767 ≤ cfg.maxWait) {xs : List Item} {is : List Instruction}
    (h : List.Forall₂ Denotes xs is) : xs.mapM (wordOf cfg) = .ok (is.map fun i => Int.ofNat i.word) :=
  mapM_eq_ok.2 (List.forall₂_map_right_iff.2 (h.imp fun _ _ hx => hx.wordOf_eq hmin hmax))

end

theorem expandMove_bytes (l : String) (r : BitVec 4) {op : Operand} {n : Int} (rest : List Operand) (hn : op.int? = some n) :
    ∃ (xs : List Item) (b₀ b₁ b₂ b₃ : BitVec 8), expandMove ⟨l, "mov", registerOperand r :: op :: rest⟩ = .ok xs ∧
      List.Forall₂ Denotes xs [.lui r 0 b₀, .lui r 1 b₁, .lui r 2 b₂, .lui r 3 b₃] ∧
      (b₀.toNat + 2 ^ 8 * b₁.toNat + 2 ^ 16 * b₂.toNat + 2 ^ 24 * b₃.toNat : Int) = n % 2 ^ 32 := by
  have hbyte (k : Nat) : ((BitVec.ofInt 8 (n % 2 ^ 32 / 256 ^ k)).toNat : Int) = n % Nat.pow 2 32 / Nat.pow 256 k % 256 := by
    rw [BitVec.toNat_ofInt, Int.toNat_of_nonneg (Int.emod_nonneg _ (by decide))]
    simp
  refine ⟨loadBytes l (registerOperand r) n, .ofInt 8 (n % 2 ^ 32 / 256 ^ 0), .ofInt 8 (n % 2 ^ 32 / 256 ^ 1),
    .ofInt 8 (n % 2 ^ 32 / 256 ^ 2), .ofInt 8 (n % 2 ^ 32 / 256 ^ 3), ?_, ?_, ?_⟩
  · cases op with
    | number m =>
      cases hn
      rfl
    | word s =>
      have hread : Decimal.readInt? 10 s.toList = some n := hn
      simp [expandMove, isNumberWord_of_int hread, Operand.int?, hread]
  · exact .cons (.lui l r rfl (congrArg some (hbyte 0).symm)) (.cons (.lui "" r rfl (congrArg some (hbyte 1).symm))
      (.cons (.lui "" r rfl (congrArg some (hbyte 2).symm)) (.cons (.lui "" r rfl (congrArg some (hbyte 3).symm)) .nil)))
  · rw [hbyte 0, hbyte 1, hbyte 2, hbyte 3]
    simp only [Nat.pow_eq]
    omega

/-- **The words of a program determine it.** Lines that mean instructions have words of 32 bits, which decode to the
instructions; so programs with the same words have the same instructions. The bytes that load an immediate are those of the
immediate modulo `2 ^ 32`. -/
theorem words_lossless {cfg : Settings} (hmin : cfg.minWait ≤ 1) (hmax : 32767 ≤ cfg.maxWait) :
    (∀ {xs : List Item} {is : List Instruction}, List.Forall₂ Denotes xs is →
      ∃ ws : List Nat, xs.mapM (wordOf cfg) = .ok (ws.map Int.ofNat) ∧ (∀ w ∈ ws, w < 2 ^ 32) ∧
        ws.map decode = is.map some) ∧
    (∀ {xs ys : List Item} {is js : List Instruction}, List.Forall₂ Denotes xs is → List.Forall₂ Denotes ys js →
      xs.mapM (wordOf cfg) = ys.mapM (wordOf cfg) → is = js) ∧
    ∀ (l : String) (r : BitVec 4) {op : Operand} {n : Int} (rest : List Operand), op.int? = some n →
      ∃ (xs : List Item) (b₀ b₁ b₂ b₃ : BitVec 8), expandMove ⟨l, "mov", registerOperand r :: op :: rest⟩ = .ok xs ∧
        List.Forall₂ Denotes xs [.lui r 0 b₀, .lui r 1 b₁, .lui r 2 b₂, .lui r 3 b₃] ∧
        (b₀.toNat + 2 ^ 8 * b₁.toNat + 2 ^ 16 * b₂.toNat + 2 ^ 24 * b₃.toNat : Int) = n % 2 ^ 32 := by
  refine ⟨fun {xs is} h => ⟨is.map Instruction.word, ?_, ?_, ?_⟩, fun {xs ys is js} hx hy h => ?_, expandMove_bytes⟩
  · rw [mapM_wordOf hmin hmax h, List.map_map]
    rfl
  · rw [List.forall_mem_map]
    exact fun i _ => i.word_lt
  · rw [List.map_map]
    exact List.map_congr_left fun i _ => decode_word i
  · rw [mapM_wordOf hmin hmax hx, mapM_wordOf hmin hmax hy] at h
    refine List.map_injective_iff.2 (fun i j hij => ?_) (Except.ok.inj h)
    have hword : i.word = j.word := Int.ofNat.inj hij
    exact Option.some.inj (by rw [← decode_word, hword, decode_word])

/-- A pulse on three generators, the longest trigger of the first marker and the farthest branch back. -/
theorem words_lossless_extremes : ∃ ws : List Nat,
    List.mapM (wordOf {}) [⟨"", "pulse", [.word "0001", .word "0000", .word "1111"]⟩,
      ⟨"", "trigger", [.word "1000000", .word "2047"]⟩, ⟨"back", "beq", [.word "r1", .word "r15", .number (-16384)]⟩] =
        .ok (ws.map Int.ofNat) ∧ (∀ w ∈ ws, w < 2 ^ 32) ∧
      ws.map decode = [some (.pulse 1 0 15), some (.trigger 1 2047), some (.beq 1 15 (.ofInt 15 (-16384)))] :=
  (words_lossless (by decide) (by decide)).1
    (.cons (.pulse "" ⟨by decide, rfl, rfl⟩ ⟨by decide, rfl, rfl⟩ ⟨by decide, rfl, rfl⟩)
      (.cons (.trigger "" ⟨by decide, rfl, rfl⟩ (by decide +kernel)) (.cons (.beq "back" 1 15 (by decide)) .nil)))

end QubitLab.Qumis
