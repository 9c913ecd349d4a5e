import QubitLab.Proofs.LabelTables
import QubitLab.Proofs.Timeline

/-!
# Programs that assemble

`Sound targets x` lists the items that the assembler can turn into words: waits of at least one tick, triggers of at most
2047, fields of binary digits, registers that exist, branches to known labels. Each pass keeps sound programs sound and
keeps their labels (`Assemblable`), so a sound program without a label twice assembles (`assemble_sound`). The other way
round, a trigger that is too long is still there when words are made, and so is a wait that is not positive and has no
other wait next to it (`assemble_inv`).
-/

namespace QubitLab.Qumis

open List

/-! ## Binary digits -/

/-- All digits are zero or one. -/
def Binary (cs : List Char) : Prop := ∀ c ∈ cs, c = '0' ∨ c = '1'

instance (cs : List Char) : Decidable (Binary cs) := List.decidableBAll (fun c => c = '0' ∨ c = '1') cs

variable {cs ds : List Char} {n d m : Int} {s : String} {x y w : Item} {r xs items ys out : List Item}
  {table : LabelTable}

theorem Binary.append (h : Binary cs) (h' : Binary ds) : Binary (cs ++ ds) :=
  forall_mem_append.2 ⟨h, h'⟩

theorem toDigits_binary (n : Nat) : Binary (Nat.toDigits 2 n) := by
  induction n using Nat.strongRecOn with
  | ind n ih =>
    by_cases hn : n < 2
    · rw [Nat.toDigits_of_lt_base hn]
      match n, hn with
      | 0, _ => decide
      | 1, _ => decide
    · rw [Nat.toDigits_of_base_le (by decide) (by omega)]
      refine (ih (n / 2) (by omega)).append ?_
      rcases Nat.mod_two_eq_zero_or_one n with h | h <;> rw [h] <;> decide

theorem binaryDigits_binary {width : Nat} (hn : 0 ≤ n) : Binary (binaryDigits width n) := by
  rw [binaryDigits, if_neg (by omega), Decimal.zeroPad]
  refine Binary.append (fun c hc => ?_) (toDigits_binary _)
  exact .inl (eq_of_mem_replicate hc)

theorem twosComplement_binary (width : Nat) (n : Int) : Binary (twosComplement width n) := by
  refine binaryDigits_binary (Int.emod_nonneg n ?_)
  exact Int.natCast_ne_zero.2 (Nat.pos_iff_ne_zero.1 (Nat.pow_pos (by decide)))

theorem readDigits?_binary {n : Nat} {b : Bool} (h : Binary cs) (hb : cs = [] → b = true) :
    ∃ k : Nat, Decimal.readDigits? 2 n b cs = some k ∧
      (k : Int) = cs.foldl (fun n c => 2 * n + if c == '1' then 1 else 0) (n : Int) := by
  induction cs generalizing n b with
  | nil => exact ⟨n, by rw [Decimal.readDigits?, if_pos (hb rfl)], rfl⟩
  | cons c cs ih =>
    have hcs : Binary cs := fun x hx => h x (mem_cons_of_mem c hx)
    have hstep (d : Nat) : ((n * 2 + d : Nat) : Int) = 2 * (n : Int) + d := by omega
    rcases h c mem_cons_self with rfl | rfl
    · obtain ⟨k, hk, hval⟩ := ih (n := n * 2 + 0) hcs fun _ => rfl
      exact ⟨k, hk, by rw [hval, hstep]; rfl⟩
    · obtain ⟨k, hk, hval⟩ := ih (n := n * 2 + 1) hcs fun _ => rfl
      exact ⟨k, hk, by rw [hval, hstep]; rfl⟩

theorem readInt?_binary (hne : cs ≠ []) (h : Binary cs) : Decimal.readInt? 2 cs = some (maskNumber cs) := by
  have hdigit : ∀ c ∈ cs, c.isDigit = true := fun c hc => by rcases h c hc with rfl | rfl <;> decide
  have htrim : Chars.trim cs = cs :=
    Decimal.trimBy_eq_self (fun c hc => Decimal.isBlank_of_isDigit (hdigit c (mem_of_mem_head? hc)))
      fun c hc => Decimal.isBlank_of_isDigit (hdigit c (mem_of_mem_getLast? hc))
  have hmark : Decimal.dropBaseMark 2 cs = cs := by
    match cs, h with
    | [], _ => rfl
    | [c], h => rcases h c (by simp) with rfl | rfl <;> rfl
    | c :: d :: r, h =>
      rcases h c (by simp) with rfl | rfl <;> rcases h d (by simp) with rfl | rfl <;> rfl
  obtain ⟨k, hk, hval⟩ := readDigits?_binary (n := 0) (b := false) h fun h => absurd h hne
  rw [Decimal.readInt?, htrim, Decimal.takeSign_digits hdigit]
  simp only [hmark, hk]
  exact congrArg some hval

/-! ## Numbers as operands -/

theorem spanDigits_digits (h : ∀ c ∈ cs, c.isDigit = true) (b : Bool) :
    ∃ ds, Decimal.spanDigits b cs = (ds, []) ∧ (cs ≠ [] → ds ≠ []) := by
  induction cs generalizing b with
  | nil => exact ⟨[], rfl, fun h => absurd rfl h⟩
  | cons c cs ih =>
    obtain ⟨ds, hds, -⟩ := ih (fun x hx => h x (mem_cons_of_mem c hx)) true
    have hc : c ≠ '_' := by
      rintro rfl
      exact absurd (h _ mem_cons_self) (by decide)
    refine ⟨(c.toNat - 48) :: ds, ?_, by simp⟩
    rw [Decimal.spanDigits]
    · simp only [(Decimal.digit?_of_isDigit (h c mem_cons_self)).1, hds]
    · rintro d r rfl
      exact absurd rfl hc

theorem isNumberWord_digits (hne : s.toList ≠ []) (h : ∀ c ∈ s.toList, c.isDigit = true) : isNumberWord s = true := by
  have htrim : Chars.trim s.toList = s.toList :=
    Decimal.trimBy_eq_self (fun c hc => Decimal.isBlank_of_isDigit (h c (mem_of_mem_head? hc)))
      fun c hc => Decimal.isBlank_of_isDigit (h c (mem_of_mem_getLast? hc))
  obtain ⟨ds, hds, hdne⟩ := spanDigits_digits h false
  rw [isNumberWord, Decimal.readReal?, htrim, Decimal.takeSign_digits h]
  simp only [Option.isSome_map, Decimal.readMagnitude?, hds]
  split
  · rfl
  · split
    · rfl
    · simp [hdne hne, Decimal.readExponent?]

theorem isNumberWord_intText (hn : 0 ≤ n) : isNumberWord (Decimal.intText n) = true := by
  have hlist : (Decimal.intText n).toList = Nat.toDigits 10 n.natAbs := by
    rw [Decimal.toList_intText, if_neg (by omega), nil_append]
  refine isNumberWord_digits ?_ ?_ <;> rw [hlist]
  · exact Nat.toDigits_ne_nil
  · exact fun c hc => Decimal.isDigit_of_mem_toDigits hc

/-! ## Sound items -/

/-- Items that can become words, when branches may go to the targets: waits of at least one tick, loads of a number,
branches, and what is a word as it is. -/
inductive Sound (cfg : Settings) (targets : List String) : Item → Prop
  | wait (l : String) {s : String} {n : Int} (hs : isNumberWord s = true) (hn : Decimal.readInt? 10 s.toList = some n)
      (h1 : 1 ≤ n) : Sound cfg targets ⟨l, "wait", [.word s]⟩
  | move (l : String) {r s : String} {k n : Int} (rest : List Operand) (hr : registerNumber r = .ok k)
      (hs : isNumberWord s = true) (hn : Decimal.readInt? 10 s.toList = some n) :
      Sound cfg targets ⟨l, "mov", .word r :: .word s :: rest⟩
  | branch {x : Item} {a b t : String} {m n : Int} (hx : x.isBranch = true)
      (hops : x.operands = [.word a, .word b, .word t]) (ha : registerNumber a = .ok m) (hb : registerNumber b = .ok n)
      (ht : t ∈ targets) : Sound cfg targets x
  | plain {x : Item} (hx : x.name ≠ "wait" ∧ x.isBranch = false) {w : Int} (hw : wordOf cfg x = .ok w) :
      Sound cfg targets x

theorem name_of_word {cfg : Settings} {w : Int} (h : wordOf cfg x = .ok w) : x.name ≠ "" ∧ x.name ≠ "mov" := by
  obtain ⟨ds, hds, -⟩ := bind_eq_ok.1 h
  constructor <;>
    · intro hn
      rw [hn] at hds
      simp [encode] at hds

section
variable {cfg : Settings} {L : List String}

theorem isBranch_name (h : x.isBranch = true) : x.name = "beq" ∨ x.name = "bne" := by simpa [Item.isBranch] using h

theorem Sound.name_ne (h : Sound cfg L x) : x.name ≠ "" := by
  cases h with
  | wait => simp
  | move => simp
  | branch hx => rcases isBranch_name hx with h | h <;> simp [h]
  | plain _ hw => exact (name_of_word hw).1

theorem Sound.mono {L' : List String} (h : Sound cfg L x) (hL : L ⊆ L') : Sound cfg L' x := by
  cases h with
  | wait l hs hn h1 => exact .wait l hs hn h1
  | move l rest hr hs hn => exact .move l rest hr hs hn
  | branch hx hops ha hb ht => exact .branch hx hops ha hb (hL ht)
  | plain hx hw => exact .plain hx hw

theorem Sound.relabel (h : Sound cfg L x) (l : String) : Sound cfg L { x with label := l } := by
  cases h with
  | wait _ hs hn h1 => exact .wait l hs hn h1
  | move _ rest hr hs hn => exact .move l rest hr hs hn
  | branch hx hops ha hb ht => exact .branch hx hops ha hb ht
  | plain hx hw => exact .plain hx hw

theorem Sound.nop (l : String) : Sound cfg L ⟨l, "nop", []⟩ := .plain (w := 0) ⟨by simp, rfl⟩ (by rfl)

theorem sound_waitItem (l : String) (h1 : 1 ≤ n) : Sound cfg L (waitItem l n []) :=
  .wait l (isNumberWord_intText (by omega)) (Decimal.readInt?_intText n) h1

/-- A sound wait waits for at least one tick. -/
theorem Sound.wait_inv (h : Sound cfg L x) (hw : x.name = "wait") :
    ∃ s n, isNumberWord s = true ∧ Decimal.readInt? 10 s.toList = some n ∧ 1 ≤ n ∧ x = ⟨x.label, "wait", [.word s]⟩ := by
  cases h with
  | @wait l s n hs hn h1 => exact ⟨s, n, hs, hn, h1, rfl⟩
  | move => simp at hw
  | branch hx => rcases isBranch_name hx with h | h <;> simp [h] at hw
  | plain hx => exact absurd hw hx.1

theorem Sound.move_inv (h : Sound cfg L x) (hm : x.name = "mov") :
    ∃ r s k n rest, registerNumber r = .ok k ∧ isNumberWord s = true ∧ Decimal.readInt? 10 s.toList = some n ∧
      x = ⟨x.label, "mov", .word r :: .word s :: rest⟩ := by
  cases h with
  | wait => simp at hm
  | @move l r s k n rest hr hs hn => exact ⟨r, s, k, n, rest, hr, hs, hn, rfl⟩
  | branch hx => rcases isBranch_name hx with h | h <;> simp [h] at hm
  | plain _ hw => exact absurd hm (name_of_word hw).2

end

/-- A program of sound items with given labels. -/
structure Assemblable (cfg : Settings) (L : List String) (xs : List Item) : Prop where
  sound : ∀ x ∈ xs, Sound cfg L x
  labels : labelsOf xs = L

section
variable {cfg : Settings} {L : List String}

theorem labelTable_ok (h : labelsOf xs = L) (hL : L.Nodup) (file : String) :
    ∃ table, labelTable file xs = .ok table ∧ ∀ t ∈ L, ∃ i, table.lookup t = some i := by
  refine ⟨_, labelTable_eq_ok.2 ⟨rfl, h.symm ▸ hL⟩, fun t ht => Option.isSome_iff_exists.1 (lookup_isSome.2 ?_)⟩
  rwa [addresses_fst, h]

theorem Assemblable.align (h : Assemblable cfg L xs) (hL : L.Nodup) (file : String) : align file xs = .ok xs := by
  rw [align_ok (h.labels.symm ▸ hL), alignItems_named fun x hx => (h.sound x hx).name_ne]

/-! ## Passes over sound programs -/

/-- A pass that works item by item keeps labels and makes items of a kind if it does so for each item. -/
theorem pass_ok (pass : List Item → Except AsmError (List Item)) {f : Item → Except AsmError (List Item)} {P Q : Item → Prop}
    (hnil : pass [] = .ok [])
    (hcons : ∀ x r, pass (x :: r) = do
      let ys ← f x
      let zs ← pass r
      return ys ++ zs)
    (hf : ∀ x, P x → ∃ ys, f x = .ok ys ∧ (∀ y ∈ ys, Q y) ∧ labelsOf ys = labelsOf [x]) (h : ∀ x ∈ xs, P x) :
    ∃ ys, pass xs = .ok ys ∧ (∀ y ∈ ys, Q y) ∧ labelsOf ys = labelsOf xs := by
  induction xs with
  | nil => exact ⟨[], hnil, by simp, rfl⟩
  | cons x xs ih =>
    rw [forall_mem_cons] at h
    obtain ⟨ys, hys, hy, hly⟩ := hf x h.1
    obtain ⟨zs, hzs, hz, hlz⟩ := ih h.2
    refine ⟨ys ++ zs, ?_, forall_mem_append.2 ⟨hy, hz⟩, ?_⟩
    · rw [hcons, hys, hzs]
      rfl
    · rw [labelsOf_append, labelsOf_cons x, hly, hlz]

theorem Assemblable.nopsAfterBranches (h : Assemblable cfg L xs) (n : Nat) :
    Assemblable cfg L (nopsAfterBranches n xs) := by
  have hitem : ∀ x, Sound cfg L x → ∃ ys, (.ok (if x.isBranch then x :: List.replicate n ⟨"", "nop", []⟩ else [x]) :
      Except AsmError (List Item)) = .ok ys ∧ (∀ y ∈ ys, Sound cfg L y) ∧ labelsOf ys = labelsOf [x] := by
    intro x hx
    refine ⟨_, rfl, ?_⟩
    split
    · refine ⟨forall_mem_cons.2 ⟨hx, fun y hy => ?_⟩, ?_⟩
      · rw [eq_of_mem_replicate hy]
        exact .nop ""
      · rw [labelsOf_cons, labelsOf_unlabelled (List.replicate n _) fun y hy => by rw [eq_of_mem_replicate hy],
          append_nil]
    · exact ⟨by simpa using hx, rfl⟩
  obtain ⟨ys, hys, hsound, hlabels⟩ := pass_ok (fun xs => .ok (Qumis.nopsAfterBranches n xs)) rfl
    (fun x r => rfl) hitem h.sound
  cases hys
  exact ⟨hsound, hlabels.trans h.labels⟩

theorem intText_ne_zero (hn : n ≠ 0) : Decimal.intText n ≠ "0" := by
  intro h
  have hread := Decimal.readInt?_intText n
  rw [h, show Decimal.readInt? 10 "0".toList = some 0 by decide +kernel] at hread
  cases hread
  exact hn rfl

theorem clearZeroWaits_eq (h : ∀ x ∈ xs, x.name = "wait" → ∃ op rest, x.operands = op :: rest ∧ op ≠ .word "0") :
    clearZeroWaits xs = .ok xs := by
  induction xs with
  | nil => rfl
  | cons x xs ih =>
    rw [forall_mem_cons] at h
    rw [clearZeroWaits, ih h.2]
    split
    · rename_i hw
      obtain ⟨op, rest, hx, hop⟩ := h.1 hw
      simp only [hx, if_neg hop]
      rfl
    · rfl

theorem Sound.wait_operands (h : Sound cfg L x) (hw : x.name = "wait") :
    ∃ op rest, x.operands = op :: rest ∧ op ≠ .word "0" := by
  obtain ⟨s, n, -, hn, h1, hx⟩ := h.wait_inv hw
  refine ⟨.word s, [], congrArg Item.operands hx, fun hs => ?_⟩
  rw [Operand.word.inj hs, show Decimal.readInt? 10 "0".toList = some 0 by decide +kernel] at hn
  cases hn
  omega

/-- An item that needs no further pass: no load to expand, and no wait above the longest. -/
structure Ready (cfg : Settings) (L : List String) (x : Item) : Prop where
  sound : Sound cfg L x
  name_ne : x.name ≠ "mov"
  short : x.name = "wait" → x.waiting ≤ cfg.maxWait

theorem ready_waitItem (l : String) (h1 : 1 ≤ n) (hm : n ≤ cfg.maxWait) : Ready cfg L (waitItem l n []) :=
  ⟨sound_waitItem l h1, by simp [waitItem], fun _ => by rwa [waiting_waitItem]⟩

theorem waitChunks_ready (hm : 1 ≤ cfg.maxWait) (hn : 1 ≤ n) :
    ∀ y ∈ waitChunks cfg.maxWait n, Ready cfg L y ∧ y.label = "" := by
  have hk : (n - 1) / cfg.maxWait * cfg.maxWait ≤ n - 1 := Int.ediv_mul_le _ (by omega)
  have hk' : n - 1 < ((n - 1) / cfg.maxWait + 1) * cfg.maxWait := Int.lt_ediv_add_one_mul_self _ (by omega)
  have hdiv : 0 ≤ (n - 1) / cfg.maxWait := Int.ediv_nonneg (by omega) (by omega)
  rw [Int.add_mul, Int.one_mul] at hk'
  intro y hy
  simp only [waitChunks, if_pos (show 0 < cfg.maxWait by omega), Int.toNat_of_nonneg hdiv] at hy
  rcases mem_append.1 hy with hy | hy
  · rw [eq_of_mem_replicate hy]
    exact ⟨ready_waitItem "" hm (Int.le_refl _), rfl⟩
  · rw [mem_singleton.1 hy]
    exact ⟨ready_waitItem "" (by omega) (by omega), rfl⟩

/-- A wait that is too long becomes waits that are not. -/
theorem splitWait_ready (hm : 1 ≤ cfg.maxWait) (hx : Sound cfg L x ∧ x.name ≠ "mov") :
    ∃ ys, splitWait cfg.maxWait x = .ok ys ∧ (∀ y ∈ ys, Ready cfg L y) ∧ labelsOf ys = labelsOf [x] := by
  by_cases hw : x.name ≠ "wait"
  · exact ⟨[x], if_neg hw, by simpa using ⟨hx.1, hx.2, fun h => absurd h hw⟩, rfl⟩
  obtain ⟨s, n, hs, hn, h1, hwait⟩ := hx.1.wait_inv (not_not.1 hw)
  rw [hwait, splitWait]
  simp only [if_true, Operand.int?, hn]
  by_cases hlong : 0 < cfg.maxWait ∧ n > cfg.maxWait
  · have hrest := waitChunks_ready (L := L) hm (n := n - cfg.maxWait) (by omega)
    rw [if_pos hlong]
    refine ⟨_, rfl, forall_mem_cons.2 ⟨ready_waitItem _ hm (Int.le_refl _), fun y hy => (hrest y hy).1⟩, ?_⟩
    rw [labelsOf_cons, labelsOf_unlabelled _ fun y hy => (hrest y hy).2, append_nil]
    rfl
  · rw [if_neg hlong]
    refine ⟨_, rfl, forall_mem_singleton.2 ⟨.wait _ hs hn h1, by simp, fun _ => ?_⟩, rfl⟩
    simp only [Item.waiting, head?_cons, Option.bind_some, Operand.int?, hn, Option.getD_some]
    omega

theorem Ready.ticks (hx : Ready cfg L x) (hw : x.name = "wait") :
    ∃ n, x.ticks? = .ok n ∧ 1 ≤ n ∧ x.operands.drop 1 = [] := by
  obtain ⟨s, n, -, hn, h1, hwait⟩ := hx.sound.wait_inv hw
  refine ⟨n, ?_, h1, ?_⟩ <;> rw [hwait]
  · simp only [Item.ticks?, Operand.int?, hn]
  · rfl

theorem mergeFrom_ready (hx : Ready cfg L x) (hr : ∀ y ∈ r, Ready cfg L y) :
    ∃ ys, mergeFrom cfg.maxWait x r = .ok ys ∧ (∀ y ∈ ys, Ready cfg L y) ∧ labelsOf ys = labelsOf (x :: r) := by
  induction r generalizing x with
  | nil => exact ⟨[x], rfl, by simpa using hx, rfl⟩
  | cons y r ih =>
    rw [forall_mem_cons] at hr
    -- two items that stay apart
    have hapart : ∃ ys, (do
        let ys ← mergeFrom cfg.maxWait y r
        return x :: ys) = (.ok ys : Except AsmError (List Item)) ∧ (∀ y ∈ ys, Ready cfg L y) ∧
        labelsOf ys = labelsOf (x :: y :: r) := by
      obtain ⟨ys, hys, hready, hlabels⟩ := ih hr.1 hr.2
      refine ⟨x :: ys, by rw [hys]; rfl, forall_mem_cons.2 ⟨hx, hready⟩, ?_⟩
      rw [labelsOf_cons, hlabels, ← labelsOf_cons]
    rw [mergeFrom]
    split
    · rename_i hw
      obtain ⟨a, hta, ha, hdrop⟩ := hx.ticks hw.1
      obtain ⟨b, htb, hb, -⟩ := hr.1.ticks hw.2.2
      rw [hta, htb, hdrop]
      by_cases hsum : a + b < cfg.maxWait
      · obtain ⟨ys, hys, hready, hlabels⟩ := ih (ready_waitItem x.label (n := a + b) (by omega) (by omega)) hr.2
        refine ⟨ys, ?_, hready, ?_⟩
        · simp only [bind, Except.bind, if_pos hsum, hys]
        · rw [hlabels, labelsOf_cons, labelsOf_cons x, labelsOf_cons y, labelsOf_unlabelled [y] (by simpa using hw.2.1)]
          rfl
      · obtain ⟨ys, hys, hready, hlabels⟩ := hapart
        refine ⟨ys, ?_, hready, hlabels⟩
        simp only [bind, Except.bind, if_neg hsum] at hys ⊢
        exact hys
    · exact hapart

theorem mergeWaits_ready (h : ∀ x ∈ xs, Ready cfg L x) :
    ∃ ys, mergeWaits cfg.maxWait xs = .ok ys ∧ (∀ y ∈ ys, Ready cfg L y) ∧ labelsOf ys = labelsOf xs := by
  cases xs with
  | nil => exact ⟨[], rfl, by simp, rfl⟩
  | cons x r =>
    rw [forall_mem_cons] at h
    exact mergeFrom_ready h.1 h.2

theorem Assemblable.nopsAfterLabels (h : Assemblable cfg L xs) : Assemblable cfg L (nopsAfterLabels xs) := by
  have hitem : ∀ x, Sound cfg L x → ∃ ys, (.ok (if x.label = "" ∨ x.name = "nop" then [x] else
      [⟨x.label, "nop", []⟩, { x with label := "" }]) : Except AsmError (List Item)) = .ok ys ∧
      (∀ y ∈ ys, Sound cfg L y) ∧ labelsOf ys = labelsOf [x] := by
    intro x hx
    refine ⟨_, rfl, ?_⟩
    split
    · exact ⟨by simpa using hx, rfl⟩
    · refine ⟨?_, ?_⟩
      · simpa using ⟨Sound.nop x.label, hx.relabel ""⟩
      · rw [labelsOf_cons, labelsOf_unlabelled [{ x with label := "" }] (by simp), append_nil]
        rfl
  obtain ⟨ys, hys, hsound, hlabels⟩ := pass_ok (fun xs => .ok (Qumis.nopsAfterLabels xs)) rfl
    (fun x r => rfl) hitem h.sound
  cases hys
  exact ⟨hsound, hlabels.trans h.labels⟩

/-! ## Words -/

theorem registerNumber_range (h : registerNumber s = .ok n) : 0 ≤ n ∧ n ≤ 15 := by
  rw [registerNumber] at h
  split at h
  · cases h
  · obtain ⟨k, -, h⟩ := bind_eq_ok.1 h
    split at h
    · cases h
    · cases h
      omega

theorem registerField_ok {r : String} {k : Int} (hr : registerNumber r = .ok k) (lead : String) :
    registerField lead (.word r) = .ok (binaryDigits 4 k) ∧ Binary (binaryDigits 4 k) :=
  ⟨by rw [registerField, hr]; rfl, binaryDigits_binary (registerNumber_range hr).1⟩

theorem registerField_binary {lead : String} {op : Operand} (h : registerField lead op = .ok ds) : Binary ds := by
  cases op with
  | number n => cases h
  | word s =>
    rw [registerField] at h
    cases hr : registerNumber s with
    | error e =>
      rw [hr] at h
      cases h
    | ok m =>
      rw [hr] at h
      cases h
      exact binaryDigits_binary (registerNumber_range hr).1

theorem wordOf_ok (ds : List Char) (h : encode cfg x.name x.operands = .ok ds) (hne : ds ≠ [])
    (hb : Binary ds) : ∃ n, wordOf cfg x = .ok n := by
  refine ⟨maskNumber ds, ?_⟩
  rw [wordOf, h]
  simp only [bind, Except.bind, readInt?_binary hne hb]

section
variable (cfg) (l : String)

theorem wait_word (hs : isNumberWord s = true) (hn : Decimal.readInt? 10 s.toList = some n)
    (hmin : cfg.minWait ≤ n) (hmax : n ≤ cfg.maxWait) : ∃ k, wordOf cfg ⟨l, "wait", [.word s]⟩ = .ok k := by
  refine wordOf_ok ("11000000100000000".toList ++ twosComplement 15 n) ?_ (by simp)
    (Binary.append (by decide) (twosComplement_binary 15 n))
  have hrange : ¬(n < cfg.minWait ∨ n > cfg.maxWait) := by omega
  simp only [encode, encodeWait, Operand.int?, hn, if_neg hrange, hs, if_true]

theorem load_word {r : String} {k p b : Int} (hr : registerNumber r = .ok k) (hp : 0 ≤ p ∧ p ≤ 3) (hb : 0 ≤ b) :
    ∃ n, wordOf cfg ⟨l, "lui", [.word r, .number p, .number b]⟩ = .ok n := by
  obtain ⟨hfield, hbin⟩ := registerField_ok hr "Lui instruction format error:"
  refine wordOf_ok ("001111100".toList ++ binaryDigits 4 k ++ binaryDigits 4 k ++ binaryDigits 4 (Nat.pow 2 p.toNat) ++
    "000".toList ++ binaryDigits 8 b) ?_ (by simp) ?_
  · have hpos : bytePosition (.number p) = .ok p := by
      have hrange : ¬(p < 0 ∨ p > 3) := by omega
      simp only [bytePosition, operandInt, bind, Except.bind, if_neg hrange]
    simp only [encode, encodeLoadByte, hfield, hpos, operandInt, withLead]
    rfl
  · exact (((((show Binary "001111100".toList by decide).append hbin).append hbin).append
      (binaryDigits_binary (Int.natCast_nonneg _))).append (by decide)).append (binaryDigits_binary hb)

theorem trigger_word {mask : String} (hl : mask.length = 7) (hm : Binary mask.toList) (hd : 0 ≤ d ∧ d ≤ 2047) :
    ∃ k, wordOf cfg ⟨l, "trigger", [.word mask, .word (Decimal.intText d)]⟩ = .ok k := by
  refine wordOf_ok ("10100000100000".toList ++ mask.toList.reverse ++ (twosComplement 12 d).drop 1) ?_ (by simp) ?_
  · have hdigits : mask.toList.any (fun c => c != '0' && c != '1') = false := by
      rw [any_eq_false]
      intro c hc
      rcases hm c hc with rfl | rfl <;> decide
    have hrange : ¬(d < 0 ∨ d > 2047) := by omega
    simp only [encode, encodeTrigger, hl, hdigits, Operand.int?, Decimal.readInt?_intText, if_neg hrange]
    rfl
  · refine ((show Binary "10100000100000".toList by decide).append fun c hc => hm c (mem_reverse.1 hc)).append ?_
    exact fun c hc => twosComplement_binary 12 d c (mem_of_mem_drop hc)

theorem pulse_word {a b c : String} (ha : Binary a.toList) (hb : Binary b.toList) (hc : Binary c.toList) :
    ∃ k, wordOf cfg ⟨l, "pulse", [.word a, .word b, .word c]⟩ = .ok k :=
  wordOf_ok ("000000001".toList ++ a.toList ++ b.toList ++ c.toList ++ "00000000001".toList) rfl (by simp)
    (((((show Binary "000000001".toList by decide).append ha).append hb).append hc).append (by decide))

end

/-- The digits of a branch, of which the last 15 are its offset. -/
theorem encode_branch (hx : x.isBranch = true) {a b : Operand}
    (hops : x.operands = [a, b, .number d]) (h : encode cfg x.name x.operands = .ok ds) :
    ∃ front, Binary front ∧ ds = front ++ twosComplement 15 d := by
  have hbranch {lead code : String} (hcode : Binary code.toList) (h : encodeBranch lead code [a, b, .number d] = .ok ds) :
      ∃ front, Binary front ∧ ds = front ++ twosComplement 15 d := by
    obtain ⟨rs, hrs, h⟩ := bind_eq_ok.1 h
    obtain ⟨rt, hrt, h⟩ := bind_eq_ok.1 h
    obtain ⟨n, hn, h⟩ := bind_eq_ok.1 h
    cases hn
    cases h
    exact ⟨_, ((hcode.append (by decide)).append (registerField_binary hrs)).append (registerField_binary hrt), rfl⟩
  rw [hops] at h
  rcases isBranch_name hx with hname | hname <;> rw [hname] at h
  · exact hbranch (by decide) h
  · exact hbranch (by decide) h

theorem branch_word (hx : x.isBranch = true) {a b : String}
    (hops : x.operands = [.word a, .word b, .number d]) (ha : registerNumber a = .ok m) (hb : registerNumber b = .ok n) :
    ∃ k, wordOf cfg x = .ok k := by
  have hencode (lead code : String) : encodeBranch lead code [.word a, .word b, .number d] =
      .ok (code.toList ++ "100".toList ++ binaryDigits 4 m ++ binaryDigits 4 n ++ twosComplement 15 d) := by
    simp only [encodeBranch, (registerField_ok ha lead).1, (registerField_ok hb lead).1, immediate, withLead]
    rfl
  obtain ⟨ds, hds⟩ : ∃ ds, encode cfg x.name x.operands = .ok ds := by
    rw [hops]
    rcases isBranch_name hx with hname | hname <;> rw [hname]
    · exact ⟨_, hencode _ _⟩
    · exact ⟨_, hencode _ _⟩
  obtain ⟨front, hfront, rfl⟩ := encode_branch hx hops hds
  refine wordOf_ok _ hds (fun hnil => ?_) (hfront.append (twosComplement_binary 15 d))
  have := (append_eq_nil_iff.1 hnil).2
  rw [twosComplement, binaryDigits, if_neg (Int.not_lt.2 (Int.emod_nonneg _ (by decide))), Decimal.zeroPad,
    append_eq_nil_iff] at this
  exact Nat.toDigits_ne_nil this.2

theorem expandMove_sound (hx : Sound cfg L x) :
    ∃ ys, expandMove x = .ok ys ∧ (∀ y ∈ ys, Sound cfg L y ∧ y.name ≠ "mov") ∧ labelsOf ys = labelsOf [x] := by
  by_cases hm : x.name ≠ "mov"
  · exact ⟨[x], if_neg hm, by simpa using ⟨hx, hm⟩, rfl⟩
  obtain ⟨r, s, k, n, rest, hr, hs, hn, hmove⟩ := hx.move_inv (not_not.1 hm)
  refine ⟨loadBytes x.label (.word r) n, ?_, ?_, ?_⟩
  · rw [hmove]
    simp [expandMove, hs, Operand.int?, hn]
  · intro y hy
    have hbyte (k : Nat) : 0 ≤ n % Nat.pow 2 32 / Nat.pow 256 k % 256 := Int.emod_nonneg _ (by decide)
    have hload (l : String) {p b : Int} (hp : 0 ≤ p ∧ p ≤ 3) (hb : 0 ≤ b) :
        Sound cfg L ⟨l, "lui", [.word r, .number p, .number b]⟩ ∧ "lui" ≠ "mov" := by
      obtain ⟨w, hw⟩ := load_word cfg l hr hp hb
      exact ⟨.plain ⟨by simp, rfl⟩ hw, by simp⟩
    simp only [loadBytes, mem_cons, not_mem_nil, or_false] at hy
    rcases hy with rfl | rfl | rfl | rfl
    · exact hload x.label (by decide) (hbyte 0)
    · exact hload "" (by decide) (hbyte 1)
    · exact hload "" (by decide) (hbyte 2)
    · exact hload "" (by decide) (hbyte 3)
  · rw [loadBytes, labelsOf_cons, labelsOf_unlabelled [_, _, _] (by simp), append_nil]
    rfl

/-- **A ready item becomes a word**, a branch by way of its offset. -/
theorem Ready.word (hmin : cfg.minWait ≤ 1) (htable : ∀ t ∈ L, ∃ i, table.lookup t = some i) (hx : Ready cfg L x)
    (i : Nat) : ∃ y n, resolveBranch table i x = .ok y ∧ wordOf cfg y = .ok n := by
  obtain ⟨hsound, hmov, hshort⟩ := hx
  have hstay (hb : x.isBranch = false) (h : ∃ n, wordOf cfg x = .ok n) :
      ∃ y n, resolveBranch table i x = .ok y ∧ wordOf cfg y = .ok n := by
    obtain ⟨n, hn⟩ := h
    exact ⟨x, n, by rw [resolveBranch, hb]; rfl, hn⟩
  cases hsound with
  | @wait l s n hs hn h1 =>
    have hmax : n ≤ cfg.maxWait := by
      have := hshort rfl
      simpa only [Item.waiting, head?_cons, Option.bind_some, Operand.int?, hn, Option.getD_some] using this
    exact hstay rfl (wait_word cfg l hs hn (by omega) hmax)
  | move => simp at hmov
  | plain hx hw => exact hstay hx.2 ⟨_, hw⟩
  | @branch _ a b t m n hx hops ha hb ht =>
    obtain ⟨addr, haddr⟩ := htable t ht
    obtain ⟨k, hk⟩ : ∃ k, wordOf cfg { x with operands := [.word a, .word b, .number ((addr : Int) - (i + 1))] } = .ok k :=
      branch_word hx rfl ha hb
    exact ⟨_, k, by simp [resolveBranch, hx, hops, Operand.text, haddr], hk⟩

theorem resolveFrom_words (hmin : cfg.minWait ≤ 1) (htable : ∀ t ∈ L, ∃ i, table.lookup t = some i)
    (h : ∀ x ∈ xs, Ready cfg L x) (i : Nat) :
    ∃ ys words, resolveFrom table i xs = .ok ys ∧ ys.mapM (wordOf cfg) = .ok words := by
  induction xs generalizing i with
  | nil => exact ⟨[], [], rfl, rfl⟩
  | cons x xs ih =>
    rw [forall_mem_cons] at h
    obtain ⟨y, n, hy, hn⟩ := h.1.word hmin htable i
    obtain ⟨ys, words, hys, hwords⟩ := ih h.2 (i + 1)
    refine ⟨y :: ys, n :: words, ?_, ?_⟩
    · rw [resolveFrom, hy, hys]
      rfl
    · rw [mapM_cons, hn, hwords]
      rfl

end

/-! ## Whole programs -/

/-- A program with a `nop` after each label and some after each branch, as the settings say. -/
def padded (cfg : Settings) (xs : List Item) : List Item :=
  let labelled := if cfg.nopAfterLabel then nopsAfterLabels xs else xs
  if cfg.nopAfterBranch then nopsAfterBranches cfg.branchNops labelled else labelled

/-- The passes behind the alignment of labels. -/
def emitItems (cfg : Settings) (xs : List Item) : Except AsmError (List Item) := do
  let moved ← expandMoves (padded cfg xs)
  let split ← splitWaits cfg.maxWait moved
  mergeWaits cfg.maxWait split

section
variable {cfg : Settings} {L : List String}

theorem endLoop_sound (h : "end_of_file_loop" ∈ L) : ∀ x ∈ endLoop, Sound cfg L x := by
  have hr : registerNumber "r0" = .ok 0 := by decide +kernel
  intro x hx
  simp only [endLoop, mem_cons, not_mem_nil, or_false] at hx
  rcases hx with rfl | rfl | rfl
  · exact sound_waitItem "end_of_file_loop" (n := 1000) (by decide)
  · obtain ⟨w, hw⟩ := trigger_word cfg "" (show "0000001".length = 7 from rfl) (by decide) (show (0 : Int) ≤ 1000 ∧ _ by decide)
    exact .plain ⟨by simp, rfl⟩ hw
  · exact .branch rfl rfl hr hr h

theorem Assemblable.padded (h : Assemblable cfg L xs) : Assemblable cfg L (padded cfg xs) := by
  have hlabelled : Assemblable cfg L (if cfg.nopAfterLabel then Qumis.nopsAfterLabels xs else xs) := by
    split
    · exact h.nopsAfterLabels
    · exact h
  rw [Qumis.padded]
  split
  · exact hlabelled.nopsAfterBranches _
  · exact hlabelled

theorem expandMoves_assemblable (h : Assemblable cfg L xs) :
    ∃ ys, expandMoves xs = .ok ys ∧ Assemblable cfg L ys ∧ ∀ y ∈ ys, Sound cfg L y ∧ y.name ≠ "mov" := by
  obtain ⟨moved, hmoved, hsound, hlabels⟩ := pass_ok expandMoves rfl (fun _ _ => rfl) (fun x hx => expandMove_sound hx) h.sound
  exact ⟨moved, hmoved, ⟨fun x hx => (hsound x hx).1, hlabels.trans h.labels⟩, hsound⟩

theorem emitItems_ready (hmax : 1 ≤ cfg.maxWait) (h : Assemblable cfg L xs) :
    ∃ ys, emitItems cfg xs = .ok ys ∧ (∀ y ∈ ys, Ready cfg L y) ∧ labelsOf ys = L := by
  obtain ⟨moved, hmoved, hmoves, hsound⟩ := expandMoves_assemblable h.padded
  obtain ⟨split, hsplit, hready, hslabels⟩ := pass_ok (splitWaits cfg.maxWait) rfl (fun _ _ => rfl)
    (fun x hx => splitWait_ready hmax hx) hsound
  obtain ⟨ys, hys, hyready, hylabels⟩ := mergeWaits_ready hready
  refine ⟨ys, ?_, hyready, hylabels.trans (hslabels.trans hmoves.labels)⟩
  simp only [emitItems, bind, Except.bind, hmoved, hsplit, hys]

/-- A sound program has nothing to align, so that only the last passes change it. -/
theorem expand_eq_emitItems (h : Assemblable cfg L items) (hL : (L ++ ["end_of_file_loop"]).Nodup) :
    Assemblable cfg (L ++ ["end_of_file_loop"]) (items ++ endLoop) ∧ expand cfg items = emitItems cfg (items ++ endLoop) := by
  have hlooped : Assemblable cfg (L ++ ["end_of_file_loop"]) (items ++ endLoop) := by
    refine ⟨forall_mem_append.2 ⟨fun x hx => (h.sound x hx).mono (subset_append_left _ _),
      endLoop_sound (by simp)⟩, ?_⟩
    rw [labelsOf_append, h.labels]
    rfl
  obtain ⟨moved, hmoved, hmoves, -⟩ := expandMoves_assemblable hlooped.padded
  refine ⟨hlooped, ?_⟩
  rw [expand, hlooped.align hL]
  have hpad := hlooped.padded.align hL cfg.file
  rw [padded] at hpad hmoved
  simp only [emitItems, padded, bind, Except.bind, clearZeroWaits_eq fun x hx => (hlooped.sound x hx).wait_operands,
    hlooped.align hL, hpad, hmoved, hmoves.align hL]

/-- Items that are ready become words. -/
theorem words_of_ready (hmin : cfg.minWait ≤ 1) (hready : ∀ y ∈ ys, Ready cfg L y)
    (hlabels : labelsOf ys = L) (hL : L.Nodup) : ∃ resolved words, labelTable cfg.file ys = .ok (addresses 0 ys) ∧
      resolveBranches (addresses 0 ys) ys = .ok resolved ∧ resolved.mapM (wordOf cfg) = .ok words := by
  obtain ⟨table, htable, hlook⟩ := labelTable_ok hlabels hL cfg.file
  obtain ⟨resolved, words, hresolved, hwords⟩ := resolveFrom_words hmin hlook hready 0
  obtain rfl := (labelTable_eq_ok.1 htable).1
  exact ⟨resolved, words, htable, hresolved, hwords⟩

/-- **A sound program assembles.** -/
theorem assemble_sound (hmin : cfg.minWait ≤ 1) (hmax : 1 ≤ cfg.maxWait) {text : String}
    (hparse : parse cfg (validLines text) = .ok items) (h : Assemblable cfg L items)
    (hL : (L ++ ["end_of_file_loop"]).Nodup) : ∃ image, assemble cfg text = .ok image := by
  obtain ⟨hlooped, hexpand⟩ := expand_eq_emitItems h hL
  obtain ⟨ys, hys, hready, hlabels⟩ := emitItems_ready hmax hlooped
  obtain ⟨resolved, words, htable, hresolved, hwords⟩ := words_of_ready hmin hready hlabels hL
  refine ⟨⟨words, addresses 0 ys⟩, ?_⟩
  rw [assemble, hparse]
  simp only [bind, Except.bind, hexpand, hys, htable, hresolved, hwords]
  rfl

end

/-! ## What is still there when words are made -/

section
variable {f : Item → Except AsmError (List Item)} {pass : List Item → Except AsmError (List Item)}

theorem pass_append (hnil : pass [] = .ok []) (hcons : ∀ x r, pass (x :: r) = do
      let ys ← f x
      let zs ← pass r
      return ys ++ zs) (h : pass (xs ++ ys) = .ok out) :
    ∃ a b, pass xs = .ok a ∧ pass ys = .ok b ∧ out = a ++ b := by
  induction xs generalizing out with
  | nil => exact ⟨[], out, hnil, h, rfl⟩
  | cons x xs ih =>
    rw [cons_append, hcons] at h
    obtain ⟨as, has, h⟩ := bind_eq_ok.1 h
    obtain ⟨zs, hzs, h⟩ := bind_eq_ok.1 h
    cases h
    obtain ⟨a, b, ha, hb, rfl⟩ := ih hzs
    refine ⟨as ++ a, b, ?_, hb, by simp⟩
    rw [hcons, has, ha]
    rfl

/-- A pass that works item by item leaves what it makes of neighbours together. -/
theorem pass_isInfix (pass : List Item → Except AsmError (List Item)) (hnil : pass [] = .ok [])
    (hcons : ∀ x r, pass (x :: r) = do
      let ys ← f x
      let zs ← pass r
      return ys ++ zs) {mid : List Item} (hmid : mid <:+: xs) (h : pass xs = .ok out) :
    ∃ mid', pass mid = .ok mid' ∧ mid' <:+: out := by
  obtain ⟨pre, post, rfl⟩ := hmid
  obtain ⟨a, b, ha, -, rfl⟩ := pass_append hnil hcons h
  obtain ⟨c, mid', -, hmid', rfl⟩ := pass_append hnil hcons ha
  exact ⟨mid', hmid', c, b, rfl⟩

end

/-- An item that is no load and no long wait. -/
def Settled (x : Item) : Prop :=
  x.name ≠ "mov" ∧ (x.name = "wait" → ∃ n, x.operands = [.word (Decimal.intText n)] ∧ n ≤ 32767)

theorem expandMoves_settled (h : ∀ x ∈ xs, Settled x) : expandMoves xs = .ok xs := by
  induction xs with
  | nil => rfl
  | cons x xs ih =>
    rw [forall_mem_cons] at h
    rw [expandMoves, expandMove, if_neg h.1.1, ih h.2]
    rfl

theorem splitWaits_settled (h : ∀ x ∈ xs, Settled x) : splitWaits 32767 xs = .ok xs := by
  induction xs with
  | nil => rfl
  | cons x xs ih =>
    rw [forall_mem_cons] at h
    have hx : splitWait 32767 x = .ok [x] := by
      rw [splitWait]
      split
      · rename_i hw
        obtain ⟨n, hop, hn⟩ := h.1.2 hw
        simp only [hop, Operand.int?, Decimal.readInt?_intText]
        exact if_neg (by omega)
      · rfl
    rw [splitWaits, hx, ih h.2]
    rfl

theorem expandMoves_named (h : expandMoves xs = .ok ys) (hn : ∀ x ∈ xs, x.name ≠ "") : ∀ y ∈ ys, y.name ≠ "" := by
  induction xs generalizing ys with
  | nil =>
    cases h
    simp
  | cons x xs ih =>
    rw [forall_mem_cons] at hn
    obtain ⟨as, has, h⟩ := bind_eq_ok.1 h
    obtain ⟨zs, hzs, h⟩ := bind_eq_ok.1 h
    cases h
    refine forall_mem_append.2 ⟨?_, ih hzs hn.2⟩
    have hload (l : String) (reg : Operand) (n : Int) : ∀ y ∈ loadBytes l reg n, y.name ≠ "" := by simp [loadBytes]
    rw [expandMove] at has
    split at has
    · split at has
      · split at has
        · cases has
          exact hload _ _ _
        · split at has
          · cases has
          · split at has
            · cases has
              exact hload _ _ _
            · cases has
      · cases has
    · cases has
      simpa using hn.1

theorem forall_nopsAfterBranches {P : Item → Prop} {n : Nat} (hnop : P ⟨"", "nop", []⟩)
    (h : ∀ x ∈ xs, P x) : ∀ x ∈ nopsAfterBranches n xs, P x := by
  intro x hx
  obtain ⟨y, hy, hx⟩ := mem_flatMap.1 hx
  split at hx
  · rcases mem_cons.1 hx with rfl | hx
    · exact h _ hy
    · exact eq_of_mem_replicate hx ▸ hnop
  · exact mem_singleton.1 hx ▸ h y hy

/-- **Before waits are merged** all neighbours that are settled are still neighbours, with the `nop`s behind branches. -/
theorem expand_isInfix {file : String} (hnamed : ∀ x ∈ items, x.name ≠ "")
    (hwait : ∀ x ∈ items, x.name = "wait" → ∃ n, n ≠ 0 ∧ x.operands = [.word (Decimal.intText n)])
    (h : expand { file := file } items = .ok out) :
    ∃ split, mergeWaits 32767 split = .ok out ∧ ∀ mid, mid <:+: items ++ endLoop → (∀ x ∈ mid, Settled x) →
      nopsAfterBranches 5 mid <:+: split := by
  have halign {xs ys : List Item} (hn : ∀ x ∈ xs, x.name ≠ "") (hy : align file xs = .ok ys) : ys = xs := by
    obtain ⟨_, -, rfl⟩ := map_eq_ok.1 hy
    exact alignItems_named hn
  have hend : ∀ x ∈ endLoop, Sound { file := file } ["end_of_file_loop"] x := endLoop_sound (mem_singleton_self _)
  have hloop : ∀ x ∈ items ++ endLoop, x.name ≠ "" := forall_mem_append.2 ⟨hnamed, fun x hx => (hend x hx).name_ne⟩
  have hclear : clearZeroWaits (items ++ endLoop) = .ok (items ++ endLoop) := by
    refine clearZeroWaits_eq (forall_mem_append.2 ⟨fun x hx hw => ?_, fun x hx => (hend x hx).wait_operands⟩)
    obtain ⟨n, hn, hops⟩ := hwait x hx hw
    exact ⟨_, [], hops, fun h => intText_ne_zero hn (Operand.word.inj h)⟩
  -- no label stands alone, so aligning changes nothing; what is left are `nop`s, loads and long waits
  obtain ⟨looped, h₁, h⟩ := bind_eq_ok.1 h
  obtain rfl := halign hloop h₁
  obtain ⟨zeros, h₂, h⟩ := bind_eq_ok.1 h
  obtain rfl := Except.ok.inj (hclear.symm.trans h₂)
  obtain ⟨cleared, h₃, h⟩ := bind_eq_ok.1 h
  obtain rfl := halign hloop h₃
  obtain ⟨aligned, h₄, h⟩ := bind_eq_ok.1 h
  obtain rfl := halign hloop h₄
  obtain ⟨padded, h₅, h⟩ := bind_eq_ok.1 h
  have hpadded : ∀ x ∈ nopsAfterBranches 5 (items ++ endLoop), x.name ≠ "" := forall_nopsAfterBranches (by decide) hloop
  obtain rfl := halign hpadded h₅
  obtain ⟨loads, h₆, h⟩ := bind_eq_ok.1 h
  obtain ⟨moved, h₇, h⟩ := bind_eq_ok.1 h
  obtain ⟨split, h₈, h⟩ := bind_eq_ok.1 h
  rw [halign (expandMoves_named h₆ hpadded) h₇] at h₈
  refine ⟨split, h, fun mid hmid hsettled => ?_⟩
  have hnops : ∀ x ∈ nopsAfterBranches 5 mid, Settled x :=
    forall_nopsAfterBranches ⟨by decide, fun h => absurd h (by decide)⟩ hsettled
  have hbranched : nopsAfterBranches 5 mid <:+: nopsAfterBranches 5 (items ++ endLoop) := by
    obtain ⟨pre, post, hsplit⟩ := hmid
    refine ⟨nopsAfterBranches 5 pre, nopsAfterBranches 5 post, ?_⟩
    rw [← hsplit, nopsAfterBranches, nopsAfterBranches, nopsAfterBranches, nopsAfterBranches, flatMap_append,
      flatMap_append]
  obtain ⟨mid₁, hmid₁, hplace₁⟩ := pass_isInfix expandMoves rfl (fun _ _ => rfl) hbranched h₆
  obtain rfl := Except.ok.inj ((expandMoves_settled hnops).symm.trans hmid₁)
  obtain ⟨mid₂, hmid₂, hplace₂⟩ := pass_isInfix (splitWaits 32767) rfl (fun _ _ => rfl) hplace₁ h₈
  obtain rfl := Except.ok.inj ((splitWaits_settled hnops).symm.trans hmid₂)
  exact hplace₂

/-- Two items stay apart, or are waits that are merged. -/
theorem mergeFrom_inv (h : mergeFrom m x (y :: r) = .ok out) :
    (∃ ys, mergeFrom m y r = .ok ys ∧ out = x :: ys) ∨
    (x.name = "wait" ∧ y.label = "" ∧ y.name = "wait") ∧
      ∃ n, mergeFrom m (waitItem x.label n (x.operands.drop 1)) r = .ok out := by
  have hapart (h : (do
      let ys ← mergeFrom m y r
      return x :: ys) = (.ok out : Except AsmError (List Item))) : ∃ ys, mergeFrom m y r = .ok ys ∧ out = x :: ys := by
    obtain ⟨ys, hys, h⟩ := bind_eq_ok.1 h
    cases h
    exact ⟨ys, hys, rfl⟩
  rw [mergeFrom] at h
  split at h
  · rename_i hw
    obtain ⟨a, -, h⟩ := bind_eq_ok.1 h
    obtain ⟨b, -, h⟩ := bind_eq_ok.1 h
    split at h
    · exact .inr ⟨hw, a + b, h⟩
    · exact .inl (hapart h)
  · exact .inl (hapart h)

theorem mem_mergeFrom (h : mergeFrom m x r = .ok out) (hy : y ∈ x :: r) (hn : y.name ≠ "wait") : y ∈ out := by
  induction r generalizing x out with
  | nil =>
    cases h
    exact hy
  | cons z r ih =>
    rcases mergeFrom_inv h with ⟨ys, hys, rfl⟩ | ⟨hw, n, h⟩
    · rcases mem_cons.1 hy with rfl | hy
      · exact mem_cons_self
      · exact mem_cons_of_mem x (ih hys hy)
    · refine ih h (mem_cons_of_mem _ ?_)
      rcases mem_cons.1 hy with rfl | hy
      · exact absurd hw.1 hn
      · rcases mem_cons.1 hy with rfl | hy
        · exact absurd hw.2.2 hn
        · exact hy

/-- An item that has no wait in front of it, and behind it none without a label. -/
def Lone (w : Item) (xs : List Item) : Prop :=
  ∃ pre post, xs = pre ++ w :: post ∧ (∀ t, pre.getLast? = some t → t.name ≠ "wait") ∧
    ∀ y, post.head? = some y → y.label = "" → y.name ≠ "wait"

theorem mem_mergeFrom_lone (h : mergeFrom m x r = .ok out) (hw : Lone w (x :: r)) : w ∈ out := by
  induction r generalizing x out with
  | nil =>
    obtain ⟨pre, post, hxs, -, -⟩ := hw
    cases h
    simp [hxs]
  | cons z r ih =>
    obtain ⟨_ | ⟨p, pre⟩, post, hxs, hpre, hpost⟩ := hw
    · obtain ⟨rfl, rfl⟩ := List.cons.inj hxs
      rcases mergeFrom_inv h with ⟨ys, -, rfl⟩ | ⟨hw, -⟩
      · exact mem_cons_self
      · exact absurd hw.2.2 (hpost z rfl hw.2.1)
    · obtain ⟨rfl, htail⟩ := List.cons.inj hxs
      rcases mergeFrom_inv h with ⟨ys, hys, rfl⟩ | ⟨hw, n, h⟩
      · refine mem_cons_of_mem x (ih hys ⟨pre, post, htail, fun t ht => hpre t ?_, hpost⟩)
        rw [getLast?_cons, ht]
        rfl
      · -- the item in front is neither of the two waits that are merged
        rcases pre with _ | ⟨q, pre⟩
        · exact absurd hw.1 (hpre x rfl)
        · obtain ⟨rfl, rfl⟩ := List.cons.inj htail
          refine ih h ⟨_ :: pre, post, rfl, fun t ht => hpre t ?_, hpost⟩
          rcases eq_nil_or_concat pre with rfl | ⟨front, y, rfl⟩
          · exact absurd hw.2.2 (hpre z rfl)
          · simpa [getLast?_cons] using ht

theorem mem_mergeWaits (h : mergeWaits m xs = .ok out) (hy : y ∈ xs) (hn : y.name ≠ "wait") : y ∈ out := by
  cases xs with
  | nil => cases hy
  | cons x r => exact mem_mergeFrom h hy hn

theorem mem_mergeWaits_lone (h : mergeWaits m xs = .ok out) (hw : Lone w xs) : w ∈ out := by
  cases xs with
  | nil =>
    obtain ⟨pre, post, hxs, -⟩ := hw
    simp at hxs
  | cons x r => exact mem_mergeFrom_lone h hw

theorem mem_mergeWaits_between {t : Item} (h : mergeWaits m xs = .ok out)
    (hplace : [t, w, y] <:+: xs) (ht : t.name ≠ "wait") (hy : ¬(y.label = "" ∧ y.name = "wait")) : w ∈ out := by
  obtain ⟨pre, post, rfl⟩ := hplace
  refine mem_mergeWaits_lone h ⟨pre ++ [t], y :: post, by simp, fun z hz => ?_, fun z hz hl hn => ?_⟩
  · obtain rfl : t = z := by simpa using hz
    exact ht
  · cases hz
    exact hy ⟨hl, hn⟩

theorem mem_resolveFrom {i : Nat} (h : resolveFrom table i xs = .ok ys)
    (hx : x ∈ xs) (hb : x.isBranch = false) : x ∈ ys := by
  induction xs generalizing i ys with
  | nil => cases hx
  | cons z xs ih =>
    obtain ⟨z', hz, h⟩ := bind_eq_ok.1 h
    obtain ⟨zs, hzs, h⟩ := bind_eq_ok.1 h
    cases h
    rcases mem_cons.1 hx with rfl | hx
    · rw [resolveBranch, hb] at hz
      cases hz
      exact mem_cons_self
    · exact mem_cons_of_mem z' (ih hzs hx)

theorem encodeTrigger_range {cfg : Settings} {mask : String}
    (h : encode cfg "trigger" [.word mask, .word (Decimal.intText d)] = .ok ds) : 0 ≤ d ∧ d ≤ 2047 := by
  simp only [encode, encodeTrigger] at h
  split at h
  · cases h
  · split at h
    · cases h
    · simp only [Operand.int?, Decimal.readInt?_intText] at h
      split at h
      · cases h
      · omega

theorem encodeWait_range {cfg : Settings}
    (h : encode cfg "wait" [.word (Decimal.intText n)] = .ok ds) : cfg.minWait ≤ n ∧ n ≤ cfg.maxWait := by
  simp only [encode, encodeWait, Operand.int?, Decimal.readInt?_intText] at h
  split at h
  · cases h
  · omega

theorem assemble_inv {file text : String} {image : Image}
    (hparse : parse { file := file } (validLines text) = .ok items) (hnamed : ∀ x ∈ items, x.name ≠ "")
    (hwait : ∀ x ∈ items, x.name = "wait" → ∃ n, n ≠ 0 ∧ x.operands = [.word (Decimal.intText n)])
    (h : assemble { file := file } text = .ok image) :
    (∀ l mask d, ⟨l, "trigger", [.word mask, .word (Decimal.intText d)]⟩ ∈ items → 0 ≤ d ∧ d ≤ 2047) ∧
      ∀ t y n, [t, ⟨"", "wait", [.word (Decimal.intText n)]⟩, y] <:+: items ++ endLoop → Settled t → t.isBranch = false →
        t.name ≠ "wait" → Settled y → ¬(y.label = "" ∧ y.name = "wait") → 1 ≤ n := by
  obtain ⟨items', hparse', h⟩ := bind_eq_ok.1 h
  obtain rfl := Except.ok.inj (hparse.symm.trans hparse')
  obtain ⟨out, hexpand, h⟩ := bind_eq_ok.1 h
  obtain ⟨table, -, h⟩ := bind_eq_ok.1 h
  obtain ⟨resolved, hresolved, h⟩ := bind_eq_ok.1 h
  obtain ⟨words, hwords, -⟩ := bind_eq_ok.1 h
  obtain ⟨split, hmerge, hmade⟩ := expand_isInfix hnamed hwait hexpand
  have hencode {x : Item} (hx : x ∈ out) (hb : x.isBranch = false) :
      ∃ ds, encode { file := file } x.name x.operands = .ok ds := by
    obtain ⟨n, -, hn⟩ := mapM_ok_mem hwords (mem_resolveFrom hresolved hx hb)
    obtain ⟨ds, hds, -⟩ := bind_eq_ok.1 hn
    exact ⟨ds, hds⟩
  refine ⟨fun l mask d hmem => ?_, fun t y n hplace hts htb htn hys hyn => ?_⟩
  · obtain ⟨pre, post, hitems⟩ := append_of_mem hmem
    have hplace : [⟨l, "trigger", [.word mask, .word (Decimal.intText d)]⟩] <:+: split :=
      hmade [⟨l, "trigger", [.word mask, .word (Decimal.intText d)]⟩] ⟨pre, post ++ endLoop, by simp [hitems]⟩
        (by simp [Settled])
    have hout := mem_mergeWaits hmerge (hplace.subset (mem_singleton_self _)) (by simp)
    obtain ⟨ds, hds⟩ := hencode hout rfl
    exact encodeTrigger_range hds
  · by_cases hlong : n > 32767
    · omega
    have hmid : ∀ x ∈ [t, ⟨"", "wait", [.word (Decimal.intText n)]⟩, y], Settled x := by
      simp only [mem_cons, not_mem_nil, or_false, forall_eq_or_imp, forall_eq]
      exact ⟨hts, ⟨by simp, fun _ => ⟨n, rfl, by omega⟩⟩, hys⟩
    have hnear : [t, ⟨"", "wait", [.word (Decimal.intText n)]⟩, y] <:+: split := by
      refine List.IsInfix.trans (List.IsPrefix.isInfix ?_) (hmade _ hplace hmid)
      have hw : Item.isBranch ⟨"", "wait", [.word (Decimal.intText n)]⟩ = false := rfl
      cases hyb : y.isBranch <;> simp [nopsAfterBranches, htb, hw, hyb]
    have hout := mem_mergeWaits_between hmerge hnear htn hyn
    obtain ⟨ds, hds⟩ := hencode hout rfl
    exact (encodeWait_range hds).1

end QubitLab.Qumis
