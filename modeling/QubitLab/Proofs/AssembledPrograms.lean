import QubitLab.Proofs.HardwareOrder
import QubitLab.Proofs.SoundAssembly

/-!
# Compiled programs assemble

The file of a compiled program is read back line by line (`parse_emitted`), and its items are sound when its waits are
positive and its triggers last at most 2047 clocks. `compileWith_assembles_iff`: a program in time order assembles exactly
when its triggers are so short, and a program whose lines have no negative length does not assemble out of order. Neither
is checked when a program is compiled (`compileWith_longTrigger`).
-/

namespace QubitLab.Qasm

open List

open Qumis (Item Operand)

/-! ## Reading a file -/

variable {s : List Char} {lines body : List String} {l : String} {g : Grid HwEvent} {t : Int} {xs : List Item}
  {loop : Bool} {c : Compilation} {cfg : Config}

theorem unifyLineEnds_eq (h : '\r' ∉ s) : Chars.unifyLineEnds s = s := by
  induction s with
  | nil => rfl
  | cons c s ih =>
    rw [mem_cons, not_or] at h
    rw [Chars.unifyLineEnds]
    · rw [ih h.2, if_neg (by simpa using fun hc => h.1 hc.symm)]
    · rintro r rfl
      exact absurd rfl h.1

theorem fileLinesAux_line {l : List Char} (h : '\n' ∉ l) (cur rest : List Char) :
    Chars.fileLinesAux cur (l ++ '\n' :: rest) = (cur.reverse ++ l ++ ['\n']) :: Chars.fileLinesAux [] rest := by
  induction l generalizing cur with
  | nil => simp [Chars.fileLinesAux]
  | cons c l ih =>
    rw [mem_cons, not_or] at h
    rw [cons_append, Chars.fileLinesAux, if_neg (by simpa using fun hc => h.1 hc.symm), ih h.2]
    simp

/-- The text of a file that is written line by line. -/
def fileText (lines : List String) : String := String.join (lines.map (· ++ "\n"))

/-- A file that is written line by line is read line by line. -/
theorem fileLines_fileText (h : ∀ l ∈ lines, '\n' ∉ l.toList ∧ '\r' ∉ l.toList) :
    Chars.fileLines (fileText lines).toList = lines.map fun l => l.toList ++ ['\n'] := by
  have hflat : (fileText lines).toList = lines.flatMap fun l => l.toList ++ ['\n'] := by
    rw [fileText, String.toList_join, flatMap_map]
    simp only [String.toList_append]
    rfl
  have hreturn : '\r' ∉ lines.flatMap fun l => l.toList ++ ['\n'] := by
    simp only [mem_flatMap, mem_append, mem_singleton, not_exists, not_and, not_or]
    exact fun l hl => ⟨(h l hl).2, by decide⟩
  rw [Chars.fileLines, hflat, unifyLineEnds_eq hreturn]
  clear hflat hreturn
  induction lines with
  | nil => rfl
  | cons l lines ih =>
    rw [forall_mem_cons] at h
    rw [flatMap_cons, append_assoc, singleton_append, fileLinesAux_line h.1.1, ih h.2]
    rfl

theorem trimBy_append {p : Char → Bool} {d : Char} (hd : p d = true) (s : List Char) :
    Chars.trimBy p (s ++ [d]) = Chars.trimBy p s := by
  rw [Chars.trimBy, Chars.trimBy, Chars.dropStart, Chars.dropStart, dropWhile_append]
  split
  · rename_i hnil
    rw [List.isEmpty_iff.1 hnil, dropWhile_cons_of_pos hd]
    rfl
  · rw [Chars.dropEnd, reverse_append, reverse_singleton, singleton_append, dropWhile_cons_of_pos hd]
    rfl

theorem dropComment_newline (l : List Char) : Qumis.dropComment (l ++ ['\n']) = Qumis.dropComment l := by
  rw [Qumis.dropComment, Qumis.dropComment, takeWhile_append]
  split
  · rename_i hlen
    rw [show ['\n'].takeWhile (· != '#') = ['\n'] by decide, trimBy_append (by decide),
      (List.takeWhile_prefix _).eq_of_length hlen]
  · rfl

/-! ## Lines in lower case -/

/-- The characters of instructions: digits, small letters, blanks, commas and signs. -/
def isCode (c : Char) : Bool := c.isDigit || c.isLower || c == ' ' || c == ',' || c == '-'

theorem isCode_lower {c : Char} (h : isCode c = true) : c.toNat < 128 ∧ c.toLower = c := by
  have hrange : c.toNat < 65 ∨ 90 < c.toNat ∧ c.toNat < 128 := by
    simp only [isCode, Bool.or_eq_true, beq_iff_eq] at h
    rcases h with (((h | h) | rfl) | rfl) | rfl
    · have hdigit := Decimal.toNat_of_isDigit h
      omega
    · obtain ⟨ha, hz⟩ := Bool.and_eq_true_iff.1 h
      have h1 : 97 ≤ c.toNat := by simpa using UInt32.le_iff_toNat_le.1 (of_decide_eq_true ha)
      have h2 : c.toNat ≤ 122 := by simpa using UInt32.le_iff_toNat_le.1 (of_decide_eq_true hz)
      omega
    · decide
    · decide
    · decide
  refine ⟨by omega, dif_neg fun hupper => ?_⟩
  have h1 : 65 ≤ c.toNat := by simpa using UInt32.le_iff_toNat_le.1 hupper.1
  have h2 : c.toNat ≤ 90 := by simpa using UInt32.le_iff_toNat_le.1 hupper.2
  omega

theorem lowerAux_code (h : ∀ c ∈ s, isCode c = true) (b : Bool) : Chars.lowerAux b s = s := by
  induction s generalizing b with
  | nil => rfl
  | cons c s ih =>
    rw [forall_mem_cons] at h
    obtain ⟨hn, hc⟩ := isCode_lower h.1
    have hi : (c.toNat == 0x130) = false := by simp; omega
    have hs : (c.toNat == 0x3a3) = false := by simp; omega
    simp only [Chars.lowerAux, hi, hs, Bool.false_eq_true, if_false, Chars.lowerChar, if_pos hn, hc, ih h.2]

/-- The line can be read from a file and has content. -/
abbrev Readable (l : String) : Prop := '\n' ∉ l.toList ∧ '\r' ∉ l.toList ∧ Qumis.dropComment l.toList ≠ []

/-- The item of a line in lower case. -/
def codeItem (l : String) : Item := Item.ofLine (Chars.lower (Qumis.dropComment l.toList))

theorem items_fileText (h : ∀ l ∈ lines, Readable l) :
    (Qumis.validLines (fileText lines)).map (fun l => Item.ofLine l.toList) = lines.map codeItem := by
  rw [Qumis.validLines, fileLines_fileText fun l hl => ⟨(h l hl).1, (h l hl).2.1⟩, filterMap_map, map_filterMap,
    ← filterMap_eq_map]
  refine filterMap_congr fun l hl => ?_
  simp only [Function.comp_apply, dropComment_newline]
  rw [if_neg (by simpa using (h l hl).2.2)]
  simp [codeItem]

/-- A line of code: an instruction in small letters. -/
structure CodeLine (l : String) : Prop where
  code : ∀ c ∈ l.toList, isCode c = true
  filled : ∃ c ∈ l.toList, Qumis.isMargin c = false

theorem trimBy_ne_nil {p : Char → Bool} {c : Char} (hc : c ∈ s) (hp : p c = false) : Chars.trimBy p s ≠ [] := by
  intro hnil
  have hdrop : ∀ {s : List Char}, c ∈ s → c ∈ s.dropWhile p := by
    intro s hs
    rw [← takeWhile_append_dropWhile (p := p) (l := s), mem_append] at hs
    refine hs.resolve_left fun htake => ?_
    rw [mem_takeWhile_imp htake] at hp
    cases hp
  have hmem : c ∈ Chars.trimBy p s := by
    rw [Chars.trimBy, Chars.dropEnd, Chars.dropStart, mem_reverse]
    exact hdrop (mem_reverse.2 (hdrop hc))
  rw [hnil] at hmem
  cases hmem

theorem CodeLine.item (h : CodeLine l) : Readable l ∧ codeItem l = lineItem l := by
  have hnot {c : Char} (hc : isCode c = false) : c ∉ l.toList := fun hmem => by
    rw [h.code c hmem] at hc
    cases hc
  have hcomment : l.toList.takeWhile (· != '#') = l.toList :=
    takeWhile_eq_self_iff.2 fun c hc => by
      simp only [bne_iff_ne, ne_eq]
      rintro rfl
      exact hnot (by decide) hc
  obtain ⟨c, hc, hm⟩ := h.filled
  refine ⟨⟨hnot (by decide), hnot (by decide), ?_⟩, ?_⟩
  · rw [Qumis.dropComment, hcomment]
    exact trimBy_ne_nil hc hm
  · rw [codeItem, lineItem, Chars.lower, lowerAux_code]
    intro d hd
    rw [Qumis.dropComment, hcomment] at hd
    refine h.code d ?_
    have hsub := (dropWhile_sublist Qumis.isMargin (l := (l.toList.dropWhile Qumis.isMargin).reverse)).reverse
    rw [reverse_reverse] at hsub
    exact (hsub.trans (dropWhile_sublist _)).subset hd

theorem CodeLine.append {m : String} (h : CodeLine l) (hm : ∀ c ∈ m.toList, isCode c = true) : CodeLine (l ++ m) where
  code := by
    rw [String.toList_append]
    exact forall_mem_append.2 ⟨h.code, hm⟩
  filled := by
    obtain ⟨c, hc, hf⟩ := h.filled
    exact ⟨c, by rw [String.toList_append]; exact mem_append_left _ hc, hf⟩

theorem isCode_digit {c : Char} (h : c.isDigit = true) : isCode c = true := by simp [isCode, h]

theorem isCode_intText {n : Int} : ∀ c ∈ (Decimal.intText n).toList, isCode c = true := by
  intro c hc
  rcases (Decimal.intText_chars n).2.1 c hc with rfl | hd
  · decide
  · exact isCode_digit hd

theorem codeLine_wait (n : Int) : CodeLine ("wait " ++ Decimal.intText n) :=
  CodeLine.append ⟨all_eq_true.1 (by decide), 'w', by decide⟩ isCode_intText

theorem NoteLine.code {es : List HwEvent} (h : NoteLine es l) : CodeLine l := by
  cases h with
  | trigger he hn hl =>
    obtain ⟨mask, hmask, hl⟩ := bind_eq_ok.1 hl
    cases hl
    have hm := triggerMask_nonneg (Int.le_refl 0) hmask
    refine ((CodeLine.append ⟨all_eq_true.1 (by decide), 't', by decide⟩ fun c hc => ?_).append
      (all_eq_true.1 (by decide))).append isCode_intText
    rw [String.toList_ofList] at hc
    exact isCode_digit ((binaryDigits_isDigit 7 hm).2 c hc)
  | measure he hn => exact ⟨all_eq_true.1 (by decide), 'm', by decide⟩
  | pulse f g h =>
    have hfield (f : Option Int) : ∀ c ∈ (pulseField f).toList, isCode c = true :=
      fun c hc => isCode_digit ((pulseField_digits f).2 c hc)
    refine CodeLine.append ⟨all_eq_true.1 (by decide), 'p', by decide⟩ fun c hc => ?_
    have hc : c ∈ (pulseField f).toList ∨ c = ',' ∨ c = ' ' ∨ c ∈ (pulseField g).toList ∨ c = ',' ∨ c = ' ' ∨
        c ∈ (pulseField h).toList := by
      simpa [String.toList_intercalate, List.intercalate] using hc
    rcases hc with hc | rfl | rfl | hc | rfl | rfl | hc
    · exact hfield f c hc
    · decide
    · decide
    · exact hfield g c hc
    · decide
    · decide
    · exact hfield h c hc

/-! ## Items of an emitted program -/

/-- The lines of points: waits that are not for no time, and the lines of events. -/
inductive BodyLine (g : Grid HwEvent) : String → Prop
  | wait {n : Int} (hn : n ≠ 0) : BodyLine g ("wait " ++ Decimal.intText n)
  | note {p : TimePoint HwEvent} {l : String} (hp : p ∈ g) (h : NoteLine p.events l) : BodyLine g l

theorem bodyFrom_bodyLine (h : bodyFrom t g = .ok lines) : ∀ l ∈ lines, BodyLine g l := by
  induction g generalizing t lines with
  | nil =>
    cases h
    simp
  | cons p r ih =>
    obtain ⟨here, rest, hhere, hrest, rfl⟩ := bodyFrom_cons.1 h
    refine forall_mem_append.2 ⟨forall_mem_append.2 ⟨fun l hl => ?_, fun l hl => ?_⟩, fun l hl => ?_⟩
    · rw [waitLines] at hl
      split at hl
      · cases hl
      · rename_i hn
        rw [mem_singleton.1 hl]
        exact .wait hn
    · exact .note mem_cons_self (pointText_notes hhere l hl)
    · cases ih hrest l hl with
      | wait hn => exact .wait hn
      | note hp h => exact .note (mem_cons_of_mem p hp) h

theorem BodyLine.code (h : BodyLine g l) : CodeLine l := by
  cases h with
  | wait hn => exact codeLine_wait _
  | note hp h => exact h.code

/-- The item of such a line has a mnemonic and no label, and a wait has its number. -/
theorem BodyLine.item (h : BodyLine g l) :
    (lineItem l).label = "" ∧ (lineItem l).name ≠ "" ∧
      ((lineItem l).name = "wait" → ∃ n, n ≠ 0 ∧ (lineItem l).operands = [.word (Decimal.intText n)]) := by
  cases h with
  | @wait n hn =>
    rw [lineItem_wait]
    exact ⟨rfl, by simp, fun _ => ⟨n, hn, rfl⟩⟩
  | note hp h =>
    obtain ⟨hlabel, hevent⟩ := h.item
    refine ⟨hlabel, ?_, fun hw => absurd hw hevent.ne_wait⟩
    rcases hevent with h | h | h <;> simp [h]

/-- Items with the label of the loop on the first. -/
def labelFirst : List Item → List Item
  | [] => []
  | x :: r => { x with label := "exp_start" } :: r

/-- The branch back to the start of the loop. -/
def loopBranch : Item := ⟨"", "beq", [.word "r14", .word "r14", .word "exp_start"]⟩

/-- The items of a program around the lines of its points. -/
def parsedItems (loop : Bool) (body : List String) : List Item :=
  if loop then [⟨"", "wait", [.word (Decimal.intText 1)]⟩, ⟨"", "mov", [.word "r14", .word "0"]⟩] ++
    labelFirst (body.map lineItem ++ [loopBranch])
  else (preamble false body ++ body).map lineItem

theorem mem_labelFirst {x : Item} (h : x ∈ labelFirst xs) : ∃ y ∈ xs, ∃ l, x = { y with label := l } := by
  cases xs with
  | nil => cases h
  | cons y r =>
    rcases mem_cons.1 h with rfl | h
    · exact ⟨y, mem_cons_self, _, rfl⟩
    · exact ⟨x, mem_cons_of_mem y h, x.label, rfl⟩

theorem relabel_mem_labelFirst {y : Item} (h : y ∈ xs) : ∃ l, { y with label := l } ∈ labelFirst xs := by
  cases xs with
  | nil => cases h
  | cons x r =>
    rcases mem_cons.1 h with rfl | h
    · exact ⟨_, mem_cons_self⟩
    · exact ⟨y.label, mem_cons_of_mem _ h⟩

theorem infix_labelFirst {t : Item} {r : List Item} (h : t :: r <:+: xs) :
    ∃ l, { t with label := l } :: r <:+: labelFirst xs := by
  cases xs with
  | nil => simpa using h.length_le
  | cons x xs =>
    rcases infix_cons_iff.1 h with hpre | h
    · obtain ⟨rfl, hrest⟩ := cons_prefix_cons.1 hpre
      exact ⟨_, (cons_prefix_cons.2 ⟨rfl, hrest⟩).isInfix⟩
    · exact ⟨t.label, infix_cons_iff.2 (.inr h)⟩

theorem alignItems_label (hne : xs ≠ []) (h : ∀ x ∈ xs, x.label = "" ∧ x.name ≠ "") :
    Qumis.alignItems (⟨"exp_start", "", []⟩ :: xs) = labelFirst xs := by
  cases xs with
  | nil => exact absurd rfl hne
  | cons x r =>
    rw [forall_mem_cons] at h
    rw [Qumis.alignItems.eq_def]
    simp [h.1.1, Qumis.alignItems_named fun y hy => (h.2 y hy).2, labelFirst]

theorem labelsOf_labelFirst (hne : xs ≠ []) (h : ∀ x ∈ xs, x.label = "") :
    Qumis.labelsOf (labelFirst xs) = ["exp_start"] := by
  cases xs with
  | nil => exact absurd rfl hne
  | cons x r =>
    rw [forall_mem_cons] at h
    rw [labelFirst, Qumis.labelsOf_cons, Qumis.labelsOf_unlabelled _ h.2]
    rfl

theorem bodyLine_wait_one : BodyLine g "wait 1" := by
  rw [show "wait 1" = "wait " ++ Decimal.intText 1 by decide +kernel]
  exact .wait (by decide)

theorem eq_of_mem_preamble (h : l ∈ preamble false body) : l = "wait 1" := by
  rw [preamble, if_neg (by decide)] at h
  split at h
  · cases h
  · exact mem_singleton.1 h

theorem parsedItems_cases {x : Item} (h : x ∈ parsedItems loop body) :
    (loop = true ∧ (x = ⟨"", "mov", [.word "r14", .word "0"]⟩ ∨ ∃ lbl, x = { loopBranch with label := lbl })) ∨
      ∃ l lbl, (l = "wait 1" ∨ l ∈ body) ∧ x = { lineItem l with label := lbl } := by
  have hone : (⟨"", "wait", [.word (Decimal.intText 1)]⟩ : Item) = lineItem "wait 1" := by decide +kernel
  rw [parsedItems] at h
  split at h
  · rename_i hloop
    simp only [mem_append, mem_cons, not_mem_nil, or_false] at h
    rcases h with (rfl | rfl) | h
    · rw [hone]
      generalize hx : lineItem "wait 1" = x
      refine .inr ⟨"wait 1", x.label, .inl rfl, ?_⟩
      rw [hx]
    · exact .inl ⟨hloop, .inl rfl⟩
    · obtain ⟨y, hy, lbl, rfl⟩ := mem_labelFirst h
      rcases mem_append.1 hy with hy | hy
      · obtain ⟨l, hl, rfl⟩ := mem_map.1 hy
        exact .inr ⟨l, lbl, .inr hl, rfl⟩
      · rw [mem_singleton.1 hy]
        exact .inl ⟨hloop, .inr ⟨lbl, rfl⟩⟩
  · obtain ⟨l, hl, hx⟩ := mem_map.1 h
    refine .inr ⟨l, x.label, (mem_append.1 hl).imp_left eq_of_mem_preamble, ?_⟩
    rw [hx]

theorem parsedItems_named (loop : Bool) (hbody : ∀ l ∈ body, BodyLine g l) : ∀ x ∈ parsedItems loop body, x.name ≠ "" ∧
    (x.name = "wait" → ∃ n, n ≠ 0 ∧ x.operands = [.word (Decimal.intText n)]) := by
  intro x hx
  rcases parsedItems_cases hx with ⟨-, rfl | ⟨lbl, rfl⟩⟩ | ⟨l, lbl, hl, rfl⟩
  · exact ⟨by simp, by simp⟩
  · exact ⟨by simp [loopBranch], by simp [loopBranch]⟩
  · have hline : BodyLine g l := hl.elim (fun hone => hone ▸ bodyLine_wait_one) (hbody l)
    have hitem := hline.item.2
    generalize lineItem l = y at hitem ⊢
    exact hitem

/-- The labels of a program: the start of its loop, if it has one. -/
def loopLabels (loop : Bool) : List String := if loop then ["exp_start"] else []

theorem labelsOf_parsedItems (loop : Bool) (hbody : ∀ l ∈ body, BodyLine g l) :
    Qumis.labelsOf (parsedItems loop body) = loopLabels loop := by
  have hitems : ∀ x ∈ body.map lineItem, x.label = "" := by
    intro x hx
    obtain ⟨l, hl, rfl⟩ := mem_map.1 hx
    exact (hbody l hl).item.1
  cases loop with
  | true =>
    rw [parsedItems, if_pos rfl, Qumis.labelsOf_append,
      labelsOf_labelFirst (by simp) (forall_mem_append.2 ⟨hitems, by simp [loopBranch]⟩)]
    rfl
  | false =>
    rw [parsedItems, if_neg (by decide)]
    refine Qumis.labelsOf_unlabelled _ fun x hx => ?_
    rw [map_append, mem_append] at hx
    rcases hx with hx | hx
    · obtain ⟨l, hl, rfl⟩ := mem_map.1 hx
      rw [eq_of_mem_preamble hl]
      exact (bodyLine_wait_one (g := g)).item.1
    · exact hitems x hx

theorem readable_emitted (hbody : ∀ l ∈ body, BodyLine g l) :
    ∀ l ∈ preamble loop body ++ (body ++ if loop then loopTail else []), Readable l := by
  have hone := (bodyLine_wait_one (g := g)).code.item.1
  have hfixed : ∀ l ∈ loopHead ++ loopTail, Readable l := by decide +kernel
  refine forall_mem_append.2 ⟨?_, forall_mem_append.2 ⟨fun l hl => (hbody l hl).code.item.1, ?_⟩⟩
  · rw [preamble]
    split
    · exact forall_mem_cons.2 ⟨hone, fun l hl => hfixed l (mem_append_left _ hl)⟩
    · split
      · simp
      · simpa using hone
  · split
    · exact fun l hl => hfixed l (mem_append_right _ hl)
    · simp

/-- With a loop, its label moves to the first line of the points; without one, all items stay. -/
theorem alignItems_emitted (hbody : ∀ l ∈ body, BodyLine g l) :
    Qumis.alignItems ((preamble loop body ++ (body ++ if loop then loopTail else [])).map codeItem) =
      parsedItems loop body := by
  have hread : body.map codeItem = body.map lineItem := map_congr_left fun l hl => (hbody l hl).code.item.2
  cases loop with
  | true =>
    have hhead : ("wait 1" :: loopHead).map codeItem = [⟨"", "wait", [.word (Decimal.intText 1)]⟩,
        ⟨"", "mov", [.word "r14", .word "0"]⟩, ⟨"exp_start", "", []⟩] := by decide +kernel
    have htail : loopTail.map codeItem = [loopBranch] := by decide +kernel
    rw [preamble, if_pos rfl, if_pos rfl, map_append, map_append, hhead, htail, hread, parsedItems, if_pos rfl,
      cons_append, cons_append, cons_append, nil_append, Qumis.alignItems_cons (by decide),
      Qumis.alignItems_cons (by decide), alignItems_label (by simp)]
    · rfl
    · refine forall_mem_append.2 ⟨fun x hx => ?_, by simp [loopBranch]⟩
      obtain ⟨l, hl, rfl⟩ := mem_map.1 hx
      exact ⟨(hbody l hl).item.1, (hbody l hl).item.2.1⟩
  | false =>
    have hpre : (preamble false body).map codeItem = (preamble false body).map lineItem := by
      refine map_congr_left fun l hl => ?_
      rw [eq_of_mem_preamble hl]
      exact (bodyLine_wait_one (g := g)).code.item.2
    have hsame : (preamble false body ++ (body ++ if false then loopTail else [])).map codeItem = parsedItems false body := by
      rw [parsedItems, if_neg (by decide), if_neg (by decide), append_nil, map_append, map_append, hread, hpre]
    rw [hsame]
    exact Qumis.alignItems_named fun x hx => (parsedItems_named false hbody x hx).1

/-- **The file of an emitted program** is parsed to the items of its lines. -/
theorem parse_emitted (h : emit loop g = .ok lines) (file : String) :
    ∃ body, bodyFrom 0 g = .ok body ∧ lines = preamble loop body ++ (body ++ if loop then loopTail else []) ∧
      Qumis.parse { file := file } (Qumis.validLines (fileText lines)) = .ok (parsedItems loop body) := by
  obtain ⟨body, hbody, hlines⟩ := emit_eq h
  have hline := bodyFrom_bodyLine hbody
  refine ⟨body, hbody, hlines, ?_⟩
  obtain ⟨table, htable, -⟩ := Qumis.labelTable_ok (labelsOf_parsedItems loop hline) (by cases loop <;> decide) file
  rw [Qumis.parse, hlines, items_fileText (readable_emitted hline), Qumis.align, alignItems_emitted hline, htable]
  rfl

/-! ## Sound programs -/

/-- All triggers last as long as the assembler can encode. -/
def ShortTriggers (g : Grid HwEvent) : Prop :=
  ∀ p ∈ g, ∀ e ∈ p.events, e.name = "trigger" → 0 ≤ e.duration ∧ e.duration ≤ 2047

instance (g : Grid HwEvent) : Decidable (ShortTriggers g) :=
  inferInstanceAs (Decidable (∀ p ∈ g, ∀ e ∈ p.events, e.name = "trigger" → 0 ≤ e.duration ∧ e.duration ≤ 2047))

/-- All triggers have bits among the seven, in order. -/
def SevenBits (g : Grid HwEvent) : Prop :=
  ∀ p ∈ g, ∀ e ∈ p.events, e.name = "trigger" → e.setBits.Sublist [1, 2, 3, 4, 5, 6, 7]

theorem pulseField_binary (f : Option Int) : Qumis.Binary (pulseField f).toList := by
  cases f with
  | none => decide
  | some cw =>
    simp only [pulseField, String.toList_append, String.toList_ofList]
    exact Qumis.Binary.append (by decide) (Qumis.twosComplement_binary 3 cw)

theorem BodyLine.sound (h : BodyLine g l) (hpos : PositiveWait (lineItem l))
    (hshort : ShortTriggers g) (hbits : SevenBits g) (cfg : Qumis.Settings) (L : List String) :
    Qumis.Sound cfg L (lineItem l) := by
  cases h with
  | @wait n hn =>
    rw [lineItem_wait] at hpos ⊢
    refine Qumis.sound_waitItem "" ?_
    simpa [PositiveWait, clocksOf_wait] using hpos
  | note hp h =>
    cases h with
    | @trigger e l he hn hl =>
      obtain ⟨mask, hmask, -, hitem⟩ := lineItem_trigger hl
      obtain ⟨mask', hmask', hdigits⟩ := triggerMask_digits (hbits _ hp e he hn)
      obtain rfl : mask = mask' := Except.ok.inj (hmask.symm.trans hmask')
      have hlength : (String.ofList (Qumis.binaryDigits 7 mask)).length = 7 := by
        rw [String.length_ofList, hdigits]
        rfl
      have hbinary : Qumis.Binary (String.ofList (Qumis.binaryDigits 7 mask)).toList := by
        rw [String.toList_ofList, hdigits]
        intro c hc
        obtain ⟨b, -, rfl⟩ := mem_map.1 hc
        split
        · exact .inr rfl
        · exact .inl rfl
      obtain ⟨w, hw⟩ := Qumis.trigger_word cfg "" hlength hbinary (hshort _ hp e he hn)
      rw [hitem]
      exact .plain ⟨by simp, rfl⟩ hw
    | measure he hn =>
      rw [lineItem_measure]
      obtain ⟨w, hw⟩ : ∃ w, Qumis.wordOf cfg ⟨"", "measure", []⟩ = .ok w :=
        Qumis.wordOf_ok _ rfl (by decide) (by decide)
      exact .plain ⟨by simp, rfl⟩ hw
    | pulse f g h =>
      rw [lineItem_pulse]
      obtain ⟨w, hw⟩ := Qumis.pulse_word cfg "" (pulseField_binary f) (pulseField_binary g) (pulseField_binary h)
      exact .plain ⟨by simp, rfl⟩ hw

/-- The items of an ordered grid with short triggers are sound. -/
theorem parsedItems_assemblable (cfg : Qumis.Settings) (hbody : ∀ l ∈ body, BodyLine g l)
    (hpos : ∀ l ∈ body, PositiveWait (lineItem l)) (hshort : ShortTriggers g) (hbits : SevenBits g) :
    Qumis.Assemblable cfg (loopLabels loop) (parsedItems loop body) := by
  refine ⟨fun x hx => ?_, labelsOf_parsedItems loop hbody⟩
  have hr : Qumis.registerNumber "r14" = .ok 14 := by decide +kernel
  rcases parsedItems_cases hx with ⟨rfl, rfl | ⟨lbl, rfl⟩⟩ | ⟨l, lbl, hl, rfl⟩
  · exact .move "" (n := 0) [] hr (by decide +kernel) (by decide +kernel)
  · exact .branch rfl rfl hr hr (mem_singleton_self _)
  · refine Qumis.Sound.relabel ?_ lbl
    rcases hl with rfl | hl
    · have hone : lineItem "wait 1" = ⟨"", "wait", [.word (Decimal.intText 1)]⟩ := by decide +kernel
      rw [hone]
      exact Qumis.sound_waitItem "" (by decide)
    · exact (hbody l hl).sound (hpos l hl) hshort hbits cfg _

/-- The lines assemble as a file. -/
def Assembles (file : String) (lines : List String) : Prop :=
  ∃ image, Qumis.assemble { file := file } (fileText lines) = .ok image

theorem Stages.final_bits {lines : List (List SourceOp)} (hst : Stages cfg loop lines c) : SevenBits c.final := by
  obtain ⟨front, e, Q, hdiv, hbuilt, hcut, hraw⟩ := hst.divided_built
  rw [hst.final, hdiv]
  intro p hp x hx hn
  obtain ⟨q, hq, rfl⟩ := mem_map.1 hp
  rcases mem_append.1 hq with hq | hq
  · rcases hcut (q.time, x) (hbuilt.events.mem_iff.1 (mem_timed.2 ⟨q, hq, rfl, hx⟩)) with ⟨k, d, hk, heq⟩ | hno
    · rw [show x = cutOf d k from heq]
      exact hk.runningBits_sublist
    · exact absurd hn hno
  · rw [mem_singleton.1 hq] at hx
    rw [(hraw x hx).2]
    exact nil_sublist _

/-- **Ordered programs with short triggers assemble.** -/
theorem Stages.assembles {lines : List (List SourceOp)}
    (hst : Stages cfg loop lines c) (ho : Ordered c.final) (hs : ShortTriggers c.final) (file : String) :
    Assembles file c.assembly := by
  have hemit := hst.assembly
  rw [← hst.final] at hemit
  have htime : ∀ p ∈ c.final, 0 ≤ p.time := by
    rw [hst.final, ordered_shiftBy] at ho
    rw [hst.final]
    exact (shiftOf_spec ho).2
  obtain ⟨body, hbody, -, hparse⟩ := parse_emitted hemit file
  have hpos := (bodyFrom_waits_iff hbody).2 ⟨ho, htime⟩
  exact Qumis.assemble_sound (Int.le_refl 1) (show (1 : Int) ≤ 32767 by decide) hparse
    (parsedItems_assemblable _ (bodyFrom_bodyLine hbody) hpos hs hst.final_bits) (by cases loop <;> decide)

theorem Stages.final_short {lines : List (List SourceOp)}
    (hst : Stages cfg loop lines c) (hd : ∀ l ∈ lines, ∀ op ∈ l, op.declares = false)
    (ha : ∀ l ∈ lines, ∀ op ∈ l, op.kind.isAlone = true → l = [op]) (hw : ∀ l ∈ lines, 0 ≤ lineLength cfg l)
    (hD : ∀ x ∈ hwEvents cfg c.names.map lines, ∀ d ∈ x.2.stageClocks, d ≤ 2047) : ShortTriggers c.final := by
  obtain ⟨B, hB⟩ := exists_endBound (hwEvents cfg c.names.map lines)
  obtain ⟨front, e, Q, hdiv, -, hee, hbuilt, hdivision⟩ := hst.division hd ha hw hB ⟨by decide, hD⟩
  rw [hst.final, hdiv]
  intro p hp x hx hn
  obtain ⟨q, hq, rfl⟩ := mem_map.1 hp
  rcases mem_append.1 hq with hq | hq
  · rcases hdivision.made (q.time, x) (hbuilt.events.mem_iff.1 (mem_timed.2 ⟨q, hq, rfl, hx⟩)) with
      ⟨hno, -⟩ | ⟨k, d, -, hpos, hle, heq, -⟩
    · exact absurd hn hno
    · rw [show x = cutOf d k from heq]
      exact ⟨Int.le_of_lt hpos, hle⟩
  · rw [mem_singleton.1 hq, hee] at hx
    cases hx

/-! ## What assembled programs are -/

theorem bodyFrom_trigger (h : bodyFrom t g = .ok lines)
    {p : TimePoint HwEvent} (hp : p ∈ g) {e : HwEvent} (he : e ∈ p.events) (hn : e.name = "trigger") :
    ∃ l ∈ lines, triggerText e = .ok l := by
  induction g generalizing t lines with
  | nil => cases hp
  | cons q r ih =>
    obtain ⟨here, rest, hhere, hrest, rfl⟩ := bodyFrom_cons.1 h
    rcases mem_cons.1 hp with rfl | hp
    · obtain ⟨out, fields, rfl, hw⟩ := pointText_written hhere
      obtain ⟨l, hl, htext⟩ := hw.triggers e he hn
      exact ⟨l, by simp [hl], htext⟩
    · obtain ⟨l, hl, htext⟩ := ih hrest hp
      exact ⟨l, mem_append_right _ hl, htext⟩

theorem relabel_mem_parsedItems (loop : Bool) (hl : l ∈ body) :
    ∃ lbl, { lineItem l with label := lbl } ∈ parsedItems loop body := by
  cases loop with
  | true =>
    have hmem : lineItem l ∈ body.map lineItem ++ [loopBranch] := mem_append_left _ (mem_map_of_mem hl)
    obtain ⟨lbl, hmem⟩ := relabel_mem_labelFirst hmem
    rw [parsedItems, if_pos rfl]
    exact ⟨lbl, mem_append_right _ hmem⟩
  | false =>
    have hsame {x : Item} {xs : List Item} (h : x ∈ xs) : ∃ lbl, { x with label := lbl } ∈ xs := ⟨x.label, h⟩
    rw [parsedItems, if_neg (by decide)]
    exact hsame (mem_map_of_mem (mem_append_right _ hl))

/-- **Assembled programs have short triggers.** -/
theorem Stages.short_of_assembles {lines : List (List SourceOp)}
    (hst : Stages cfg loop lines c) {file : String} (h : Assembles file c.assembly) : ShortTriggers c.final := by
  have hemit := hst.assembly
  rw [← hst.final] at hemit
  obtain ⟨body, hbody, -, hparse⟩ := parse_emitted hemit file
  have hnamed := parsedItems_named loop (bodyFrom_bodyLine hbody)
  obtain ⟨image, himage⟩ := h
  have hinv := (Qumis.assemble_inv hparse (fun x hx => (hnamed x hx).1) (fun x hx => (hnamed x hx).2) himage).1
  intro p hp e he hn
  obtain ⟨l, hl, htext⟩ := bodyFrom_trigger hbody hp he hn
  obtain ⟨mask, -, -, hitem⟩ := lineItem_trigger htext
  obtain ⟨lbl, hmem⟩ := relabel_mem_parsedItems loop hl
  rw [hitem] at hmem
  exact hinv lbl _ _ hmem

/-- The last lines of points of which the last one has no events. -/
theorem bodyFrom_last {front : Grid HwEvent} {q e : TimePoint HwEvent} (he : e.events = []) (ht : e.time ≠ q.time)
    (h : bodyFrom t (front ++ [q, e]) = .ok lines) :
    ∃ pre here, pointText q = .ok here ∧ lines = pre ++ here ++ ["wait " ++ Decimal.intText (e.time - q.time)] := by
  induction front generalizing t lines with
  | nil =>
    obtain ⟨here, rest, hhere, hrest, rfl⟩ := bodyFrom_cons.1 h
    obtain ⟨none, last, hnone, hlast, rfl⟩ := bodyFrom_cons.1 hrest
    cases hlast
    have hempty : none = [] := by
      rw [pointText, he] at hnone
      cases hnone
      rfl
    have hwait : waitLines (e.time - q.time) = ["wait " ++ Decimal.intText (e.time - q.time)] := if_neg (by omega)
    exact ⟨waitLines (q.time - t), here, hhere, by rw [hempty, hwait, append_nil, append_nil]⟩
  | cons p front ih =>
    obtain ⟨first, rest, -, hrest, rfl⟩ := bodyFrom_cons.1 h
    obtain ⟨pre, here, hhere, rfl⟩ := ih hrest
    exact ⟨waitLines (p.time - t) ++ first ++ pre, here, hhere, by simp⟩

theorem infix_parsedItems (loop : Bool) {pre : List String} {w : String} (h : body = pre ++ [l, w]) :
    ∃ lbl y, [{ lineItem l with label := lbl }, lineItem w, y] <:+: parsedItems loop body ++ Qumis.endLoop ∧
      Qumis.Settled y ∧ ¬(y.label = "" ∧ y.name = "wait") := by
  cases loop with
  | true =>
    have hlast : [lineItem l, lineItem w, loopBranch] <:+: body.map lineItem ++ [loopBranch] :=
      ⟨pre.map lineItem, [], by simp [h]⟩
    obtain ⟨lbl, hplace⟩ := infix_labelFirst hlast
    refine ⟨lbl, loopBranch, ?_, by simp [Qumis.Settled, loopBranch], by simp [loopBranch]⟩
    rw [parsedItems, if_pos rfl, append_assoc]
    exact hplace.trans (infix_append' _ _ _)
  | false =>
    refine ⟨(lineItem l).label, ⟨"end_of_file_loop", "wait", [.word "1000"]⟩,
      ⟨(preamble false body ++ pre).map lineItem, Qumis.endLoop.drop 1, ?_⟩, ⟨by simp, fun _ => ⟨1000, ?_, by decide⟩⟩,
      by simp⟩
    · rw [parsedItems, if_neg (by decide)]
      simp [h, Qumis.endLoop]
    · decide +kernel

/-- Where the points are not in order, the last one before the end lies behind it and sends a trigger. -/
theorem Stages.late_trigger {lines : List (List SourceOp)}
    (hst : Stages cfg loop lines c) (hd : ∀ l ∈ lines, ∀ op ∈ l, op.declares = false)
    (ha : ∀ l ∈ lines, ∀ op ∈ l, op.kind.isAlone = true → l = [op]) (hw : ∀ l ∈ lines, 0 ≤ lineLength cfg l)
    (hlate : ¬Ordered c.divided) : ∃ front q e, c.divided = front ++ [q, e] ∧ e.events = [] ∧ e.time < q.time ∧
      ∃ x ∈ q.events, x.name = "trigger" := by
  have hplan := (hst.converted_plan hd ha hw).1
  obtain ⟨B, hB⟩ := exists_endBound (hwEvents cfg c.names.map lines)
  obtain ⟨D, hD⟩ := exists_stageBound (hwEvents cfg c.names.map lines)
  obtain ⟨front, e, Q, hdiv, het, hee, hbuilt, hdivision⟩ := hst.division hd ha hw hB hD
  rw [hdiv, ordered_concat hbuilt.sorted] at hlate
  obtain ⟨front, q, rfl⟩ : ∃ front' q, front = front' ++ [q] := by
    rcases eq_nil_or_concat' front with rfl | hlast
    · exact absurd (by simp) hlate
    · exact hlast
  have hbehind : e.time < q.time := by
    by_contra hq
    refine hlate (forall_mem_append.2 ⟨fun p hp => ?_, by simpa using hq⟩)
    have := (pairwise_append.1 hbuilt.sorted).2.2 p hp q (mem_singleton_self q)
    omega
  have hq : q ∈ front ++ [q] := by simp
  obtain ⟨x, hx⟩ := exists_mem_of_ne_nil _ (hbuilt.filled q hq)
  refine ⟨front, q, e, by rw [hdiv, append_assoc]; rfl, hee, hbehind, x, hx, ?_⟩
  -- all but triggers stand where the program has them, so not behind its end
  have hmade : (q.time, x) ∈ Q := hbuilt.events.mem_iff.1 (mem_timed.2 ⟨q, hq, rfl, hx⟩)
  rcases hdivision.made _ hmade with ⟨hno, hmem⟩ | ⟨k, n, -, -, -, heq, -⟩
  · have := hplan.time_le _ ((mem_codedEvents_other _ hno).1 hmem)
    simp only at this
    omega
  · rw [show x = cutOf n k from heq]
    rfl

/-- **Assembled programs are in order**, if no line has a negative length: a wait back to the end of the program has no
other wait next to it. -/
theorem Stages.ordered_of_assembles {lines : List (List SourceOp)}
    (hst : Stages cfg loop lines c) (hd : ∀ l ∈ lines, ∀ op ∈ l, op.declares = false)
    (ha : ∀ l ∈ lines, ∀ op ∈ l, op.kind.isAlone = true → l = [op]) (hw : ∀ l ∈ lines, 0 ≤ lineLength cfg l)
    {file : String} (h : Assembles file c.assembly) : Ordered c.final := by
  rw [hst.final, ordered_shiftBy]
  by_contra hlate
  obtain ⟨front, q, e, hdiv, hee, hbehind, x, hx, hn⟩ := hst.late_trigger hd ha hw hlate
  -- the last lines are a line of the last point and a wait back to the end
  have hemit := hst.assembly
  obtain ⟨body, hbody, -, hparse⟩ := parse_emitted hemit file
  have hlast : bodyFrom 0 (shiftBy (shiftOf c.divided) front ++ [{ q with time := q.time + shiftOf c.divided },
      { e with time := e.time + shiftOf c.divided }]) = .ok body := by
    rw [← hbody, hdiv]
    simp [shiftBy]
  have hne : e.time + shiftOf c.divided ≠ q.time + shiftOf c.divided := by omega
  obtain ⟨pre, here, hhere, hlines⟩ := bodyFrom_last (e := { e with time := e.time + shiftOf c.divided }) hee hne hlast
  obtain ⟨before, l, rfl⟩ : ∃ before l, here = before ++ [l] := by
    obtain ⟨out, fields, rfl, hwritten⟩ := pointText_written hhere
    obtain ⟨l, hl, -⟩ := hwritten.triggers x hx hn
    exact (eq_nil_or_concat' _).resolve_left (ne_nil_of_mem (mem_append_left _ hl))
  have hlines : body = (pre ++ before) ++ [l, "wait " ++
      Decimal.intText (e.time + shiftOf c.divided - (q.time + shiftOf c.divided))] := by
    simp [hlines]
  obtain ⟨lbl, y, hplace, hsettled, hyn⟩ := infix_parsedItems loop hlines
  have hevent := (pointText_notes hhere l (by simp)).item.2
  have hnamed := parsedItems_named loop (bodyFrom_bodyLine hbody)
  obtain ⟨image, himage⟩ := h
  rw [lineItem_wait] at hplace
  generalize lineItem l = t at hplace hevent
  have := (Qumis.assemble_inv hparse (fun x hx => (hnamed x hx).1) (fun x hx => (hnamed x hx).2) himage).2 _ y _ hplace
    ⟨?_, fun hw => absurd hw hevent.ne_wait⟩ ?_ hevent.ne_wait hsettled hyn
  · omega
  · rcases hevent with h | h | h <;> simp [h]
  · rcases hevent with h | h | h <;> simp [Item.isBranch, h]

/-- **Which compiled programs assemble.** In time order, those whose triggers are short. If no line has a negative length,
those that are in time order and whose triggers are short; and then it is enough that no trigger outlasts the program and
no stage of a trigger is longer than 2047 clocks. -/
theorem compileWith_assembles_iff {s : Session} {cfg : Config} {loop : Bool} {text : String} {c : Compilation}
    (h : (s.compileWith cfg loop text).2 = .ok c) (file : String) :
    (Ordered c.final → (Assembles file c.assembly ↔ ShortTriggers c.final)) ∧
      ((∀ l ∈ playedLines c.parsed, 0 ≤ lineLength cfg l) →
        (Assembles file c.assembly ↔ Ordered c.final ∧ ShortTriggers c.final) ∧
        ((∀ x ∈ hwEvents cfg c.names.map (playedLines c.parsed),
            x.1 + x.2.lastStage ≤ programLength cfg (playedLines c.parsed) ∧ ∀ d ∈ x.2.stageClocks, d ≤ 2047) →
          Assembles file c.assembly)) := by
  obtain ⟨hst, halone⟩ := compileWith_stages h
  have hdecl : ∀ l ∈ playedLines c.parsed, ∀ op ∈ l, op.declares = false := fun _ => playedLines_declares
  refine ⟨fun ho => ⟨hst.short_of_assembles, fun hs => hst.assembles ho hs file⟩, fun hw => ⟨⟨fun ha =>
    ⟨hst.ordered_of_assembles hdecl halone hw ha, hst.short_of_assembles ha⟩, fun hos => hst.assembles hos.1 hos.2 file⟩,
    fun hT => ?_⟩⟩
  have ho := hst.divided_ordered hdecl halone hw fun x hx => (hT x hx).1
  rw [← ordered_shiftBy (shiftOf c.divided), ← hst.final] at ho
  exact hst.assembles ho (hst.final_short hdecl halone hw fun x hx => (hT x hx).2) file

theorem compileWith_assembles_readout :
    ∃ c, (Session.compileWith {} (triggeredReadout [5] [2, 10] 40) true "x a | x b\nro a | ro b").2 = .ok c ∧
      ShortTriggers c.final ∧ Assembles "prog.qumis" c.assembly := by
  have hrun : (Session.compileWith {} (triggeredReadout [5] [2, 10] 40) true "x a | x b\nro a | ro b").2.map
      (fun c : Compilation => decide ((∀ l ∈ playedLines c.parsed, 0 ≤ lineLength (triggeredReadout [5] [2, 10] 40) l) ∧
        ∀ x ∈ hwEvents (triggeredReadout [5] [2, 10] 40) c.names.map (playedLines c.parsed),
          x.1 + x.2.lastStage ≤ programLength (triggeredReadout [5] [2, 10] 40) (playedLines c.parsed) ∧
            ∀ d ∈ x.2.stageClocks, d ≤ 2047)) = .ok true := by
    decide +kernel
  obtain ⟨c, hc, hshown⟩ := map_eq_ok.1 hrun
  obtain ⟨hw, hT⟩ := of_decide_eq_true hshown
  obtain ⟨-, hassembles⟩ := compileWith_assembles_iff hc "prog.qumis"
  have h := (hassembles hw).2 hT
  exact ⟨c, hc, ((hassembles hw).1.1 h).2, h⟩

/-- A trigger of 3000 clocks, and two triggers that outlast a short readout, compile but do not assemble. -/
theorem compileWith_longTrigger :
    let words (cfg : Config) (text : String) := (Session.compileWith {} cfg true text).2.map fun c =>
      (Qumis.assemble {} (fileText c.assembly)).map (·.words)
    words (triggeredReadout [3000] [10] 4000) "ro a" = .ok (.error .durationRange) ∧
      words (triggeredReadout [5] [10] 2) "ro a | ro b" = .ok (.error (.waitRange "-3")) := by
  decide +kernel

end QubitLab.Qasm
