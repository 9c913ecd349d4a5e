import QubitLab.Proofs.Outcome
import QubitLab.Qasm.Expand

/-!
# Line by line expansion

A line is expanded by what stands in it, and what stands before it decides only how it is refused: `lineText_ok_iff` for one
line, `lineTexts_ok_iff` for all. A line with an unknown command is refused as a value exactly if the last two words that a
line up to it begins with are unknown too (`lineText_unknown`, `lineTexts_unknown`).
-/

namespace QubitLab.Qasm

/-- A line stands for a text by itself. -/
def Expands (ops : Fields) (line text : String) : Prop := lineText ops (pair? line) line = .ok text

variable {line : String} {ops : Fields} {pair : Option String} {texts : List String}

theorem pair?_eq_none_iff {first : String} {rest : List String} (h : Text.words line = first :: rest) :
    pair? line = none ↔ rest = [] := by
  cases rest <;> simp [pair?, h]

/-! ## One line -/

theorem pairText_oneWord (ops : Fields) (line first pair text : String) : pairText ops line first [] pair ≠ .ok text := by
  intro h
  rw [pairText] at h
  split at h
  · obtain ⟨fs, -, h⟩ := bind_eq_ok.1 h
    split at h
    · cases h
    · cases h
  · split at h
    · cases h
    · cases h

theorem lineText_ok_iff {text : String} :
    lineText ops ((pair? line).or pair) line = .ok text ↔ Expands ops line text := by
  cases hpair : pair? line with
  | some p => rw [Option.some_or, Expands, hpair]
  | none =>
    rw [Expands, hpair, Option.none_or, lineText, lineText]
    cases hw : Text.words line with
    | nil => rfl
    | cons first rest =>
      obtain rfl := (pair?_eq_none_iff hw).1 hpair
      dsimp only
      split
      · rfl
      · split
        · rfl
        · simp only [bind_eq_ok, pairText_oneWord, and_false, exists_false]

/-- A line with a command that is in the table neither as a whole nor by its first two words. -/
structure Unknown (ops : Fields) (line : String) : Prop where
  words : Text.words line ≠ []
  whole : Fields.get? ops line = none
  pair : ∀ p, pair? line = some p → Fields.get? ops p = none
  command : ∀ w ∈ (Text.words line).head?, w ≠ "qubit" ∧ w ≠ "I" ∧ w ≠ "Idx"

/-- A line of one word that is looked up by the entry of two words is refused, but not as a value. -/
theorem pairText_known {pair : String} {op : Value} (h : Fields.get? ops pair = some op) (line first : String) :
    ∃ f, pairText ops line first [] pair = .error f ∧ f.kind ≠ .value := by
  rw [pairText, h]
  dsimp only
  cases op.fields? with
  | none => exact ⟨.of .member, rfl, by decide⟩
  | some fs =>
    simp only [orFail, bind, Except.bind]
    cases Fields.get? fs "instruction" with
    | none => exact ⟨_, rfl, FaultKind.noConfusion⟩
    | some instr => exact ⟨.of .index, rfl, by decide⟩

/-- An unknown line is refused, and as a value exactly if the pair that it is looked up by is unknown. -/
theorem lineText_unknown (h : Unknown ops line) (pair : Option String) :
    ∃ f, lineText ops ((pair? line).or pair) line = .error f ∧
      (f.kind = .value ↔ ∃ p, (pair? line).or pair = some p ∧ Fields.get? ops p = none) := by
  obtain ⟨first, rest, hw⟩ := List.exists_cons_of_ne_nil h.words
  obtain ⟨hqubit, hidle, hidx⟩ := h.command first (by simp [hw])
  have htext (key : Option String) : lineText ops key line = orFail .unset key >>= pairText ops line first rest := by
    simp [lineText, hw, hqubit, h.whole]
  rw [htext]
  cases hkey : (pair? line).or pair with
  | none => exact ⟨.of .unset, rfl, by simp [Fault.of]⟩
  | some p =>
    cases hp : Fields.get? ops p with
    | none =>
      have hvalue : pairText ops line first rest p = failWith .value ("Command \"" ++ first ++
          "\" not recognized, must be in " ++ (Value.ofTexts (Fields.keys ops ++ ["qubit"])).render) := by
        simp [pairText, hp, hidle, hidx]
      exact ⟨_, hvalue, by simp [hp, Fault.because]⟩
    | some op =>
      -- the pair of the line itself is unknown, so this one is of a line before it
      have hrest : rest = [] := by
        rw [← pair?_eq_none_iff hw]
        cases hpair : pair? line with
        | none => rfl
        | some p' =>
          rw [hpair, Option.some_or, Option.some.injEq] at hkey
          have hunknown := h.pair p' hpair
          rw [hkey, hp] at hunknown
          cases hunknown
      obtain ⟨f, hf, hkind⟩ := pairText_known hp line first
      refine ⟨f, by rw [hrest]; exact hf, ?_⟩
      simp [hkind, hp]

/-! ## Programs -/

theorem lineTexts_ok_iff {lines : List String} :
    lineTexts ops pair lines = .ok texts ↔ List.Forall₂ (Expands ops) lines texts := by
  induction lines generalizing pair texts with
  | nil => simp [lineTexts, eq_comm]
  | cons line lines ih =>
    simp only [lineTexts, bind_eq_ok, lineText_ok_iff, ih, List.forall₂_cons_left_iff, pure, Except.pure, Except.ok.injEq]
    constructor
    · rintro ⟨t, ht, ts, hts, rfl⟩
      exact ⟨t, ts, ht, hts, rfl⟩
    · rintro ⟨t, ts, ht, hts, rfl⟩
      exact ⟨t, ht, ts, hts, rfl⟩

/-- The first two words of the last line that has as many. -/
def lastPair? (lines : List String) : Option String := (lines.filterMap pair?).getLast?

theorem lastPair?_cons (line : String) (lines : List String) :
    lastPair? (line :: lines) = (lastPair? lines).or (pair? line) := by
  rw [lastPair?, lastPair?, ← List.singleton_append, List.filterMap_append, List.getLast?_append]
  cases h : pair? line <;> simp [h]

theorem lastPair?_concat (lines : List String) (line : String) :
    lastPair? (lines ++ [line]) = (pair? line).or (lastPair? lines) := by
  rw [lastPair?, lastPair?, List.filterMap_append, List.getLast?_append]
  cases h : pair? line <;> simp [h]

/-- Lines behind lines that are expanded are looked up by the last pair of those. -/
theorem lineTexts_behind {before lines : List String} {f : Fault}
    (h : List.Forall₂ (Expands ops) before texts) (hf : lineTexts ops ((lastPair? before).or pair) lines = .error f) :
    lineTexts ops pair (before ++ lines) = .error f := by
  induction h generalizing pair with
  | nil => exact hf
  | @cons line text before texts hline _ ih =>
    rw [lastPair?_cons, Option.or_assoc] at hf
    rw [List.cons_append, lineTexts, lineText_ok_iff.2 hline]
    exact bind_eq_error.2 (.inr ⟨text, rfl, bind_eq_error.2 (.inl (ih hf))⟩)

/-- The first unknown line of a program decides how the program is refused. -/
theorem lineTexts_unknown {before : List String}
    (h : List.Forall₂ (Expands ops) before texts) (hline : Unknown ops line) (after : List String) :
    ∃ f, lineTexts ops none (before ++ line :: after) = .error f ∧
      (f.kind = .value ↔ ∃ p, lastPair? (before ++ [line]) = some p ∧ Fields.get? ops p = none) := by
  obtain ⟨f, hf, hkind⟩ := lineText_unknown hline (lastPair? before)
  refine ⟨f, lineTexts_behind h ?_, by rwa [lastPair?_concat]⟩
  rw [Option.or_none, lineTexts]
  exact bind_eq_error.2 (.inl hf)

/-- **Each line is expanded on its own, and an unknown command is refused.** A program is expanded exactly if each of its lines
stands for a text by itself; the result has these texts in order, between an opening and a closing. A program whose first line
that cannot be expanded has an unknown command is refused. It is refused as a value exactly if the last two words that a
line up to that one begins with are not in the table either. -/
theorem expand_lines (ops : Fields) (text : String) :
    (∀ out, expand ops text = .ok out ↔ ∃ texts, List.Forall₂ (Expands ops) (expandableLines text) texts ∧
      out = opening ++ String.join texts ++ closing) ∧
    ∀ before texts line after, expandableLines text = before ++ line :: after → List.Forall₂ (Expands ops) before texts →
      Unknown ops line → ∃ f, expand ops text = .error f ∧
        (f.kind = .value ↔ ∃ p, lastPair? (before ++ [line]) = some p ∧ Fields.get? ops p = none) := by
  constructor
  · intro out
    rw [expand, bind_eq_ok]
    simp only [lineTexts_ok_iff, pure, Except.pure, Except.ok.injEq, @eq_comm _ out]
  · intro before texts line after hlines hbefore hline
    obtain ⟨f, hf, hkind⟩ := lineTexts_unknown hbefore hline after
    refine ⟨f, ?_, hkind⟩
    rw [expand, hlines, hf]
    rfl

/-- A table with one operation. -/
def pulseTable : Fields := [("X q0", .record [("instruction", .text "pulse \n")])]

theorem expands_pulse : Expands pulseTable "X q0" "pulse \n" := by
  have hwords : Text.words "X q0" = ["X", "q0"] := by decide +kernel
  simp only [Expands, lineText, hwords]
  rfl

/-- A pulse, and a pulse before an unknown line with a qubit. -/
theorem expand_lines_pulse : expand pulseTable "X q0\n" = .ok (opening ++ "pulse \n" ++ closing) ∧
    ∃ f, expand pulseTable "X q0\nmark q0\n" = .error f ∧ f.kind = .value := by
  have hpulse : List.Forall₂ (Expands pulseTable) ["X q0"] ["pulse \n"] := .cons expands_pulse .nil
  have hmark : Unknown pulseTable "mark q0" := ⟨by decide +kernel, rfl, by decide +kernel, by decide +kernel⟩
  have hone : expandableLines "X q0\n" = ["X q0"] := by decide +kernel
  have htwo : expandableLines "X q0\nmark q0\n" = ["X q0"] ++ "mark q0" :: [] := by decide +kernel
  obtain ⟨f, hf, hkind⟩ := (expand_lines pulseTable _).2 _ _ _ _ htwo hpulse hmark
  exact ⟨((expand_lines pulseTable _).1 _).2 ⟨_, hone ▸ hpulse, by simp⟩, f, hf, hkind.2 ⟨"mark q0", by decide +kernel, rfl⟩⟩

/-- An unknown line of one word is not refused as a value: at the start no pair is set, and behind a known line it is looked up
by that line's pair. -/
theorem expand_oneWord : (∃ f, expand pulseTable "mark\n" = .error f ∧ f.kind = .unset) ∧
    ∃ f, expand pulseTable "X q0\nmark\n" = .error f ∧ f.kind = .index := by
  have hone : expandableLines "mark\n" = ["mark"] := by decide +kernel
  have htwo : expandableLines "X q0\nmark\n" = ["X q0", "mark"] := by decide +kernel
  have hwords : Text.words "X q0" = ["X", "q0"] ∧ Text.words "mark" = ["mark"] := by decide +kernel
  refine ⟨⟨.of .unset, ?_, rfl⟩, .of .index, ?_, rfl⟩
  · simp only [expand, hone, lineTexts, lineText, pair?, hwords]
    rfl
  · simp only [expand, htwo, lineTexts, lineText, pair?, hwords]
    rfl

end QubitLab.Qasm
