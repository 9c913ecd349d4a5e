import Mathlib
import QubitLab.Microcode.Store
import QubitLab.Proofs.AssembledPrograms

/-!
# The forms of a control store hold the store

A store that was filled line by line or from texts holds lines of 22 bits (`Reached.fits`). Its text, its bytes and its words
can each be read back: `Store.load_dump`, `wordsOfBytes_bytes`, `Line.ofWord_word`.
-/

namespace QubitLab.Microcode

open List

open Qasm (fileText fileLines_fileText splitBy_word splitBy_append)

/-! ## Lines and words -/

/-- The fields of a line are in their ranges. -/
structure Line.Fits (l : Line) : Prop where
  condition : l.condition ≤ 3
  leftKind : l.leftKind ≤ 3
  leftCodeword : l.leftCodeword ≤ 255
  rightKind : l.rightKind ≤ 3
  rightCodeword : l.rightCodeword ≤ 255

variable {l : Line}

theorem Line.Fits.word_lt (h : l.Fits) : l.word < 2 ^ 22 := by
  obtain ⟨h1, h2, h3, h4, h5⟩ := h
  simp only [Line.word, Nat.pow_eq]
  omega

theorem Line.ofWord_word (h : l.Fits) : Line.ofWord l.word = l := by
  obtain ⟨h1, h2, h3, h4, h5⟩ := h
  obtain ⟨c, k, w, k', w'⟩ := l
  simp only [Line.ofWord, Line.word, Nat.pow_eq, Line.mk.injEq] at *
  refine ⟨?_, ?_, ?_, ?_, ?_⟩ <;> omega

theorem Line.fits_ofWord (w : Nat) : (Line.ofWord w).Fits := by
  constructor <;> simp only [Line.ofWord] <;> omega

theorem Line.word_ofWord {w : Nat} (h : w < 2 ^ 22) : (Line.ofWord w).word = w := by
  have hword : (Line.ofWord w).word = w / 2 ^ 20 % 4 * 2 ^ 20 + w / 2 ^ 18 % 4 * 2 ^ 18 + w / 2 ^ 10 % 256 * 2 ^ 10 +
    w / 2 ^ 8 % 4 * 2 ^ 8 + w % 256 := rfl
  -- each quotient is that of the next field, divided by the range of this field
  have hcondition : w / 2 ^ 20 % 4 = w / 2 ^ 18 / 4 := by omega
  have hkind : w / 2 ^ 18 = w / 2 ^ 10 / 256 := by omega
  have hcodeword : w / 2 ^ 10 = w / 2 ^ 8 / 4 := by omega
  omega

theorem field_eq_ok {hi m : Nat} {n : Int} : field hi n = .ok m ↔ n = m ∧ m ≤ hi := by
  rw [field]
  split
  · rw [Except.ok.injEq]
    omega
  · simp only [reduceCtorEq, false_iff]
    omega

theorem Line.make_eq_ok {c k w k' w' : Int} : Line.make c k w k' w' = .ok l ↔
    l.Fits ∧ c = l.condition ∧ k = l.leftKind ∧ w = l.leftCodeword ∧ k' = l.rightKind ∧ w' = l.rightCodeword := by
  simp only [Line.make, bind_eq_ok, field_eq_ok]
  constructor
  · rintro ⟨a, ⟨rfl, h1⟩, b, ⟨rfl, h2⟩, d, ⟨rfl, h3⟩, e, ⟨rfl, h4⟩, f, ⟨rfl, h5⟩, h⟩
    cases h
    exact ⟨⟨h1, h2, h3, h4, h5⟩, rfl, rfl, rfl, rfl, rfl⟩
  · rintro ⟨h, rfl, rfl, rfl, rfl, rfl⟩
    exact ⟨_, ⟨rfl, h.condition⟩, _, ⟨rfl, h.leftKind⟩, _, ⟨rfl, h.leftCodeword⟩, _, ⟨rfl, h.rightKind⟩, _,
      ⟨rfl, h.rightCodeword⟩, rfl⟩

namespace Store

variable {n : Int} {s : Store}

theorem place?_line (h0 : 0 ≤ n) (h1 : n ≤ 255) : ∃ i : Fin 256, place? n = some i ∧ (i : Int) = n := by
  have hn : ¬n < 0 := by omega
  have hi : 0 ≤ n ∧ n < 256 := by omega
  refine ⟨⟨n.toNat, by omega⟩, ?_, Int.toNat_of_nonneg h0⟩
  simp only [place?, if_neg hn, dif_pos hi]

theorem insert_eq_ok {s' : Store} {c k w k' w' : Int} : s.insert n c k w k' w' = .ok s' ↔
    ∃ l i, ∃ hi : i < 256, n ≤ 256 ∧ Line.make c k w k' w' = .ok l ∧ place? n = some ⟨i, hi⟩ ∧ s' = s.set i l.word hi := by
  rw [insert]
  by_cases hn : n > 256
  · simp only [if_pos hn, bind, Except.bind, reduceCtorEq, false_iff]
    rintro ⟨l, i, -, h, -⟩
    omega
  · simp only [if_neg hn, bind_eq_ok]
    constructor
    · rintro ⟨l, hl, h⟩
      split at h
      · rename_i i hi
        cases h
        exact ⟨l, i, i.isLt, by omega, hl, hi, rfl⟩
      · cases h
    · rintro ⟨l, i, hlt, -, hl, hi, rfl⟩
      exact ⟨l, hl, by rw [hi]; rfl⟩

/-! ## Stores that are reached -/

/-- The stores that insertions and readings lead to, from the store without lines. -/
inductive Reached (r : Reader) : Store → Prop
  | empty : Reached r Store.empty
  | insert {s s' : Store} {n c k w k' w' : Int} (hs : Reached r s) (h0 : 0 ≤ n) (h1 : n ≤ 255)
      (h : s.insert n c k w k' w' = .ok s') : Reached r s'
  | load {s s' : Store} {text : String} (hs : Reached r s) (h : s.load r text = (s', none)) : Reached r s'

/-- All words of a store have 22 bits. -/
def Fits (s : Store) : Prop := ∀ w ∈ s.toList, w < 2 ^ 22

theorem Fits.insert {s' : Store} {c k w k' w' : Int} (hs : s.Fits) (h : s.insert n c k w k' w' = .ok s') : s'.Fits := by
  obtain ⟨l, i, -, -, hl, -, rfl⟩ := insert_eq_ok.1 h
  intro v hv
  rw [Vector.toList_set] at hv
  rcases mem_or_eq_of_mem_set hv with hv | rfl
  · exact hs v hv
  · exact (Line.make_eq_ok.1 hl).1.word_lt

theorem Fits.loadRows {r : Reader} (hs : s.Fits) {rows : List String} : (s.loadRows r rows).1.Fits := by
  induction rows generalizing s with
  | nil => exact hs
  | cons t rows ih =>
    rw [Store.loadRows]
    split
    · rename_i s' h
      refine ih ?_
      rw [loadRow] at h
      split at h
      · cases h
        exact hs
      · split at h
        · exact hs.insert h
        · cases h
    · exact hs

theorem Reached.fits {r : Reader} (h : Reached r s) : s.Fits := by
  induction h with
  | empty =>
    intro w hw
    rw [Store.empty, Vector.toList_replicate] at hw
    rw [eq_of_mem_replicate hw]
    decide
  | insert _ _ _ h ih => exact ih.insert h
  | @load s s' text _ h ih =>
    have hrows : (s.load r text).1.Fits := ih.loadRows
    rwa [h] at hrows

end Store

/-! ## Bytes -/

theorem wordsOfBytes_wordBytes {w : Nat} (hw : w < 2 ^ 32) (bs : List Nat) :
    wordsOfBytes (Store.wordBytes w ++ bs) = (wordsOfBytes bs).map (w :: ·) := by
  have hword : w % 256 + 256 * (w / 256 % 256) + 65536 * (w / 65536 % 256) + 16777216 * (w / 16777216 % 256) = w := by omega
  simp only [Store.wordBytes, cons_append, nil_append, wordsOfBytes, hword]
  cases wordsOfBytes bs <;> rfl

theorem wordsOfBytes_bytes {s : Store} (h : s.Fits) : wordsOfBytes s.bytes = .ok s.toList := by
  rw [Store.bytes]
  unfold Store.Fits at h
  generalize s.toList = ws at h
  induction ws with
  | nil => rfl
  | cons w ws ih =>
    rw [forall_mem_cons] at h
    rw [flatMap_cons, wordsOfBytes_wordBytes (by omega), ih h.2]
    rfl

/-! ## Texts -/

theorem words_blanks (k : Nat) (s : List Char) : Chars.words (List.replicate k ' ' ++ s) = Chars.words s := by
  induction k with
  | zero => rfl
  | succ k ih =>
    have hblank := splitBy_append (p := Chars.isBlank) (show Chars.isBlank ' ' = true by decide) (List.replicate k ' ' ++ s)
      (w := []) (by simp)
    rw [nil_append] at hblank
    rw [← ih, replicate_succ, cons_append, Chars.words, Chars.runsOutside, hblank]
    rfl

theorem words_number (n : Nat) {k : Nat} (hk : 0 < k) (s : List Char) :
    Chars.words (Nat.toDigits 10 n ++ (List.replicate k ' ' ++ s)) = Nat.toDigits 10 n :: Chars.words s := by
  obtain ⟨k, rfl⟩ := Nat.exists_eq_add_of_lt hk
  have hdigits : ∀ c ∈ Nat.toDigits 10 n, Chars.isBlank c = false :=
    fun c hc => Decimal.isBlank_of_isDigit (Decimal.isDigit_of_mem_toDigits hc)
  rw [Nat.zero_add, replicate_succ, cons_append, ← words_blanks k s, Chars.words, Chars.runsOutside,
    splitBy_append (by decide) _ hdigits, filter_cons_of_pos (by simp [Nat.toDigits_ne_nil])]
  rfl

/-- A row holds blanks and digits, and its words are the number of its line and the fields of the line. -/
theorem row_chars (i w : Nat) : (∀ c ∈ (Store.row i w).toList, c = ' ' ∨ c.isDigit = true) ∧
    Chars.words ((Store.row i w).toList ++ ['\n']) = (i :: (Line.ofWord w).fields).map (Nat.toDigits 10) := by
  have hblanks (k : Nat) : ∀ c ∈ List.replicate k ' ', c = ' ' ∨ c.isDigit = true :=
    fun c hc => .inl (eq_of_mem_replicate hc)
  have hdigits (n : Nat) : ∀ c ∈ Nat.toDigits 10 n, c = ' ' ∨ c.isDigit = true :=
    fun c hc => .inr (Decimal.isDigit_of_mem_toDigits hc)
  simp only [Store.row, Line.columns, Line.column, Text.padLeft, Text.padRight, Decimal.natText, String.toList_append,
    String.toList_ofList, append_assoc, show "  ".toList = List.replicate 2 ' ' from rfl,
    show "       ".toList = List.replicate 7 ' ' from rfl, show "      ".toList = List.replicate 6 ' ' from rfl,
    show "     ".toList = List.replicate 5 ' ' from rfl, show " ".toList = List.replicate 1 ' ' from rfl]
  constructor
  · simp only [forall_mem_append]
    exact ⟨hblanks _, hdigits _, hblanks _, hblanks _, hblanks _, hdigits _, hblanks _, hblanks _, hdigits _, hblanks _,
      hblanks _, hdigits _, hblanks _, hblanks _, hdigits _, hblanks _, hblanks _, hdigits _, hblanks _⟩
  · rw [words_blanks, ← append_assoc (List.replicate (3 - _) ' '), replicate_append_replicate,
      words_number _ (by omega), words_blanks, words_number _ (by decide), words_blanks, words_number _ (by decide),
      words_blanks, words_number _ (by decide), words_blanks, words_number _ (by decide), words_blanks,
      words_number _ (by decide)]
    rfl

theorem readInt?_toDigits (n : Nat) : Decimal.readInt? 10 (Nat.toDigits 10 n) = some (n : Int) := by
  have h := Decimal.readInt?_intText n
  rwa [Decimal.toList_intText, if_neg (by omega), nil_append, Int.natAbs_natCast] at h

namespace Store

theorem loadRow_row (r : Reader) (t : Store) {w : Nat} (hw : w < 2 ^ 22) (i : Fin 256) :
    loadRow r t (String.ofList ((row i w).toList ++ ['\n'])) = .ok (t.set i w) := by
  obtain ⟨hchars, hwords⟩ := row_chars i w
  have hcolon : (((row i w).toList ++ ['\n']).filter (· != ':')) = (row i w).toList ++ ['\n'] := by
    rw [filter_eq_self]
    intro c hc
    rcases mem_append.1 hc with hc | hc
    · rcases hchars c hc with rfl | hd
      · rfl
      · rw [bne_iff_ne]
        rintro rfl
        exact absurd hd (by decide)
    · rw [mem_singleton.1 hc]
      rfl
  have hnumbers : rowNumbers? (String.ofList ((row i w).toList ++ ['\n'])) =
      some ((i.val :: (Line.ofWord w).fields).map Int.ofNat) := by
    rw [rowNumbers?, String.toList_ofList, hcolon, Text.words, String.toList_ofList, hwords]
    simp only [Line.fields, map_cons, List.map_nil, mapM_cons, mapM_nil, String.toList_ofList,
      readInt?_toDigits]
    rfl
  rw [loadRow, if_neg (by simp [Text.words, hwords]), hnumbers]
  obtain ⟨j, hj, hji⟩ := place?_line (n := i.val) (by omega) (by omega)
  obtain rfl : j = i := Fin.ext (by omega)
  refine insert_eq_ok.2 ⟨Line.ofWord w, j, j.isLt, ?_, Line.make_eq_ok.2 ⟨Line.fits_ofWord w, rfl, rfl, rfl, rfl, rfl⟩, hj, ?_⟩
  · have hlt := j.isLt
    have hle : ((j : Nat) : Int) ≤ 255 := by omega
    exact hle.trans (by decide)
  · rw [Line.word_ofWord hw]

/-- Reading the rows of words sets the lines with the words, from a line on. -/
theorem loadRows_rows (r : Reader) (t : Store) {ws : List Nat} (hws : ∀ w ∈ ws, w < 2 ^ 22) {k : Nat}
    (hk : k + ws.length ≤ 256) :
    ∃ u : Store, t.loadRows r ((ws.zipIdx k).map fun p => String.ofList ((row p.2 p.1).toList ++ ['\n'])) = (u, none) ∧
      u.toList = t.toList.take k ++ ws ++ t.toList.drop (k + ws.length) := by
  induction ws generalizing t k with
  | nil => exact ⟨t, rfl, by simp⟩
  | cons w ws ih =>
    rw [forall_mem_cons] at hws
    rw [length_cons] at hk
    obtain ⟨u, hu, hlist⟩ := ih (t.set k w) hws.2 (k := k + 1) (by omega)
    refine ⟨u, ?_, ?_⟩
    · rw [zipIdx_cons, map_cons, loadRows, loadRow_row r t hws.1 ⟨k, by omega⟩]
      exact hu
    · rw [hlist, Vector.toList_set, take_add_one, drop_set_of_lt (by omega), take_set_of_le (by omega),
        getElem?_set_self (by simp; omega)]
      simp [Nat.add_assoc, Nat.add_comm 1]

theorem load_dump {s : Store} (hs : s.Fits) (r : Reader) (t : Store) : t.load r (fileText s.dump) = (s, none) := by
  have hlines : ∀ l ∈ s.dump, '\n' ∉ l.toList ∧ '\r' ∉ l.toList := by
    rw [dump, forall_mem_cons, forall_mem_map]
    refine ⟨by decide, fun p _ => ?_⟩
    have hchars := (row_chars p.2 p.1).1
    exact ⟨fun h => absurd (hchars _ h) (by decide), fun h => absurd (hchars _ h) (by decide)⟩
  obtain ⟨u, hu, hlist⟩ := loadRows_rows r t hs (k := 0) (by simp)
  have hus : u = s := by
    have hdrop : t.toList.drop 256 = [] := drop_eq_nil_of_le (by simp)
    rw [take_zero, nil_append, Vector.length_toList, Nat.zero_add, hdrop, append_nil] at hlist
    exact Vector.toList_inj.1 hlist
  rw [load, Text.fileLines, fileLines_fileText hlines, dump, map_cons, map_cons, drop_succ_cons,
    drop_zero, map_map, map_map, ← hus, ← hu, hus]
  rfl

/-- **The forms of a store hold the store.** Of a store that was filled by insertions and readings, the text is read back into
a store without lines, by either reader. Its bytes, four for each line, are read back as its words. An inserted line is
unpacked to what it was inserted with, and the other lines stay. -/
theorem forms_lossless (r : Reader) {s : Store} (hs : Reached r s) :
    Store.empty.load r (fileText s.dump) = (s, none) ∧
      s.bytes.length = 4 * 256 ∧ wordsOfBytes s.bytes = .ok s.toList ∧
      ∀ (n : Int) (c k w k' w' : Int) (s' : Store), 0 ≤ n → n ≤ 255 → s.insert n c k w k' w' = .ok s' →
        (∃ v, s'.at? n = some v ∧ (Line.ofWord v).fields.map Int.ofNat = [c, k, w, k', w']) ∧
          ∀ m : Int, 0 ≤ m → m ≤ 255 → m ≠ n → s'.at? m = s.at? m := by
  refine ⟨load_dump hs.fits r _, ?_, wordsOfBytes_bytes hs.fits, ?_⟩
  · rw [bytes, length_flatMap, show (fun w => (wordBytes w).length) = fun _ => 4 from rfl, map_const',
      Vector.length_toList, sum_replicate_nat]
  intro n c k w k' w' s' h0 h1 h
  obtain ⟨l, i, hlt, -, hl, hi, rfl⟩ := insert_eq_ok.1 h
  obtain ⟨j, hj, hjn⟩ := place?_line h0 h1
  obtain rfl : j = ⟨i, hlt⟩ := Option.some.inj (hj.symm.trans hi)
  obtain ⟨hfits, rfl, rfl, rfl, rfl, rfl⟩ := Line.make_eq_ok.1 hl
  constructor
  · refine ⟨l.word, ?_, ?_⟩
    · rw [at?, hj, Option.map_some]
      exact congrArg some (Vector.getElem_set_self _)
    · rw [Line.ofWord_word hfits]
      rfl
  · intro m hm0 hm1 hmn
    obtain ⟨j, hj, hjm⟩ := place?_line hm0 hm1
    have hne : i ≠ j := fun hij => hmn (by rw [← hjm, ← hij, ← hjn])
    rw [at?, at?, hj, Option.map_some, Option.map_some]
    exact congrArg some (Vector.getElem_set_ne _ _ hne)

/-- The last line with all bits set, then the first line. -/
theorem forms_lossless_full_line : ∃ s s' : Store, Reached .strict s ∧ s.at? 255 = some (2 ^ 22 - 1) ∧
    Store.empty.load .strict (fileText s.dump) = (s, none) ∧ wordsOfBytes s.bytes = .ok s.toList ∧
    s.insert 0 1 2 7 0 128 = .ok s' ∧
    ∃ v, s'.at? 0 = some v ∧ (Line.ofWord v).fields.map Int.ofNat = [1, 2, 7, 0, 128] := by
  have hfull : Store.empty.insert 255 3 3 255 3 255 = .ok (Store.empty.set 255 (2 ^ 22 - 1)) := rfl
  have hs : Reached .strict (Store.empty.set 255 (2 ^ 22 - 1)) := .insert .empty (by decide) (by decide) hfull
  have hfirst : Store.insert (Store.empty.set 255 (2 ^ 22 - 1)) 0 1 2 7 0 128 =
      .ok ((Store.empty.set 255 (2 ^ 22 - 1)).set 0 (Line.word ⟨1, 2, 7, 0, 128⟩)) := rfl
  obtain ⟨hload, -, hbytes, hinsert⟩ := forms_lossless .strict hs
  exact ⟨_, _, hs, rfl, hload, hbytes, hfirst, (hinsert 0 1 2 7 0 128 _ (by decide) (by decide) hfirst).1⟩

end Store

end QubitLab.Microcode
