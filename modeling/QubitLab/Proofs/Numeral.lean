import QubitLab.Decimal.Numeral
import Mathlib.Tactic.Common

/-!
# Numerals that are written are read back

`readInt?_intText`: the decimal text of a number reads as that number.
-/

namespace QubitLab.Decimal

variable {c : Char}

theorem toNat_of_isDigit (h : c.isDigit = true) : 48 ≤ c.toNat ∧ c.toNat ≤ 57 := by
  simp only [Char.isDigit, Bool.and_eq_true, decide_eq_true_eq] at h
  exact ⟨by simpa using UInt32.le_iff_toNat_le.1 h.1, by simpa using UInt32.le_iff_toNat_le.1 h.2⟩

theorem digit?_of_isDigit (h : c.isDigit = true) : Chars.digit? c = some (c.toNat - 48) ∧ c.toNat - 48 < 10 := by
  have hdigit := toNat_of_isDigit h
  refine ⟨if_pos ?_, by omega⟩
  simpa [Char.isDigit, Char.le_def] using h

theorem isBlank_of_isDigit (h : c.isDigit = true) : Chars.isBlank c = false := by
  have hdigit := toNat_of_isDigit h
  simp [Chars.isBlank]
  omega

theorem readDigits?_cons {base n d : Nat} {prev : Bool} {cs : List Char} (hd : digitValue? c = some d) (hlt : d < base) :
    readDigits? base n prev (c :: cs) = readDigits? base (n * base + d) true cs := by
  rw [readDigits?]
  · simp only [hd, if_pos hlt]
  · rintro rfl
    exact absurd (hd.symm.trans (by decide : digitValue? '_' = none)) (Option.some_ne_none d)

theorem readDigits?_digits : ∀ {cs : List Char} {n : Nat} {b : Bool}, (∀ c ∈ cs, c.isDigit = true) →
    (cs = [] → b = true) → readDigits? 10 n b cs = some (Nat.ofDigitChars 10 cs n)
  | [], n, b, _, hb => by rw [readDigits?, if_pos (hb rfl)]; rfl
  | c :: cs, n, b, hc, _ => by
    obtain ⟨hd, hlt⟩ := digit?_of_isDigit (hc c List.mem_cons_self)
    have hvalue : digitValue? c = some (c.toNat - 48) := by simp only [digitValue?, hd]
    rw [readDigits?_cons hvalue hlt, readDigits?_digits (fun x hx => hc x (List.mem_cons_of_mem c hx)) fun _ => rfl]
    simp [Nat.ofDigitChars, Nat.mul_comm]

theorem trimBy_eq_self {p : Char → Bool} {cs : List Char} (hh : ∀ c ∈ cs.head?, p c = false)
    (hl : ∀ c ∈ cs.getLast?, p c = false) : Chars.trimBy p cs = cs := by
  have drop {l : List Char} (h : ∀ c ∈ l.head?, p c = false) : l.dropWhile p = l := by
    cases l with
    | nil => rfl
    | cons c l => exact List.dropWhile_cons_of_neg (by simp [h c rfl])
  rw [Chars.trimBy, Chars.dropStart, drop hh, Chars.dropEnd, drop (by simpa using hl), List.reverse_reverse]

theorem dropBaseMark_ten (cs : List Char) : dropBaseMark 10 cs = cs := by
  unfold dropBaseMark
  split <;> rfl

theorem takeSign_digits {cs : List Char} (h : ∀ c ∈ cs, c.isDigit = true) : takeSign cs = (false, cs) := by
  rw [takeSign]
  · rintro r rfl
    exact absurd (h _ List.mem_cons_self) (by decide)
  · rintro r rfl
    exact absurd (h _ List.mem_cons_self) (by decide)

theorem toList_intText (n : Int) :
    (intText n).toList = (if n < 0 then ['-'] else []) ++ Nat.toDigits 10 n.natAbs := by
  rw [intText]
  split
  · simp only [String.toList_append, natText, String.toList_ofList]
    rfl
  · rw [natText, String.toList_ofList]
    rfl

theorem isDigit_of_mem_toDigits {n : Nat} (h : c ∈ Nat.toDigits 10 n) : c.isDigit = true :=
  Nat.isDigit_of_mem_toDigits (by decide) (by decide) h

theorem intText_chars (n : Int) : (intText n).toList ≠ [] ∧
    (∀ c ∈ (intText n).toList, c = '-' ∨ c.isDigit = true) ∧ ∀ c ∈ (intText n).toList.getLast?, c.isDigit = true := by
  rw [toList_intText]
  refine ⟨by simp [Nat.toDigits_ne_nil], fun c hc => ?_, fun c hc => ?_⟩
  · rcases List.mem_append.1 hc with hc | hc
    · split at hc
      · exact .inl (List.mem_singleton.1 hc)
      · cases hc
    · exact .inr (isDigit_of_mem_toDigits hc)
  · rcases hd : (Nat.toDigits 10 n.natAbs).getLast? with _ | d
    · exact absurd (List.getLast?_eq_none_iff.1 hd) Nat.toDigits_ne_nil
    · rw [List.getLast?_append, hd, Option.some_or, Option.mem_some_iff] at hc
      exact hc ▸ isDigit_of_mem_toDigits (List.mem_of_mem_getLast? hd)

theorem readInt?_intText (n : Int) : readInt? 10 (intText n).toList = some n := by
  have hread : readDigits? 10 0 false (Nat.toDigits 10 n.natAbs) = some n.natAbs := by
    rw [readDigits?_digits (fun c hc => isDigit_of_mem_toDigits hc) fun h => absurd h Nat.toDigits_ne_nil,
      Nat.ofDigitChars_ten_toDigits]
  obtain ⟨-, hchars, hlast⟩ := intText_chars n
  have htrim : Chars.trim (intText n).toList = (intText n).toList := by
    refine trimBy_eq_self (fun c hc => ?_) fun c hc => isBlank_of_isDigit (hlast c hc)
    rcases hchars c (List.mem_of_mem_head? hc) with rfl | hd
    · decide
    · exact isBlank_of_isDigit hd
  rw [readInt?, htrim, toList_intText]
  by_cases hn : n < 0
  · rw [if_pos hn, List.singleton_append, takeSign]
    simp only [dropBaseMark_ten, hread]
    exact congrArg some (show -(n.natAbs : Int) = n by omega)
  · rw [if_neg hn, List.nil_append, takeSign_digits fun c hc => isDigit_of_mem_toDigits hc]
    simp only [dropBaseMark_ten, hread]
    exact congrArg some (Int.natAbs_of_nonneg (by omega))

end QubitLab.Decimal
