import Mathlib.Data.List.Infix
import QubitLab.Text.Search

/-!
# Pieces of texts

A text is cut at the first place where a piece stands (`cutAt?_eq_some`), and `splitOn` cuts again and again
(`splitOn_of_cutAt?`). Joining what was split gives the text back, so a piece that is replaced by itself changes nothing
(`replace_self`), and one that stands at a single place is replaced there (`replace_of_onlyAt`).
-/

namespace QubitLab.Chars

variable {p q s : List Char}

theorem afterStart?_eq_some {r : List Char} : afterStart? p s = some r ↔ s = p ++ r := by
  induction p generalizing s with
  | nil => simp [afterStart?, eq_comm]
  | cons a p ih =>
    cases s with
    | nil => simp [afterStart?]
    | cons c s =>
      rw [afterStart?, List.cons_append, List.cons.injEq]
      split
      · next h => rw [ih, and_iff_right (eq_of_beq h).symm]
      · next h => exact iff_of_false (by simp) fun hc => h (by simp [hc.1])

theorem afterStart?_eq_none : afterStart? p s = none ↔ ¬ p <+: s := by
  rw [Option.eq_none_iff_forall_ne_some, List.IsPrefix, not_exists]
  exact forall_congr' fun r => not_congr (afterStart?_eq_some.trans eq_comm)

variable {a b : List Char}

theorem of_cutAt?_eq_some (h : cutAt? p s = some (a, b)) :
    s = a ++ p ++ b ∧ ∀ a' b', s = a' ++ p ++ b' → a.length ≤ a'.length := by
  induction s generalizing a with
  | nil =>
    rw [cutAt?] at h
    split at h
    · next hp =>
      cases h
      exact ⟨by rw [List.isEmpty_iff.1 hp]; rfl, fun _ _ _ => Nat.zero_le _⟩
    · cases h
  | cons c s ih =>
    rw [cutAt?] at h
    split at h
    · next rest hrest =>
      cases h
      exact ⟨afterStart?_eq_some.1 hrest, fun _ _ _ => Nat.zero_le _⟩
    · next hnone =>
      obtain ⟨⟨a₁, b₁⟩, hcut, heq⟩ := Option.map_eq_some_iff.1 h
      cases heq
      obtain ⟨hs, hleast⟩ := ih hcut
      refine ⟨congrArg (c :: ·) hs, fun a' b' ha' => ?_⟩
      cases a' with
      | nil => exact absurd ⟨b', ha'.symm⟩ (afterStart?_eq_none.1 hnone)
      | cons d a' =>
        rw [List.cons_append, List.cons_append, List.cons.injEq] at ha'
        exact Nat.succ_le_succ (hleast a' b' ha'.2)

theorem cutAt?_eq_none : cutAt? p s = none ↔ ¬ p <:+: s := by
  induction s with
  | nil => cases p <;> simp [cutAt?]
  | cons c s ih =>
    rw [cutAt?]
    split
    · next rest hrest =>
      exact iff_of_false (by simp) (not_not.2 ⟨[], rest, (afterStart?_eq_some.1 hrest).symm⟩)
    · next hnone => rw [Option.map_eq_none_iff, ih, List.infix_cons_iff, not_or, and_iff_right (afterStart?_eq_none.1 hnone)]

/-! ## Splitting -/

/-- A text is split where it is cut, and then what comes behind. -/
theorem splitOnAux_eq (hp : p ≠ []) (current s : List Char) :
    (cutAt? p s = none → splitOnAux p hp current s = [current.reverse ++ s]) ∧
      ∀ a b, cutAt? p s = some (a, b) → splitOnAux p hp current s = (current.reverse ++ a) :: splitOnAux p hp [] b := by
  induction s generalizing current with
  | nil =>
    rw [splitOnAux, cutAt?, if_neg (by simpa using hp), List.append_nil]
    exact ⟨fun _ => rfl, by simp⟩
  | cons c s ih =>
    rw [splitOnAux]
    split
    · next rest hc =>
      rw [cutAt?, hc]
      simp
    · next hc =>
      obtain ⟨hnone, hsome⟩ := ih (c :: current)
      rw [cutAt?, hc]
      refine ⟨fun h => ?_, fun a b h => ?_⟩
      · rw [hnone (Option.map_eq_none_iff.1 h)]
        simp
      · obtain ⟨⟨a₁, b₁⟩, hcut, heq⟩ := Option.map_eq_some_iff.1 h
        cases heq
        rw [hsome a₁ b hcut]
        simp

theorem splitOn_of_cutAt? (hp : p ≠ []) (h : cutAt? p s = some (a, b)) : splitOn p s = a :: splitOn p b := by
  rw [splitOn, dif_pos hp, splitOn, dif_pos hp]
  exact (splitOnAux_eq hp [] s).2 a b h

theorem splitOn_of_absent (hp : p ≠ []) (h : ¬ p <:+: s) : splitOn p s = [s] := by
  rw [splitOn, dif_pos hp]
  exact (splitOnAux_eq hp [] s).1 (cutAt?_eq_none.2 h)

theorem splitOn_ne_nil (hp : p ≠ []) (s : List Char) : splitOn p s ≠ [] := by
  cases hcut : cutAt? p s with
  | none => simp [splitOn_of_absent hp (cutAt?_eq_none.1 hcut)]
  | some x => simp [splitOn_of_cutAt? hp hcut]

theorem intercalate_splitOn (hp : p ≠ []) (s : List Char) : List.intercalate p (splitOn p s) = s := by
  induction hn : s.length using Nat.strong_induction_on generalizing s with
  | _ n ih =>
    cases hcut : cutAt? p s with
    | none => rw [splitOn_of_absent hp (cutAt?_eq_none.1 hcut), List.intercalate_singleton]
    | some x =>
      obtain ⟨a, b⟩ := x
      obtain ⟨hs, -⟩ := of_cutAt?_eq_some hcut
      have hb : b.length < n := by
        have := List.length_pos_iff.2 hp
        rw [← hn, hs, List.length_append, List.length_append]
        omega
      rw [splitOn_of_cutAt? hp hcut, List.intercalate_cons_of_ne_nil (splitOn_ne_nil hp b), ih _ hb b rfl, hs]

theorem of_splitOn_eq_pair (hp : p ≠ []) (h : splitOn p s = [a, b]) : s = a ++ p ++ b ∧ ¬ p <:+: b := by
  cases hcut : cutAt? p s with
  | none =>
    rw [splitOn_of_absent hp (cutAt?_eq_none.1 hcut)] at h
    cases h
  | some x =>
    obtain ⟨a', b'⟩ := x
    rw [splitOn_of_cutAt? hp hcut, List.cons.injEq] at h
    obtain ⟨rfl, h⟩ := h
    obtain ⟨hs, -⟩ := of_cutAt?_eq_some hcut
    cases hnext : cutAt? p b' with
    | none =>
      have hb := cutAt?_eq_none.1 hnext
      rw [splitOn_of_absent hp hb, List.cons.injEq] at h
      obtain ⟨rfl, -⟩ := h
      exact ⟨hs, hb⟩
    | some y =>
      rw [splitOn_of_cutAt? hp hnext, List.cons.injEq] at h
      exact absurd h.2 (splitOn_ne_nil hp _)

/-- The second piece lies between the first place of what separates the pieces and the next, or the end. -/
theorem exists_of_second (hp : p ≠ []) {x : List Char} (h : (splitOn p s)[1]? = some x) :
    ∃ start rest, s = start ++ p ++ (x ++ rest) ∧ (∀ a b, s = a ++ p ++ b → start.length ≤ a.length) ∧
      (rest = [] ∨ p <+: rest) := by
  cases hcut : cutAt? p s with
  | none =>
    rw [splitOn_of_absent hp (cutAt?_eq_none.1 hcut)] at h
    cases h
  | some y =>
    obtain ⟨a, b⟩ := y
    obtain ⟨hs, hleast⟩ := of_cutAt?_eq_some hcut
    rw [splitOn_of_cutAt? hp hcut, List.getElem?_cons_succ] at h
    cases hnext : cutAt? p b with
    | none =>
      rw [splitOn_of_absent hp (cutAt?_eq_none.1 hnext)] at h
      cases h
      exact ⟨a, [], by rw [hs, List.append_nil], hleast, .inl rfl⟩
    | some z =>
      obtain ⟨a', b'⟩ := z
      rw [splitOn_of_cutAt? hp hnext] at h
      cases h
      obtain ⟨hb, -⟩ := of_cutAt?_eq_some hnext
      exact ⟨a, p ++ b', by rw [hs, hb, List.append_assoc x], hleast, .inr (List.prefix_append p b')⟩

/-! ## Replacing -/

theorem replace_self (hp : p ≠ []) (s : List Char) : replace p p s = s := intercalate_splitOn hp s

/-- The piece stands between `before` and `after`, and nowhere else in this text. -/
def OnlyAt (p before after : List Char) : Prop := ∀ a b, before ++ p ++ after = a ++ p ++ b → a = before

theorem onlyAt_iff {before after : List Char} : OnlyAt p before after ↔
    ∀ i < (before ++ p ++ after).length + 1, p <+: (before ++ p ++ after).drop i → i = before.length := by
  constructor
  · rintro h i hi ⟨b, hb⟩
    have htake := h ((before ++ p ++ after).take i) b (by rw [List.append_assoc _ p b, hb, List.take_append_drop])
    rw [← htake, List.length_take]
    omega
  · intro h a b heq
    have hlength : a.length = before.length := by
      refine h a.length (by simp only [heq, List.length_append]; omega) ?_
      rw [heq, List.append_assoc, List.drop_left]
      exact List.prefix_append p b
    rw [List.append_assoc, List.append_assoc] at heq
    exact (List.append_inj heq hlength.symm).1.symm

instance (p before after : List Char) : Decidable (OnlyAt p before after) := decidable_of_iff _ onlyAt_iff.symm

theorem replace_of_onlyAt (hp : p ≠ []) {before after : List Char} (h : OnlyAt p before after) (q : List Char) :
    replace p q (before ++ p ++ after) = before ++ q ++ after := by
  have hcut : cutAt? p (before ++ p ++ after) = some (before, after) := by
    cases hcut : cutAt? p (before ++ p ++ after) with
    | none => exact absurd ⟨before, after, rfl⟩ (cutAt?_eq_none.1 hcut)
    | some x =>
      obtain ⟨a, b⟩ := x
      obtain ⟨hs, -⟩ := of_cutAt?_eq_some hcut
      obtain rfl := h a b hs
      rw [List.append_cancel_left hs]
  have hafter : ¬ p <:+: after := by
    rintro ⟨a, b, rfl⟩
    have hlen := congrArg List.length (h (before ++ p ++ a) b (by simp))
    have := List.length_pos_iff.2 hp
    simp only [List.length_append] at hlen
    omega
  rw [replace, splitOn_of_cutAt? hp hcut, splitOn_of_absent hp hafter]
  simp [List.intercalate]

end QubitLab.Chars
