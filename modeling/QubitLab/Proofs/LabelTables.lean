import Mathlib.Data.List.Nodup
import QubitLab.Proofs.KeyedLists
import QubitLab.Proofs.Outcome
import QubitLab.Qumis.Passes

/-!
# Tables of labels

The labels of a program and the addresses of their items. A program has a table if and only if no label stands on two
items, and the table is then `addresses` (`labelTable_eq_ok`), in which each label is found at its item
(`lookup_addresses`); the only error of a table, and of an alignment, is a label that is there twice (`align_error`).
Aligning moves and drops labels but makes none (`labelsOf_alignItems`).
-/

namespace QubitLab.Qumis

open List

/-- The labels of a program, in order. -/
def labelsOf (xs : List Item) : List String := (xs.map (·.label)).filter (· ≠ "")

/-- The labels of the items from an address on, with their addresses. -/
def addresses (i : Nat) : List Item → LabelTable
  | [] => []
  | x :: r => if x.label = "" then addresses (i + 1) r else (x.label, i) :: addresses (i + 1) r

variable {i : Nat} {file : String} {table : LabelTable}

section
variable {x : Item} {xs : List Item}

@[simp] theorem labelsOf_nil : labelsOf [] = [] := rfl

theorem labelsOf_cons (x : Item) (xs : List Item) : labelsOf (x :: xs) = labelsOf [x] ++ labelsOf xs := by
  simp only [labelsOf, ← filter_append]
  rfl

theorem labelsOf_append (xs ys : List Item) : labelsOf (xs ++ ys) = labelsOf xs ++ labelsOf ys := by
  simp [labelsOf]

theorem labelsOf_singleton (h : x.label ≠ "") : labelsOf [x] = [x.label] := by simp [labelsOf, h]

theorem labelsOf_unlabelled (xs : List Item) (h : ∀ y ∈ xs, y.label = "") : labelsOf xs = [] := by
  refine filter_eq_nil_iff.2 fun l hl => ?_
  obtain ⟨y, hy, rfl⟩ := mem_map.1 hl
  simp [h y hy]

/-! ## Addresses -/

theorem addresses_fst (i : Nat) : (addresses i xs).map (·.1) = labelsOf xs := by
  induction xs generalizing i with
  | nil => rfl
  | cons x xs ih =>
    rw [addresses, labelsOf_cons]
    split
    · rw [ih, labelsOf_unlabelled [x] (by simpa), nil_append]
    · rename_i hx
      rw [map_cons, ih, labelsOf_singleton hx]
      rfl

theorem mem_addresses {k : Nat} {l : String} :
    (l, k) ∈ addresses i xs ↔ l ≠ "" ∧ ∃ j x, xs[j]? = some x ∧ x.label = l ∧ k = i + j := by
  induction xs generalizing i with
  | nil => simp [addresses]
  | cons x xs ih =>
    have hcons : (∃ j y, (x :: xs)[j]? = some y ∧ y.label = l ∧ k = i + j) ↔
        (x.label = l ∧ k = i) ∨ ∃ j y, xs[j]? = some y ∧ y.label = l ∧ k = i + 1 + j := by
      constructor
      · rintro ⟨_ | j, y, hy, hl, hk⟩
        · exact .inl ⟨Option.some.inj hy ▸ hl, hk⟩
        · exact .inr ⟨j, y, hy, hl, by omega⟩
      · rintro (⟨hl, hk⟩ | ⟨j, y, hy, hl, hk⟩)
        · exact ⟨0, x, rfl, hl, hk⟩
        · exact ⟨j + 1, y, hy, hl, by omega⟩
    rw [addresses, hcons]
    split
    · rename_i hx
      rw [ih]
      exact ⟨fun h => ⟨h.1, .inr h.2⟩, fun h => ⟨h.1, h.2.resolve_left fun h' => h.1 (h'.1.symm.trans hx)⟩⟩
    · rename_i hx
      rw [mem_cons, ih, Prod.mk.injEq]
      constructor
      · rintro (⟨rfl, rfl⟩ | h)
        · exact ⟨hx, .inl ⟨rfl, rfl⟩⟩
        · exact ⟨h.1, .inr h.2⟩
      · rintro ⟨hl, ⟨rfl, rfl⟩ | h⟩
        · exact .inl ⟨rfl, rfl⟩
        · exact .inr ⟨hl, h⟩

theorem lookup_eq_some_of_nodup {l : LabelTable} (h : (l.map (·.1)).Nodup) {k : String} {a : Nat} :
    l.lookup k = some a ↔ (k, a) ∈ l := by
  induction l with
  | nil => simp
  | cons y l ih =>
    obtain ⟨y, b⟩ := y
    rw [map_cons, nodup_cons] at h
    rw [lookup_cons, mem_cons, Prod.mk.injEq]
    by_cases hk : k = y
    · subst hk
      have hno : (k, a) ∉ l := fun hmem => h.1 (mem_map_of_mem (f := (·.1)) hmem)
      simp [hno, eq_comm]
    · have : (k == y) = false := by simpa using hk
      simp [this, hk, ih h.2]

theorem lookup_addresses (h : (labelsOf xs).Nodup) {l : String} {k : Nat} :
    (addresses 0 xs).lookup l = some k ↔ l ≠ "" ∧ ∃ x, xs[k]? = some x ∧ x.label = l := by
  rw [lookup_eq_some_of_nodup ((addresses_fst 0).symm ▸ h), mem_addresses]
  refine and_congr_right fun _ => ⟨?_, fun ⟨x, hx, hl⟩ => ⟨k, x, hx, hl, by omega⟩⟩
  rintro ⟨j, x, hx, hl, hk⟩
  exact ⟨x, by rwa [hk, Nat.zero_add], hl⟩

/-! ## When a program has a table -/

theorem labelsFrom_eq_ok {out : LabelTable} :
    labelsFrom file i table xs = .ok out ↔
      out = table ++ addresses i xs ∧ (labelsOf xs).Nodup ∧ ∀ l ∈ labelsOf xs, l ∉ table.map (·.1) := by
  induction xs generalizing i table with
  | nil => simp [labelsFrom, addresses, eq_comm]
  | cons x xs ih =>
    rw [labelsFrom, addresses, labelsOf_cons]
    by_cases hx : x.label = ""
    · rw [if_pos hx, if_pos hx, ih, labelsOf_unlabelled [x] (by simpa), nil_append]
    · rw [if_neg hx, if_neg hx, labelsOf_singleton hx, singleton_append, nodup_cons]
      by_cases hold : (table.lookup x.label).isSome = true
      · rw [if_pos hold]
        rw [lookup_isSome] at hold
        exact ⟨fun h => (nomatch h), fun h => absurd hold (h.2.2 _ mem_cons_self)⟩
      · rw [if_neg hold, ih]
        rw [lookup_isSome] at hold
        simp only [map_append, map_cons, List.map_nil, mem_append, mem_singleton, not_or,
          forall_mem_cons, append_assoc, singleton_append]
        constructor
        · rintro ⟨hout, hnodup, hnew⟩
          exact ⟨hout, ⟨fun hmem => (hnew _ hmem).2 rfl, hnodup⟩, hold, fun l hl => (hnew l hl).1⟩
        · rintro ⟨hout, ⟨hfresh, hnodup⟩, -, hnew⟩
          exact ⟨hout, hnodup, fun l hl => ⟨hnew l hl, fun heq => hfresh (heq ▸ hl)⟩⟩

theorem labelsFrom_error {e : AsmError} (h : labelsFrom file i table xs = .error e) :
    ∃ l, e = .labelTwice l file ∧ 2 ≤ (table.map (·.1) ++ labelsOf xs).count l := by
  induction xs generalizing i table with
  | nil => cases h
  | cons x xs ih =>
    rw [labelsFrom] at h
    rw [labelsOf_cons]
    by_cases hx : x.label = ""
    · rw [if_pos hx] at h
      rw [labelsOf_unlabelled [x] (by simpa), nil_append]
      exact ih h
    · rw [if_neg hx] at h
      rw [labelsOf_singleton hx]
      split at h
      · rename_i hold
        cases h
        refine ⟨x.label, rfl, ?_⟩
        have := count_pos_iff.2 (lookup_isSome.1 hold)
        rw [count_append, singleton_append, count_cons_self]
        omega
      · obtain ⟨l, he, hl⟩ := ih h
        exact ⟨l, he, by simpa using hl⟩

theorem labelTable_eq_ok : labelTable file xs = .ok table ↔ table = addresses 0 xs ∧ (labelsOf xs).Nodup := by
  rw [labelTable, labelsFrom_eq_ok]
  simp

/-! ## Alignment -/

theorem alignItems_cons (hx : x.name ≠ "") : alignItems (x :: xs) = x :: alignItems xs := by
  rw [alignItems.eq_def]
  simp only [hx, and_false, if_false]

theorem alignItems_named (h : ∀ x ∈ xs, x.name ≠ "") : alignItems xs = xs := by
  induction xs with
  | nil => rfl
  | cons x xs ih =>
    rw [forall_mem_cons] at h
    rw [alignItems_cons h.1, ih h.2]

/-- The label that an item without a mnemonic leaves to the next one. -/
def inherit (x y : Item) : Item := if y.label = "" then { y with label := x.label } else y

theorem alignItems_skip (hx : x.name = "") (y : Item) : alignItems (x :: y :: xs) = inherit x y :: alignItems xs := by
  rw [alignItems.eq_def]
  by_cases hl : x.label = ""
  · obtain ⟨l, n, ops⟩ := y
    by_cases hy : l = "" <;> simp [hx, hl, inherit, hy]
  · simp [hx, hl, inherit]

theorem alignItems_last (hx : x.name = "") :
    alignItems [x] = if x.label = "" then [] else [⟨x.label, "nop", []⟩] := by
  rw [alignItems.eq_def]
  by_cases hl : x.label = "" <;> simp [hx, hl]

/-- The steps of an alignment: an instruction stays, a line without one leaves its label to the next line. -/
theorem alignItems_induction {motive : List Item → Prop} (nil : motive [])
    (named : ∀ x xs, x.name ≠ "" → motive xs → motive (x :: xs)) (last : ∀ x, x.name = "" → motive [x])
    (skip : ∀ x y xs, x.name = "" → motive xs → motive (x :: y :: xs)) (xs : List Item) : motive xs := by
  induction xs using alignItems.induct with
  | case1 => exact nil
  | case2 x hx => exact last x hx.2
  | case3 x hx y r ih => exact skip x y r hx.2 ih
  | case4 x _ hx => exact last x hx
  | case5 x _ hx y r ih => exact skip x y r hx ih
  | case6 x r _ hx ih => exact named x r hx ih

theorem labelsOf_inherit (x y : Item) : (labelsOf [inherit x y]).Sublist (labelsOf [x, y]) := by
  rw [inherit, labelsOf_cons x]
  split
  · exact sublist_append_left (labelsOf [x]) _
  · exact sublist_append_right _ _

theorem labelsOf_alignItems (xs : List Item) : (labelsOf (alignItems xs)).Sublist (labelsOf xs) := by
  induction xs using alignItems_induction with
  | nil => exact List.Sublist.refl _
  | named x xs hx ih =>
    rw [alignItems_cons hx, labelsOf_cons x (alignItems xs), labelsOf_cons x xs]
    exact ih.append_left _
  | last x hx =>
    rw [alignItems_last hx]
    split
    · exact nil_sublist _
    · exact List.Sublist.refl _
  | skip x y xs hx ih =>
    rw [alignItems_skip hx, labelsOf_cons (inherit x y), show x :: y :: xs = [x, y] ++ xs from rfl, labelsOf_append]
    exact (labelsOf_inherit x y).append ih

theorem align_error {e : AsmError} (h : align file xs = .error e) :
    ∃ l, e = .labelTwice l file ∧ 2 ≤ (labelsOf xs).count l := by
  rw [align] at h
  cases ht : labelTable file (alignItems xs) with
  | ok table =>
    rw [ht] at h
    cases h
  | error e' =>
    rw [ht] at h
    cases h
    obtain ⟨l, he, hl⟩ := labelsFrom_error ht
    exact ⟨l, he, Nat.le_trans (by simpa using hl) ((labelsOf_alignItems xs).count_le l)⟩

theorem align_eq_ok {ys : List Item} : align file xs = .ok ys ↔ ys = alignItems xs ∧ (labelsOf ys).Nodup := by
  rw [align, map_eq_ok]
  constructor
  · rintro ⟨table, htable, rfl⟩
    exact ⟨rfl, (labelTable_eq_ok.1 htable).2⟩
  · rintro ⟨rfl, hnodup⟩
    exact ⟨_, labelTable_eq_ok.2 ⟨rfl, hnodup⟩, rfl⟩

theorem align_ok (h : (labelsOf xs).Nodup) (file : String) : align file xs = .ok (alignItems xs) :=
  align_eq_ok.2 ⟨rfl, (labelsOf_alignItems xs).nodup h⟩

end

end QubitLab.Qumis
