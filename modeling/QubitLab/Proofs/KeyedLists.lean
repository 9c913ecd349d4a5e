import QubitLab.Archive.Node

/-!
# Look-ups in keyed lists

What is found under a key after keys were set, and where a new key is put: at the end in lists that keep the order of
their keys (`Assoc.put`), somewhere in lists that are sorted by them (`Archive.place`).
-/

namespace QubitLab

variable {α : Type} {k k' : String} {v : α} {l : List (String × α)}

theorem lookup_cons_eq (k k' : String) (v : α) (l : List (String × α)) :
    ((k', v) :: l).lookup k = if k = k' then some v else l.lookup k := by
  by_cases h : k = k'
  · simp [h]
  · simp [h, List.lookup_cons, beq_eq_false_iff_ne.2 h]

theorem lookup_isSome : (l.lookup k).isSome = true ↔ k ∈ l.map (·.1) := by
  induction l with
  | nil => simp
  | cons x l ih =>
    rw [lookup_cons_eq k x.1 x.2, List.map_cons, List.mem_cons, ← ih]
    split <;> simp [*]

theorem mem_of_lookup (h : l.lookup k = some v) : (k, v) ∈ l := by
  obtain ⟨l₁, l₂, rfl, -⟩ := List.lookup_eq_some_iff.1 h
  simp

theorem lookup_of_nodup (h : (l.map (·.1)).Nodup) (hm : (k, v) ∈ l) : l.lookup k = some v := by
  induction l with
  | nil => cases hm
  | cons x l ih =>
    rw [List.map_cons, List.nodup_cons] at h
    rw [lookup_cons_eq k x.1 x.2]
    rcases List.mem_cons.1 hm with rfl | hm
    · exact if_pos rfl
    · rw [if_neg, ih h.2 hm]
      rintro rfl
      exact h.1 (List.mem_map.2 ⟨_, hm, rfl⟩)

namespace Assoc

theorem put_of_notMem (h : k ∉ l.map (·.1)) (v : α) : put k v l = l ++ [(k, v)] := by
  induction l with
  | nil => rfl
  | cons x l ih =>
    rw [List.map_cons, List.mem_cons, not_or] at h
    rw [put, if_neg (by simpa using Ne.symm h.1), ih h.2]
    rfl

theorem putAll_of_nodup {ps : List (String × α)} (h : (l.map (·.1) ++ ps.map (·.1)).Nodup) : putAll ps l = l ++ ps := by
  induction ps generalizing l with
  | nil => rw [List.append_nil]; rfl
  | cons x ps ih =>
    have hx : x.1 ∉ l.map (·.1) := fun hx => (List.nodup_append.1 h).2.2 x.1 hx x.1 List.mem_cons_self rfl
    change putAll ps (put x.1 x.2 l) = _
    rw [put_of_notMem hx, ih (by simpa using h), List.append_assoc]
    rfl

theorem lookup_put (k k' : String) (v : α) (l : List (String × α)) :
    (put k v l).lookup k' = if k' = k then some v else l.lookup k' := by
  induction l with
  | nil => rw [put, lookup_cons_eq]
  | cons x l ih =>
    obtain ⟨k₁, v₁⟩ := x
    rw [put]
    split
    · next h =>
      obtain rfl : k₁ = k := eq_of_beq h
      rw [lookup_cons_eq, lookup_cons_eq]
      split <;> rfl
    · next h =>
      rw [lookup_cons_eq, lookup_cons_eq, ih]
      by_cases hk : k' = k₁
      · rw [if_pos hk, if_pos hk, if_neg (by rintro rfl; exact h (by simp [hk]))]
      · rw [if_neg hk, if_neg hk]

theorem keys_put (k : String) (v : α) (l : List (String × α)) :
    (put k v l).map (·.1) = if k ∈ l.map (·.1) then l.map (·.1) else l.map (·.1) ++ [k] := by
  induction l with
  | nil => rfl
  | cons x l ih =>
    rw [put]
    by_cases h : x.1 = k
    · simp [h]
    · rw [if_neg (by simpa using h), List.map_cons, ih, List.map_cons]
      by_cases hk : k ∈ l.map (·.1) <;> simp [hk, Ne.symm h]

theorem nodup_put (h : (l.map (·.1)).Nodup) (v : α) : ((put k v l).map (·.1)).Nodup := by
  rw [keys_put]
  split
  · exact h
  · next hk =>
    rw [List.nodup_append]
    refine ⟨h, by simp, ?_⟩
    rintro a ha b hb rfl
    exact hk (List.mem_singleton.1 hb ▸ ha)

theorem mem_put (h : (l.map (·.1)).Nodup) {x : String × α} : x ∈ put k v l ↔ x = (k, v) ∨ x ∈ l ∧ x.1 ≠ k := by
  have hx (l' : List (String × α)) (h' : (l'.map (·.1)).Nodup) : x ∈ l' ↔ l'.lookup x.1 = some x.2 :=
    ⟨lookup_of_nodup h', mem_of_lookup⟩
  rw [hx _ (nodup_put h v), hx _ h, lookup_put]
  split
  · next hk => simp [Prod.ext_iff, hk, eq_comm]
  · next hk => simp [Prod.ext_iff, hk]

theorem lookup_putAll {ps : List (String × α)} (hall : ∀ x ∈ ps, x.1 = k → x.2 = v)
    (h : (k, v) ∈ ps ∨ l.lookup k = some v) : (putAll ps l).lookup k = some v := by
  induction ps generalizing l with
  | nil => exact h.resolve_left List.not_mem_nil
  | cons x ps ih =>
    refine ih (fun y hy => hall y (List.mem_cons_of_mem x hy)) ?_
    rw [lookup_put]
    split
    · next hk => exact .inr (by rw [hall x List.mem_cons_self hk.symm])
    · next hk =>
      refine h.imp_left fun hx => (List.mem_cons.1 hx).resolve_left ?_
      rintro rfl
      exact hk rfl

end Assoc

namespace Archive

theorem place_perm (h : k ∉ l.map (·.1)) (v : α) : (place k v l).Perm ((k, v) :: l) := by
  induction l with
  | nil => exact .refl _
  | cons x l ih =>
    obtain ⟨k₁, v₁⟩ := x
    rw [List.map_cons, List.mem_cons, not_or] at h
    rw [place, if_neg (by simpa using h.1)]
    split
    · exact .refl _
    · exact ((ih h.2).cons _).trans (.swap ..)

theorem lookup_place_of_ne (hne : k' ≠ k) (v : α) (l : List (String × α)) : (place k v l).lookup k' = l.lookup k' := by
  induction l with
  | nil => rw [place, lookup_cons_eq, if_neg hne]
  | cons x l ih =>
    rw [place]
    split
    · next h => rw [lookup_cons_eq, lookup_cons_eq k' x.1 x.2, if_neg hne, if_neg (eq_of_beq h ▸ hne)]
    · split
      · rw [lookup_cons_eq, if_neg hne]
      · rw [lookup_cons_eq k' x.1 x.2, lookup_cons_eq k' x.1 x.2, ih]

end Archive

end QubitLab
