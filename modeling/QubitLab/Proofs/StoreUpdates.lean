import QubitLab.Proofs.ControlStore

/-!
# Updates of a control store

An insertion at one of the 256 lines sets that line or, if a field is out of its range, nothing (`insert_line_iff`,
`insert_refused`). A text is read row by row (`loadRows_eq_error_iff`): the rows before the first that cannot be read
are set, and no other.
-/

namespace QubitLab.Microcode

/-- The fields that a line is made of are in their ranges. -/
structure InRange (c k w k' w' : Int) : Prop where
  condition : 0 ≤ c ∧ c ≤ 3
  leftKind : 0 ≤ k ∧ k ≤ 3
  leftCodeword : 0 ≤ w ∧ w ≤ 255
  rightKind : 0 ≤ k' ∧ k' ≤ 3
  rightCodeword : 0 ≤ w' ∧ w' ≤ 255

/-! ## Lines -/

theorem Line.make_isOk_iff {c k w k' w' : Int} : (∃ l, Line.make c k w k' w' = .ok l) ↔ InRange c k w k' w' := by
  simp only [Line.make_eq_ok]
  constructor
  · rintro ⟨l, ⟨h1, h2, h3, h4, h5⟩, rfl, rfl, rfl, rfl, rfl⟩
    constructor <;> omega
  · rintro ⟨h1, h2, h3, h4, h5⟩
    refine ⟨⟨c.toNat, k.toNat, w.toNat, k'.toNat, w'.toNat⟩, ?_, ?_⟩
    · constructor <;> dsimp only <;> omega
    · dsimp only
      omega

theorem field_error {hi : Nat} {n : Int} {e : StoreError} (h : field hi n = .error e) : e.fault.kind = .value := by
  rw [field] at h
  split at h
  · cases h
  · cases h
    rfl

theorem Line.make_error {c k w k' w' : Int} {e : StoreError} (h : Line.make c k w k' w' = .error e) :
    e.fault.kind = .value := by
  have hfields : Ends (fun e : StoreError => e.fault.kind = .value) (fun _ => True) (Line.make c k w k' w') := by
    have hfield (hi : Nat) (n : Int) : Ends (fun e : StoreError => e.fault.kind = .value) (fun _ => True) (field hi n) :=
      ends_iff.2 ⟨fun _ _ => trivial, fun _ => field_error⟩
    rw [Line.make]
    refine (hfield 3 c).bind fun _ _ => (hfield 3 k).bind fun _ _ => (hfield 255 w).bind fun _ _ => ?_
    exact (hfield 3 k').bind fun _ _ => (hfield 255 w').bind fun _ _ => trivial
  exact (ends_iff.1 hfields).2 e h

namespace Store

/-! ## Insertions -/

/-- What a change leaves of a store: the new store, or the old one and why the change failed. -/
def after (s : Store) : Except StoreError Store → Store × Option StoreError
  | .ok s' => (s', none)
  | .error e => (s, some e)

theorem place?_val (i : Fin 256) : place? i = some i := by
  obtain ⟨j, hj, hji⟩ := place?_line (n := i) (by omega) (by omega)
  rw [hj, Option.some.injEq]
  exact Fin.ext (by omega)

variable {s : Store} {c k w k' w' : Int}

/-- An insertion at a line sets the line, to a word that spells the fields. -/
theorem insert_line {s' : Store} {i : Fin 256} (h : s.insert i c k w k' w' = .ok s') :
    ∃ v, s' = s.set i v i.isLt ∧ (Line.ofWord v).fields.map Int.ofNat = [c, k, w, k', w'] := by
  obtain ⟨l, j, hj, -, hl, hi, rfl⟩ := insert_eq_ok.1 h
  obtain rfl : i = ⟨j, hj⟩ := Option.some.inj ((place?_val i).symm.trans hi)
  obtain ⟨hfits, rfl, rfl, rfl, rfl, rfl⟩ := Line.make_eq_ok.1 hl
  refine ⟨l.word, rfl, ?_⟩
  rw [Line.ofWord_word hfits]
  rfl

theorem insert_line_iff {i : Fin 256} : (∃ s', s.insert i c k w k' w' = .ok s') ↔ InRange c k w k' w' := by
  rw [← Line.make_isOk_iff]
  constructor
  · rintro ⟨s', h⟩
    obtain ⟨l, -, -, -, hl, -⟩ := insert_eq_ok.1 h
    exact ⟨l, hl⟩
  · rintro ⟨l, hl⟩
    have hi := i.isLt
    exact ⟨_, insert_eq_ok.2 ⟨l, i, i.isLt, by omega, hl, place?_val i, rfl⟩⟩

theorem insert_refused (s : Store) {n : Int} (h : ¬InRange c k w k' w' ∨ 256 < n) :
    ∃ e, s.insert n c k w k' w' = .error e ∧ e.fault.kind = .value := by
  rw [insert]
  by_cases hn : n > 256
  · rw [if_pos hn]
    exact ⟨.lineNumber, rfl, rfl⟩
  rw [if_neg hn]
  cases hl : Line.make c k w k' w' with
  | error e => exact ⟨e, rfl, Line.make_error hl⟩
  | ok l => exact absurd (h.resolve_right hn) (not_not_intro (Line.make_isOk_iff.1 ⟨l, hl⟩))

/-! ## Readings -/

/-- A reading fails at the first row that cannot be read, when all rows before it have been set. -/
theorem loadRows_eq_error_iff {r : Reader} {s' : Store} {rows : List String} {e : StoreError} :
    s.loadRows r rows = (s', some e) ↔
      ∃ before row rest, rows = before ++ row :: rest ∧ before.foldlM (loadRow r) s = .ok s' ∧ s'.loadRow r row = .error e := by
  induction rows generalizing s with
  | nil => simp [loadRows]
  | cons t rows ih =>
    rw [loadRows]
    constructor
    · intro h
      cases ht : s.loadRow r t with
      | ok s₁ =>
        rw [ht] at h
        obtain ⟨before, row, rest, rfl, hbefore, hrow⟩ := ih.1 h
        refine ⟨t :: before, row, rest, rfl, ?_, hrow⟩
        rw [List.foldlM_cons, ht]
        exact hbefore
      | error e' =>
        rw [ht] at h
        cases h
        exact ⟨[], t, rows, rfl, rfl, ht⟩
    · rintro ⟨before, row, rest, hrows, hbefore, hrow⟩
      cases before with
      | nil =>
        cases hrows
        cases hbefore
        rw [hrow]
      | cons t' before =>
        cases hrows
        rw [List.foldlM_cons] at hbefore
        obtain ⟨s₁, ht, hbefore⟩ := bind_eq_ok.1 hbefore
        rw [ht]
        exact ih.2 ⟨before, row, rest, rfl, hbefore, hrow⟩

/-- **Updates are guarded, and a text is read row by row.** At each of the 256 lines an insertion succeeds exactly if the fields
are in their ranges; it then sets that line, to a word that spells the fields, and no other. With a field out of its range,
or a line number above 256, it is refused as a value and the store stays. A text fails exactly at its first row that
cannot be read. The store is then what the rows before it make of it: neither that row nor a later one sets a line. -/
theorem updates_guarded (r : Reader) (s : Store) :
    (∀ (i : Fin 256) (c k w k' w' : Int),
      ((∃ s', s.after (s.insert i c k w k' w') = (s', none)) ↔ InRange c k w k' w') ∧
      ∀ s', s.after (s.insert i c k w k' w') = (s', none) →
        ∃ v, s' = s.set i v i.isLt ∧ (Line.ofWord v).fields.map Int.ofNat = [c, k, w, k', w']) ∧
    (∀ n c k w k' w' : Int, ¬InRange c k w k' w' ∨ 256 < n →
      ∃ e, s.after (s.insert n c k w k' w') = (s, some e) ∧ e.fault.kind = .value) ∧
    ∀ (text : String) (s' : Store) (e : StoreError), s.load r text = (s', some e) ↔
      ∃ before row rest, (Text.fileLines text).drop 1 = before ++ row :: rest ∧
        before.foldlM (loadRow r) s = .ok s' ∧ s'.loadRow r row = .error e := by
  have hafter {x : Except StoreError Store} {s' : Store} : s.after x = (s', none) ↔ x = .ok s' := by
    cases x <;> simp [after]
  refine ⟨fun i c k w k' w' => ⟨?_, fun s' h => insert_line (hafter.1 h)⟩, ?_, fun text s' e => loadRows_eq_error_iff⟩
  · simp only [hafter]
    exact insert_line_iff
  · intro n c k w k' w' h
    obtain ⟨e, he, hkind⟩ := s.insert_refused h
    exact ⟨e, by rw [he]; rfl, hkind⟩

/-- A text of two rows. The second names a kind that does not exist. -/
def halfText : String := "line condition kind codeword kind codeword\n7: 0 1 5 0 0\n8: 0 4 5 0 0\n"

theorem load_halfText (r : Reader) :
    Store.empty.load r halfText = (Store.empty.set 7 (Line.word ⟨0, 1, 5, 0, 0⟩), some (.outOfRange 4 0 3)) := by
  have hrows : (Text.fileLines halfText).drop 1 = ["7: 0 1 5 0 0\n", "8: 0 4 5 0 0\n"] := by decide +kernel
  have hfirst : Store.empty.loadRow r "7: 0 1 5 0 0\n" = .ok (Store.empty.set 7 (Line.word ⟨0, 1, 5, 0, 0⟩)) := by
    rw [loadRow, if_neg (fun h => absurd h.2 (by decide +kernel)),
      show rowNumbers? "7: 0 1 5 0 0\n" = some [7, 0, 1, 5, 0, 0] by decide +kernel]
    rfl
  have hsecond (s : Store) : s.loadRow r "8: 0 4 5 0 0\n" = .error (.outOfRange 4 0 3) := by
    rw [loadRow, if_neg (fun h => absurd h.2 (by decide +kernel)),
      show rowNumbers? "8: 0 4 5 0 0\n" = some [8, 0, 4, 5, 0, 0] by decide +kernel]
    rfl
  rw [load, hrows, loadRows, hfirst]
  exact loadRows_eq_error_iff.2 ⟨[], _, [], rfl, rfl, hsecond _⟩

/-- The last line with all bits set, a kind that does not exist, and a text that stops at its second row. -/
theorem updates_guarded_halfText :
    (∃ s', Store.empty.after (Store.empty.insert (255 : Fin 256) 3 3 255 3 255) = (s', none)) ∧
    (∃ e, Store.empty.after (Store.empty.insert 8 0 4 5 0 0) = (Store.empty, some e) ∧ e.fault.kind = .value) ∧
    ∃ before row rest, (Text.fileLines halfText).drop 1 = before ++ row :: rest ∧
      before.foldlM (loadRow .strict) Store.empty = .ok (Store.empty.set 7 (Line.word ⟨0, 1, 5, 0, 0⟩)) := by
  obtain ⟨hlines, hrefused, htexts⟩ := updates_guarded .strict Store.empty
  refine ⟨(hlines 255 3 3 255 3 255).1.2 (by constructor <;> decide), hrefused 8 0 4 5 0 0 (.inl ?_), ?_⟩
  · intro h
    exact absurd h.leftKind (by decide)
  · obtain ⟨before, row, rest, hrows, hbefore, -⟩ := (htexts halfText _ _).1 (load_halfText .strict)
    exact ⟨before, row, rest, hrows, hbefore⟩

/-- A text that is refused can change the store. An insertion before the first line changes the last one, and one right behind
the last line is not refused as a value. -/
theorem updates_unguarded :
    (¬∀ (r : Reader) (s s' : Store) (text : String) (e : StoreError), s.load r text = (s', some e) → s' = s) ∧
    Store.empty.insert (-1) 0 1 5 0 0 = .ok (Store.empty.set 255 (Line.word ⟨0, 1, 5, 0, 0⟩)) ∧
    ∃ e, Store.empty.insert 256 0 1 5 0 0 = .error e ∧ e.fault.kind ≠ .value := by
  refine ⟨fun h => ?_, rfl, .noPlace, rfl, by decide⟩
  have hempty := h .strict _ _ _ _ (load_halfText .strict)
  exact absurd (congrArg (fun s : Store => s.get 7) hempty) (by decide)

end Store

end QubitLab.Microcode
