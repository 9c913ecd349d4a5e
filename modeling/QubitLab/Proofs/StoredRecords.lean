import QubitLab.Proofs.KeyedLists
import QubitLab.Proofs.Numeral
import QubitLab.Proofs.Outcome

/-!
# Records that a file gives back

`Kept v` says that a value comes back from a file as it was: it is made of null, truth values, whole numbers of 64 bits,
texts, lists, tuples and records, and has none of the forms that a file takes for another. `read_write`: a kept record
that is written into an empty group is read as an equal record.

A group is described by what its fields become, in any order: `writeFields_perm` says what is in a group after fields
were written, and `readInto_group` what is read from it.
-/

namespace QubitLab.Archive

open List

/-! ## Names -/

/-- A name under which a child of a group is found again. -/
structure ChildName (k : String) : Prop where
  ne_empty : k ≠ ""
  ne_point : k ≠ "."
  noSlash : '/' ∉ k.toList
  notNumber : Decimal.readInt? 10 k.toList = none

theorem splitBy_of_forall {p : Char → Bool} {s : List Char} (h : ∀ c ∈ s, p c = false) : Chars.splitBy p s = [s] := by
  induction s with
  | nil => rfl
  | cons c s ih =>
    rw [forall_mem_cons] at h
    simp [Chars.splitBy, ih h.2, h.1]

namespace ChildName

variable {k : String}

theorem pathNames_eq (h : ChildName k) : pathNames k = [k] := by
  have hsplit : Chars.splitBy (· == '/') k.toList = [k.toList] := by
    refine splitBy_of_forall fun c hc => beq_eq_false_iff_ne.2 ?_
    rintro rfl
    exact h.noSlash hc
  have hpoint : k.toList ≠ ['.'] := fun hk => h.ne_point (String.toList_inj.1 hk)
  simp [pathNames, hsplit, h.ne_empty, hpoint]

theorem readKey_eq (h : ChildName k) : readKey k = k := by rw [readKey, h.notNumber]; rfl

end ChildName

theorem toList_entryName (i : Nat) : (entryName i).toList = "list_idx_".toList ++ Nat.toDigits 10 i := by
  simp [entryName, Decimal.natText]

variable {i : Nat} {cs : List (String × Node)} {as fs : Fields} {h : Held} {xs : List Value} {v : Value}

theorem entryName_inj {j : Nat} (h : entryName i = entryName j) : i = j := by
  have hdigits : Nat.toDigits 10 i = Nat.toDigits 10 j := by
    have := congrArg String.toList h
    rwa [toList_entryName, toList_entryName, append_cancel_left_eq] at this
  rw [← Nat.ofDigitChars_ten_toDigits (n := i), hdigits, Nat.ofDigitChars_ten_toDigits]

theorem entryName_ne {k : String} (h : k.toList.take 9 ≠ "list_idx_".toList) : entryName i ≠ k := by
  rintro rfl
  rw [toList_entryName] at h
  exact h (by simp)

theorem childName_entryName (i : Nat) : ChildName (entryName i) where
  ne_empty := entryName_ne (by decide)
  ne_point := entryName_ne (by decide)
  noSlash := by
    rw [toList_entryName, mem_append]
    rintro (h | h)
    · exact absurd h (by decide)
    · exact absurd (Decimal.isDigit_of_mem_toDigits h) (by decide)
  notNumber := by
    have htrim : Chars.trim (entryName i).toList = (entryName i).toList := by
      refine Decimal.trimBy_eq_self ?_ ?_ <;> rw [toList_entryName]
      · rintro c hc
        obtain rfl : 'l' = c := Option.some.inj hc
        decide
      · intro c hc
        rw [getLast?_append_of_ne_nil _ (Nat.toDigits_ne_nil)] at hc
        exact Decimal.isBlank_of_isDigit (Decimal.isDigit_of_mem_toDigits (mem_of_mem_getLast? hc))
    rw [Decimal.readInt?, htrim, toList_entryName]
    rfl

/-! ## Groups -/

/-- The value of a child. -/
def childValue (n : Node) : Value := (n.readInto []).toOption.getD .null

/-- The fields that are read from a group. -/
def fieldsOf (as : Fields) (cs : List (String × Node)) : Fields :=
  (cs.map fun x => (x.1, childValue x.2)) ++ as.map fun x => (x.1, readAttr x.2)

/-- No name stands twice in the group, and each child is found and read. -/
structure Readable (as : Fields) (cs : List (String × Node)) : Prop where
  nodup : ((fieldsOf as cs).map (·.1)).Nodup
  children : ∀ x ∈ cs, ChildName x.1 ∧ ∃ w, x.2.readInto [] = .ok w

theorem readChildren_eq (start : Fields) (hcs : ∀ x ∈ cs, ChildName x.1 ∧ ∃ w, x.2.readInto [] = .ok w)
    (hkeys : (start.map (·.1) ++ cs.map (·.1)).Nodup) :
    Node.readChildren start cs = .ok (start ++ cs.map fun x => (x.1, childValue x.2)) := by
  induction cs generalizing start with
  | nil => rw [Node.readChildren, List.map_nil, append_nil]; rfl
  | cons x cs ih =>
    obtain ⟨k, n⟩ := x
    rw [forall_mem_cons] at hcs
    obtain ⟨⟨hk, w, hw⟩, hcs⟩ := hcs
    have hvalue : childValue n = w := by rw [childValue, hw]; rfl
    have hnew : k ∉ start.map (·.1) := fun hs => (nodup_append.1 hkeys).2.2 k hs k mem_cons_self rfl
    rw [Node.readChildren, bind_eq_ok]
    refine ⟨w, hw, ?_⟩
    rw [hk.readKey_eq, Fields.put, Assoc.put_of_notMem hnew, ih _ hcs (by simpa using hkeys)]
    simp [hvalue]

theorem readInto_group (h : Readable as cs) : Node.readInto [] (.group as cs) = assembled as (fieldsOf as cs) := by
  have hkeys := h.nodup
  rw [fieldsOf, map_append] at hkeys
  have hread := readChildren_eq [] h.children (by simpa [Function.comp_def] using (nodup_append.1 hkeys).1)
  rw [Node.readInto, hread]
  change assembled as (Assoc.putAll _ ([] ++ _)) = _
  rw [nil_append, Assoc.putAll_of_nodup hkeys]
  rfl

/-! ## Fields -/

/-- What is read of what a value became. -/
def Held.read : Held → Attempt Value
  | .attr v => return readAttr v
  | .child n => n.readInto []
  | .nothing => fail .key

/-- The name fits what a value became: an attribute is no mark of a list, and a child is found. -/
def Held.Named (k : String) : Held → Prop
  | .attr _ => k ≠ "list_type"
  | .child _ => ChildName k
  | .nothing => False

/-- A new field of a group is read together with those that are there. -/
theorem putInto_group {k : String} {w : Value}
    (hname : h.Named k) (hread : h.read = .ok w) (hg : Readable as cs) (hk : k ∉ (fieldsOf as cs).map (·.1)) :
    ∃ as' cs', h.putInto k (.group as cs) = .ok (.group as' cs') ∧ Readable as' cs' ∧
      (fieldsOf as' cs').Perm ((k, w) :: fieldsOf as cs) ∧ as'.lookup "list_type" = as.lookup "list_type" := by
  have hsplit : k ∉ cs.map (·.1) ∧ k ∉ as.map (·.1) := by simpa [fieldsOf] using hk
  have hnodup {l : Fields} (hl : l.Perm ((k, w) :: fieldsOf as cs)) : (l.map (·.1)).Nodup :=
    (hl.map _).nodup_iff.2 (nodup_cons.2 ⟨hk, hg.nodup⟩)
  cases h with
  | attr v =>
    obtain rfl : readAttr v = w := Except.ok.inj hread
    have hperm : (fieldsOf (place k v as) cs).Perm ((k, readAttr v) :: fieldsOf as cs) :=
      (((place_perm hsplit.2 v).map _).append_left _).trans perm_middle
    exact ⟨_, _, rfl, ⟨hnodup hperm, hg.children⟩, hperm, lookup_place_of_ne hname.symm v as⟩
  | child n =>
    have hvalue : childValue n = w := by rw [childValue, show n.readInto [] = .ok w from hread]; rfl
    have hplace := place_perm hsplit.1 n
    have hperm : (fieldsOf as (place k n cs)).Perm ((k, w) :: fieldsOf as cs) := by
      rw [← hvalue]
      exact (hplace.map _).append_right _
    have hnone : cs.lookup k = none := by
      rw [lookup_eq_none_iff]
      intro x hx
      simpa using fun hkx : k = x.1 => hsplit.1 (hkx ▸ mem_map_of_mem hx)
    refine ⟨as, place k n cs, ?_, ⟨hnodup hperm, fun x hx => ?_⟩, hperm, rfl⟩
    · rw [Held.putInto, ChildName.pathNames_eq hname]
      simp [Node.insert, hnone, pure, Except.pure]
    · rcases mem_cons.1 (hplace.mem_iff.1 hx) with rfl | hx
      · exact ⟨hname, w, hread⟩
      · exact hg.children x hx
  | nothing => exact hname.elim

/-- What comes back of a value. -/
def returned (v : Value) : Value := ((held v).bind Held.read).toOption.getD .null

/-- The value can stand under the name in a group. -/
def Fits (k : String) (v : Value) : Prop := ∃ h, held v = .ok h ∧ h.Named k ∧ h.read = .ok (returned v)

/-- What is in a group after fields were written into it, in any order. -/
theorem writeFields_perm (hfs : ∀ x ∈ fs, Fits x.1 x.2)
    (hg : Readable as cs) (hkeys : (fs.map (·.1) ++ (fieldsOf as cs).map (·.1)).Nodup) :
    ∃ as' cs', Node.writeFields fs (.group as cs) = .ok (.group as' cs') ∧ Readable as' cs' ∧
      (fieldsOf as' cs').Perm ((fs.map fun x => (x.1, returned x.2)) ++ fieldsOf as cs) ∧
      as'.lookup "list_type" = as.lookup "list_type" := by
  induction fs generalizing as cs with
  | nil => exact ⟨as, cs, by rw [Node.writeFields]; rfl, hg, .refl _, rfl⟩
  | cons x fs ih =>
    obtain ⟨k, v⟩ := x
    rw [forall_mem_cons] at hfs
    obtain ⟨⟨h, hheld, hname, hread⟩, hfs⟩ := hfs
    rw [map_cons, cons_append, nodup_cons, mem_append, not_or] at hkeys
    -- The names that are still to come stay new, since the step only adds `k` to what is read.
    obtain ⟨as₁, cs₁, hput, hg₁, hperm₁, htag₁⟩ := putInto_group hname hread hg hkeys.1.2
    have hkeys₁ : (fs.map (·.1) ++ (fieldsOf as₁ cs₁).map (·.1)).Nodup := by
      refine (((hperm₁.map _).append_left _).trans perm_middle).nodup_iff.2 (nodup_cons.2 ⟨?_, hkeys.2⟩)
      rw [mem_append, not_or]
      exact hkeys.1
    obtain ⟨as', cs', hwrite, hg', hperm, htag⟩ := ih hfs hg₁ hkeys₁
    refine ⟨as', cs', ?_, hg', ?_, htag.trans htag₁⟩
    · rw [Node.writeFields]
      exact bind_eq_ok.2 ⟨h, hheld, bind_eq_ok.2 ⟨_, hput, hwrite⟩⟩
    · exact (hperm.trans (hperm₁.append_left _)).trans perm_middle

/-! ## Equal values -/

theorem sameItems_of_forall₂ {ys : List Value} (h : List.Forall₂ (fun x y => x.same y = true) xs ys) :
    Value.sameItems xs ys = true := by
  induction h with
  | nil => rfl
  | cons hxy _ ih => rw [Value.sameItems, hxy, ih]; rfl

/-- A record is equal to one that has an equal value under each of its keys, and no other keys. -/
theorem same_record {gs : Fields} (hlen : fs.length = gs.length)
    (h : ∀ x ∈ fs, ∃ w, gs.lookup x.1 = some w ∧ x.2.same w = true) : (Value.record fs).same (.record gs) = true := by
  have hfields : ∀ r : Fields, (∀ x ∈ r, ∃ w, gs.lookup x.1 = some w ∧ x.2.same w = true) →
      Value.sameFields r gs = true := by
    intro r hr
    induction r with
    | nil => rfl
    | cons x r ih =>
      rw [forall_mem_cons] at hr
      obtain ⟨⟨w, hw, hsame⟩, hr⟩ := hr
      rw [Value.sameFields, hw]
      simp [hsame, ih hr]
  rw [Value.same, hfields fs h, hlen]
  simp

theorem same_int {x : Value} {n : Int} (h : x.int? = some n) : x.same (.int n) = true := by
  cases x <;> simp_all [Value.int?, Value.same, Number.ofValue?, Number.eq]

/-! ## Lists -/

theorem slices_ofArray {α : Type} (wrap : Tensor α → Value) (l : List α) :
    Value.slices wrap (.ofArray l.toArray) = .ok (l.map fun x => wrap ⟨[], #[x]⟩) := by
  refine congrArg Except.ok (ext_getElem (by simp [Tensor.ofArray]) fun i hi _ => ?_)
  have hi : i < l.length := by simpa [Tensor.ofArray] using hi
  have hone : (l.drop i).take 1 = [l[i]] := by rw [drop_eq_getElem_cons hi]; rfl
  simp [Tensor.ofArray, hone]

theorem readDataset_array {data : Value} (h : data.each = .ok xs) : (Held.array data).read = .ok (.list xs) := by
  simp only [Held.array, Held.read, Node.readInto, readDataset]
  rw [show Fields.get? [("list_type", Value.text "array")] "list_type" = some (.text "array") from rfl]
  simp [h, Except.toOption, pure, Except.pure]

/-- The items of a list with the names under which they are written. -/
def entries (xs : List Value) (i : Nat) : Fields := (xs.zipIdx i).map fun x => (entryName x.2, x.1)

theorem writeEntries_eq (xs : List Value) (i : Nat) (n : Node) :
    Node.writeEntries xs i n = Node.writeFields (entries xs i) n := by
  induction xs generalizing i n with
  | nil => rw [Node.writeEntries, entries, zipIdx_nil, List.map_nil, Node.writeFields]
  | cons x xs ih =>
    rw [Node.writeEntries, entries, zipIdx_cons, map_cons, Node.writeFields]
    simp only [ih]
    rfl

theorem mem_entries (hi : i < xs.length) : (entryName i, xs[i]) ∈ entries xs 0 :=
  mem_map.2 ⟨(xs[i], i), mem_zipIdx_iff_getElem?.2 (by simp [hi]), rfl⟩

theorem keys_entries (xs : List Value) : (entries xs 0).map (·.1) = (List.range xs.length).map entryName := by
  rw [entries, map_map, range_eq_range', ← zipIdx_map_snd, map_map]
  rfl

/-- The items that were written into the group of a list are read from it in their order. -/
theorem readEntries_written (tag : String) (hxs : ∀ x ∈ xs, ∀ i, Fits (entryName i) x) :
    ∃ as cs, Node.writeEntries xs 0 (listGroup tag xs.length) = .ok (.group as cs) ∧ Readable as cs ∧
      as.lookup "list_type" = some (.text tag) ∧ readEntries (fieldsOf as cs) = .ok (xs.map returned) := by
  have hfs : ∀ x ∈ entries xs 0, Fits x.1 x.2 := by
    intro x hx
    obtain ⟨y, hy, rfl⟩ := mem_map.1 hx
    exact hxs y.1 (fst_mem_of_mem_zipIdx hy) y.2
  have hstart : Readable [("list_length", .int xs.length), ("list_type", .text tag)] [] :=
    ⟨show ["list_length", "list_type"].Nodup by decide, fun x hx => absurd hx not_mem_nil⟩
  have hkeys : ((entries xs 0).map (·.1) ++ ["list_length", "list_type"]).Nodup := by
    rw [keys_entries, nodup_append]
    have hentries : ((List.range xs.length).map entryName).Nodup :=
      List.Pairwise.map _ (fun i j hij h => hij (entryName_inj h)) nodup_range
    refine ⟨hentries, by decide, fun a ha b hb => ?_⟩
    obtain ⟨i, -, rfl⟩ := mem_map.1 ha
    rcases mem_cons.1 hb with rfl | hb
    · exact entryName_ne (by decide)
    · obtain rfl := mem_singleton.1 hb
      exact entryName_ne (by decide)
  obtain ⟨as, cs, hwrite, hg, hperm, htag⟩ := writeFields_perm hfs hstart hkeys
  -- Names are all different, so each entry of the group is found by its name, wherever it was placed.
  have hfound {k : String} {v : Value} (hm : (k, v) ∈ ((entries xs 0).map fun x => (x.1, returned x.2)) ++
      fieldsOf [("list_length", .int xs.length), ("list_type", .text tag)] []) :
      (fieldsOf as cs).get k = .ok v := by
    rw [Fields.get, Fields.get?, lookup_of_nodup hg.nodup (hperm.mem_iff.2 hm)]
    rfl
  refine ⟨as, cs, (writeEntries_eq ..).trans hwrite, hg, htag, ?_⟩
  have hlength : (fieldsOf as cs).get "list_length" = .ok (.int xs.length) :=
    hfound (mem_append_right _ mem_cons_self)
  rw [readEntries, hlength]
  refine mapM_eq_ok.2 (forall₂_iff_get.2 ⟨by simp, fun i hi hi' => ?_⟩)
  have hi : i < xs.length := by simpa using hi'
  simpa using hfound (mem_append_left _ (mem_map_of_mem (f := fun x => (x.1, returned x.2)) (mem_entries hi)))

/-! ## Kept values -/

/-- Values that become attributes. -/
def isScalar : Value → Bool
  | .record _ => false
  | .list xs | .tuple xs => xs.isEmpty
  | _ => true

/-- The value can stand under the name: as an attribute it must not be taken for the mark of a list. -/
def NameFits (k : String) (v : Value) : Prop := if isScalar v then k ≠ "list_type" else ChildName k

/-- Values that a file gives back. Lists of truth values, whole numbers or texts are kept as arrays, other lists if their
items are of several sorts or records. -/
inductive Kept : Value → Prop
  | null : Kept .null
  | bool (b : Bool) : Kept (.bool b)
  | int {n : Int} (h : (isSigned n || isLarge n) = true) : Kept (.int n)
  | text {s : String} (hnull : s ≠ nullMark) (hempty : s ≠ emptyMark) : Kept (.text s)
  | noItems : Kept (.list [])
  | bools (b : Bool) (bs : List Bool) : Kept (.list ((b :: bs).map .bool))
  | ints {n : Int} {xs : List Value} {ns : List Int} (h : List.Forall₂ (fun x i => x.int? = some i) xs ns)
      (hrange : ((n :: ns).all isSigned || (n :: ns).all isLarge) = true) : Kept (.list (.int n :: xs))
  | texts (s : String) (ss : List String) : Kept (.list ((s :: ss).map .text))
  | items {xs : List Value} (hmixed : isUniform xs = false ∨ ∃ fs, .record fs ∈ xs) (h : ∀ x ∈ xs, Kept x) :
      Kept (.list xs)
  | tuple {xs : List Value} (hne : xs ≠ []) (h : ∀ x ∈ xs, Kept x) : Kept (.tuple xs)
  | record {fs : Fields} (hkeys : (fs.map (·.1)).Nodup) (hnames : ∀ x ∈ fs, NameFits x.1 x.2)
      (h : ∀ x ∈ fs, Kept x.2) : Kept (.record fs)

/-- The value becomes something from which an equal value is read. -/
def Returns (v : Value) : Prop := (∀ k, NameFits k v → Fits k v) ∧ v.same (returned v) = true

theorem Returns.of_read {w : Value} (hheld : held v = .ok h) (hread : h.read = .ok w)
    (hsame : v.same w = true) (hname : ∀ k, NameFits k v → h.Named k) : Returns v := by
  have hw : returned v = w := by rw [returned, hheld]; exact congrArg (fun r => Except.toOption r |>.getD .null) hread
  exact ⟨fun k hk => ⟨h, hheld, hname k hk, by rw [hw, hread]⟩, by rw [hw, hsame]⟩

theorem sameItems_returned (h : ∀ x ∈ xs, Returns x) : Value.sameItems xs (xs.map returned) = true := by
  refine sameItems_of_forall₂ (forall₂_map_right_iff.2 (forall₂_same.2 fun x hx => (h x hx).2))

theorem Returns.entry (h : Returns v) (i : Nat) : Fits (entryName i) v := by
  refine h.1 _ ?_
  rw [NameFits]
  split
  · exact entryName_ne (by decide)
  · exact childName_entryName i

/-- A record of values that come back is read as an equal record. -/
theorem readInto_writeFields (hkeys : (fs.map (·.1)).Nodup) (hnames : ∀ x ∈ fs, NameFits x.1 x.2)
    (h : ∀ x ∈ fs, Returns x.2) : ∃ n v, Node.writeFields fs .empty = .ok n ∧ n.readInto [] = .ok v ∧
      (Value.record fs).same v = true := by
  obtain ⟨as, cs, hwrite, hg, hperm, htag⟩ := writeFields_perm (fun x hx => (h x hx).1 _ (hnames x hx))
    (show Readable [] [] from ⟨nodup_nil, fun x hx => absurd hx not_mem_nil⟩) (by simpa [fieldsOf] using hkeys)
  rw [show fieldsOf [] [] = [] from rfl, append_nil] at hperm
  refine ⟨_, .record (fieldsOf as cs), hwrite, ?_, same_record ?_ fun x hx => ⟨_, ?_, (h x hx).2⟩⟩
  · rw [readInto_group hg, assembled, Fields.get?, htag]
    rfl
  · simpa using hperm.length_eq.symm
  · exact lookup_of_nodup hg.nodup (hperm.mem_iff.2 (mem_map_of_mem (f := fun x => (x.1, returned x.2)) hx))

/-! ## What becomes of lists -/

theorem held_uniform (hne : xs ≠ []) (huniform : isUniform xs = true)
    (hrecord : ∀ x ∈ xs, EntrySort.of x ≠ .record) (hheld : heldUniform xs = .ok h) : held (.list xs) = .ok h := by
  have hany : (xs.any fun x => EntrySort.of x == .record) = false := by
    rw [any_eq_false]
    exact fun x hx => by simpa using hrecord x hx
  rw [held, if_neg (by simpa using hne), huniform, hany, hheld]
  rfl

theorem returns_bools (b : Bool) (bs : List Bool) : Returns (.list ((b :: bs).map .bool)) := by
  have hread : (Held.array (.bools (.ofArray (b :: bs).toArray))).read = .ok (.list ((b :: bs).map .bool)) := by
    refine readDataset_array ?_
    rw [Value.each, slices_ofArray]
    exact congrArg Except.ok (map_map ..)
  have hheld : heldUniform ((b :: bs).map .bool) = .ok (.array (.bools (.ofArray (b :: bs).toArray))) := by
    simp [heldUniform, Value.truth, Function.comp_def, pure, Except.pure]
  refine .of_read (held_uniform (by simp) ?_ ?_ hheld) hread ?_ fun _ h => h
  · simp [isUniform, EntrySort.of]
  · intro x hx
    obtain ⟨c, -, rfl⟩ := mem_map.1 hx
    simp [EntrySort.of]
  · refine sameItems_of_forall₂ (forall₂_same.2 fun x hx => ?_)
    obtain ⟨c, -, rfl⟩ := mem_map.1 hx
    cases c <;> rfl

theorem of_int? {x : Value} {i : Int} (h : x.int? = some i) : EntrySort.of x = .whole ∨ EntrySort.of x = .truth := by
  cases x with
  | int n => exact .inl rfl
  | bool b => exact .inr rfl
  | _ => cases h

theorem returns_ints {n : Int} {ns : List Int} (h : List.Forall₂ (fun x i => x.int? = some i) xs ns)
    (hrange : ((n :: ns).all isSigned || (n :: ns).all isLarge) = true) : Returns (.list (.int n :: xs)) := by
  have hns : xs.filterMap Value.int? = ns := by
    clear hrange
    induction h with
    | nil => rfl
    | cons hx _ ih => rw [filterMap_cons_some hx, ih]
  have hsort : ∀ x ∈ xs, EntrySort.of x = .whole ∨ EntrySort.of x = .truth := by
    intro x hx
    obtain ⟨i, hi⟩ := mem_iff_getElem?.1 hx
    obtain ⟨j, -, hj⟩ := getElem?_of_forall₂ h hi
    exact of_int? hj
  have hheld : heldUniform (.int n :: xs) = .ok (.array (.ofIntArray (n :: ns).toArray)) := by
    have hall : (Value.int n :: xs).filterMap Value.int? = n :: ns := congrArg (n :: ·) hns
    rw [heldUniform, hall, wholeArray, hrange]
    rfl
  have hread : (Held.array (.ofIntArray (n :: ns).toArray)).read = .ok (.list ((n :: ns).map .int)) := by
    refine readDataset_array ?_
    rw [Value.ofIntArray, Value.each, slices_ofArray]
    exact congrArg Except.ok (map_map ..)
  refine .of_read (held_uniform (by simp) ?_ ?_ hheld) hread (sameItems_of_forall₂ ?_) fun _ h => h
  · refine all_eq_true.2 fun x hx => ?_
    rcases hsort x hx with hx | hx <;> simp [hx, show EntrySort.of (Value.int n) = .whole from rfl]
  · refine forall_mem_cons.2 ⟨by simp [EntrySort.of], fun x hx => ?_⟩
    rcases hsort x hx with hx | hx <;> simp [hx]
  · exact .cons (same_int rfl) (forall₂_map_right_iff.2 (h.imp fun _ _ => same_int))

theorem returns_texts (s : String) (ss : List String) : Returns (.list ((s :: ss).map .text)) := by
  refine .of_read (held_uniform (by simp) ?_ ?_ rfl) (w := .list ((s :: ss).map .text)) ?_ ?_ fun _ h => h
  · simp [isUniform, EntrySort.of]
  · intro x hx
    obtain ⟨c, -, rfl⟩ := mem_map.1 hx
    simp [EntrySort.of]
  · simp [Held.read, Node.readInto, readDataset, Fields.get?, firstOfRows, Function.comp_def, pure, Except.pure]
  · refine sameItems_of_forall₂ (forall₂_same.2 fun x hx => ?_)
    obtain ⟨c, -, rfl⟩ := mem_map.1 hx
    exact beq_self_eq_true c

theorem returns_items (hmixed : isUniform xs = false ∨ ∃ fs, .record fs ∈ xs)
    (h : ∀ x ∈ xs, Returns x) : Returns (.list xs) := by
  obtain ⟨as, cs, hwrite, hg, htag, hentries⟩ := readEntries_written "generic_list" fun x hx => (h x hx).entry
  have hne : xs ≠ [] := by
    rintro rfl
    simp [isUniform] at hmixed
  -- A list of records is uniform too, but is kept by its items.
  have hnot : ¬(isUniform xs && !(xs.any fun x => EntrySort.of x == .record)) = true := by
    rcases hmixed with hu | ⟨fs, hfs⟩
    · simp [hu]
    · simpa using fun _ => ⟨_, hfs, rfl⟩
  have hheld : held (.list xs) = .ok (.child (.group as cs)) := by
    rw [held, if_neg (by simpa using hne), if_neg hnot, hwrite]
    rfl
  have hread : (Held.child (.group as cs)).read = .ok (.list (xs.map returned)) := by
    rw [Held.read, readInto_group hg, assembled, Fields.get?, htag]
    simp [hentries, bind, Except.bind, pure, Except.pure]
  refine .of_read hheld hread (sameItems_returned h) fun k hk => ?_
  rwa [NameFits, isScalar, if_neg (by simpa using hne)] at hk

theorem returns_tuple (hne : xs ≠ []) (h : ∀ x ∈ xs, Returns x) : Returns (.tuple xs) := by
  obtain ⟨as, cs, hwrite, hg, htag, hentries⟩ := readEntries_written "generic_tuple" fun x hx => (h x hx).entry
  have hheld : held (.tuple xs) = .ok (.child (.group as cs)) := by
    rw [held, if_neg (by simpa using hne), hwrite]
    rfl
  have hread : (Held.child (.group as cs)).read = .ok (.tuple (xs.map returned)) := by
    rw [Held.read, readInto_group hg, assembled, Fields.get?, htag]
    simp [hentries, bind, Except.bind, pure, Except.pure]
  refine .of_read hheld hread (sameItems_returned h) fun k hk => ?_
  rwa [NameFits, isScalar, if_neg (by simpa using hne)] at hk

theorem returns_record (hkeys : (fs.map (·.1)).Nodup) (hnames : ∀ x ∈ fs, NameFits x.1 x.2)
    (h : ∀ x ∈ fs, Returns x.2) : Returns (.record fs) := by
  obtain ⟨n, v, hwrite, hread, hsame⟩ := readInto_writeFields hkeys hnames h
  exact .of_read (h := .child n) (by rw [held, hwrite]; rfl) hread hsame fun _ h => h

theorem Kept.returns (hv : Kept v) : Returns v := by
  induction hv with
  | null => exact .of_read rfl (w := .null) rfl rfl fun _ h => h
  | bool b => exact .of_read rfl (w := .bool b) rfl (by cases b <;> rfl) fun _ h => h
  | @int n h => exact .of_read (h := .attr (.int n)) (by rw [held, h]; rfl) rfl (same_int rfl) fun _ h => h
  | @text s hnull hempty =>
    refine .of_read rfl (w := .text s) ?_ (beq_self_eq_true s) fun _ h => h
    simp [Held.read, readAttr, hnull, hempty, pure, Except.pure]
  | noItems =>
    refine .of_read rfl (w := .list []) ?_ rfl fun _ h => h
    simp [Held.read, readAttr, nullMark, emptyMark, pure, Except.pure]
  | bools b bs => exact returns_bools b bs
  | ints h hrange => exact returns_ints h hrange
  | texts s ss => exact returns_texts s ss
  | items hmixed _ ih => exact returns_items hmixed ih
  | tuple hne _ ih => exact returns_tuple hne ih
  | record hkeys hnames _ ih => exact returns_record hkeys hnames ih

/-- A kept record that is written into an empty group is read as an equal record. -/
theorem read_write {fs : Fields} (h : Kept (.record fs)) : ∃ n v, Node.write fs .empty = .ok n ∧
    n.readInto [] = .ok v ∧ (Value.record fs).same v = true := by
  cases h with
  | record hkeys hnames h => exact readInto_writeFields hkeys hnames fun x hx => (h x hx).returns

theorem read_write_nested :
    let fs : Fields := [("gate", .tuple [.text "X", .int 180, .list []]), ("noise", .record [("seed", .null)])]
    Kept (.record fs) ∧ ∃ n v, Node.write fs .empty = .ok n ∧ n.readInto [] = .ok v ∧
      (Value.record fs).same v = true := by
  have hgate : Kept (.tuple [.text "X", .int 180, .list []]) := by
    refine .tuple (by simp) ?_
    simp only [forall_mem_cons, not_mem_nil, false_implies, implies_true, and_true]
    exact ⟨.text (by decide) (by decide), .int (by decide), .noItems⟩
  have hnoise : Kept (.record [("seed", .null)]) := by
    refine .record (by decide) ?_ ?_ <;> rw [forall_mem_singleton]
    · exact (by decide : "seed" ≠ "list_type")
    · exact .null
  have h : Kept (.record [("gate", .tuple [.text "X", .int 180, .list []]), ("noise", .record [("seed", .null)])]) := by
    refine .record (by decide) ?_ ?_ <;> rw [forall_mem_cons, forall_mem_singleton]
    · exact ⟨⟨by decide, by decide, by decide, by decide⟩, by decide, by decide, by decide, by decide⟩
    · exact ⟨hgate, hnoise⟩
  exact ⟨h, read_write h⟩

/-- A list of lists comes back as a text. -/
theorem nestedList_returns_text :
    Node.write [("a", .list [.list [.int 1], .list [.int 2]])] .empty = .ok (.group [("a", .text "[[1], [2]]")] []) ∧
    Node.readInto [] (.group [("a", .text "[[1], [2]]")] []) = .ok (.record [("a", .text "[[1], [2]]")]) ∧
    (Value.record [("a", .list [.list [.int 1], .list [.int 2]])]).same (.record [("a", .text "[[1], [2]]")]) = false :=
  ⟨rfl, rfl, rfl⟩

end QubitLab.Archive
