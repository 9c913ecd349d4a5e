import QubitLab.Program.Timeline
import QubitLab.Proofs.Outcome
import QubitLab.Proofs.TextPieces

/-!
# Flux pulses of kernels

The kernels of a program are the stretches of its operations that end with a measurement. The events of a timeline are
divided at measurements into the kernels, of which the first operation of all is left out (`fluxGroups_eq_ok`). Writing the
numbers of the flux pulses is one replacement after another in the lines of the program, and the lines come out as if each
operation was replaced by the one that it is to be (`written_codewords`).
-/

namespace QubitLab.Program

open List

/-! ## Operations and kernels -/

/-- An operation of a timeline. -/
structure Operation where
  start : Int
  name : String
  targets : Value
  line : Nat

namespace Operation

def event (o : Operation) : Event := ⟨.int o.start, .text o.name, o.targets, .ofNat o.line⟩

def has (word : String) (o : Operation) : Bool := Text.contains word o.name

theorem event_mentions (word : String) (o : Operation) : o.event.mentions (.text word) = .ok (o.has word) := rfl

end Operation

/-- The stretches of operations that end with a measurement; those behind the last one are in none. -/
def kernels : List Operation → List (List Operation)
  | [] => []
  | o :: os => if o.has "meas" then [o] :: kernels os else (kernels os).modifyHead (o :: ·)

/-- The operations behind the kernels. -/
def unmeasured (ops : List Operation) : List Operation := ops.drop (kernels ops).flatten.length

def flux (ops : List Operation) : List Operation := ops.filter (·.has "fl")

/-- The flux pulses of a kernel, their times relative to the first of them. -/
def relativeFlux (g : List Operation) : List Operation :=
  (flux g).map fun o => { o with start := o.start - ((flux g).head?.map (·.start)).getD 0 }

/-- The operations of a kernel with the codewords that they are to have. -/
def numbered (k : Nat) : List Operation → List (Operation × String)
  | [] => []
  | o :: os =>
    if o.has "fl" then (o, "fl_cw_" ++ twoDigits k) :: os.map fun o => (o, if o.has "fl" then "fl_cw_00" else o.name)
    else (o, o.name) :: numbered k os

/-- All operations with the codewords that they are to have. -/
def codewords (ops : List Operation) : List (Operation × String) :=
  ((kernels ops).zipIdx.flatMap fun x => numbered (x.2 + 1) x.1) ++ (unmeasured ops).map fun o => (o, o.name)

theorem flatten_kernels (ops : List Operation) : (kernels ops).flatten ++ unmeasured ops = ops := by
  suffices h : (kernels ops).flatten <+: ops from prefix_iff_eq_append.1 h
  induction ops with
  | nil => exact nil_prefix
  | cons o os ih =>
    rw [kernels]
    split
    · exact cons_prefix_cons.2 ⟨rfl, ih⟩
    · cases hk : kernels os with
      | nil => exact nil_prefix
      | cons g gs =>
        rw [hk] at ih
        exact cons_prefix_cons.2 ⟨rfl, ih⟩

theorem map_fst_numbered (k : Nat) (g : List Operation) : (numbered k g).map (·.1) = g := by
  induction g with
  | nil => rfl
  | cons o os ih =>
    rw [numbered]
    split
    · rw [map_cons, map_map]
      exact congrArg (o :: ·) (map_id' os)
    · rw [map_cons, ih]

theorem map_fst_codewords (ops : List Operation) : (codewords ops).map (·.1) = ops := by
  have hkernels (gs : List (List Operation)) (n : Nat) :
      ((gs.zipIdx n).flatMap fun x => numbered (x.2 + 1) x.1).map (·.1) = gs.flatten := by
    induction gs generalizing n with
    | nil => rfl
    | cons g gs ih => rw [zipIdx_cons, flatMap_cons, map_append, ih, map_fst_numbered, flatten_cons]
  rw [codewords, map_append, hkernels, map_map]
  refine (congrArg (_ ++ ·) (map_id' _)).trans (flatten_kernels ops)

/-! ## Splitting at measurements -/

/-- The places of the operations that contain a word, counted from `n`. -/
def placesFrom (word : String) (n : Nat) : List Operation → List Nat
  | [] => []
  | o :: os => if o.has word then n :: placesFrom word (n + 1) os else placesFrom word (n + 1) os

theorem positionsOf_eq (word : String) (ops : List Operation) :
    positionsOf (.text word) (ops.map Operation.event) = .ok (placesFrom word 0 ops) := by
  have hhits : ((ops.map Operation.event).mapM fun e => e.mentions (.text word)) = .ok (ops.map (·.has word)) := by
    rw [mapM_eq_ok, forall₂_map_left_iff, forall₂_map_right_iff]
    exact forall₂_same.2 fun o _ => o.event_mentions word
  have hplaces (ops : List Operation) (n : Nat) :
      ((ops.map (·.has word)).zipIdx n).filterMap (fun x => if x.1 then some x.2 else none) = placesFrom word n ops := by
    induction ops generalizing n with
    | nil => rfl
    | cons o os ih =>
      rw [map_cons, zipIdx_cons, filterMap_cons, ih, placesFrom]
      cases o.has word <;> rfl
  refine bind_eq_ok.2 ⟨_, hhits, congrArg Except.ok (hplaces ops 0)⟩

/-- What stands at the places is what contains the word. -/
theorem filterMap_placesFrom (word : String) (before ops : List Operation) :
    (placesFrom word before.length ops).filterMap (fun i => ((before ++ ops).map Operation.event)[i]?) =
      (ops.filter (·.has word)).map Operation.event := by
  induction ops generalizing before with
  | nil => rfl
  | cons o os ih =>
    have ih' := ih (before ++ [o])
    rw [length_append, length_singleton, append_assoc, singleton_append] at ih'
    rw [placesFrom]
    split
    · next h =>
      have hat : ((before ++ o :: os).map Operation.event)[before.length]? = some o.event := by simp
      rw [filterMap_cons_some hat, ih', filter_cons_of_pos h, map_cons]
    · next h => rw [ih', filter_cons_of_neg (by simpa using h)]

theorem eventsOf_eq (word : String) (ops : List Operation) :
    eventsOf (.text word) (ops.map Operation.event) = .ok ((ops.filter (·.has word)).map Operation.event) :=
  bind_eq_ok.2 ⟨_, positionsOf_eq word ops, congrArg Except.ok (filterMap_placesFrom word [] ops)⟩

/-- Between the places of measurements stand kernels. -/
theorem slices_eq (before ops : List Operation) {a : Nat} (ha : a < before.length) :
    ((a :: (placesFrom "meas" before.length ops).dropLast).zip (placesFrom "meas" before.length ops)).map
        (fun x => (((before ++ ops).map Operation.event).take (x.2 + 1)).drop (x.1 + 1)) =
      ((kernels ops).modifyHead (before.drop (a + 1) ++ ·)).map fun g => g.map Operation.event := by
  induction ops generalizing before a with
  | nil => rfl
  | cons o os ih =>
    have hlen : before.length + 1 = (before ++ [o]).length := by simp
    have hlist : before ++ o :: os = (before ++ [o]) ++ os := by simp
    rw [placesFrom, kernels, hlen, hlist]
    split
    · next h =>
      have hzip (x : Nat) (xs : List Nat) :
          (a :: (x :: xs).dropLast).zip (x :: xs) = (a, x) :: (x :: xs.dropLast).zip xs := by
        cases xs <;> rfl
      have hslice : (((before ++ [o] ++ os).map Operation.event).take (before.length + 1)).drop (a + 1) =
          (before.drop (a + 1) ++ [o]).map Operation.event := by
        rw [← map_take, ← map_drop, hlen, take_left, drop_append_of_le_length (by omega)]
      have hrest : (kernels os).modifyHead ((before ++ [o]).drop (before.length + 1) ++ ·) = kernels os := by
        rw [hlen, drop_length]
        exact congrFun modifyHead_id _
      rw [hzip, map_cons, hslice, ih (before ++ [o]) (by omega), hrest]
      rfl
    · next h =>
      rw [ih (before ++ [o]) (by simp; omega), modifyHead_modifyHead, drop_append_of_le_length (by omega)]
      refine congrArg (List.map _) (congrArg (List.modifyHead · _) (funext fun g => ?_))
      simp

variable {ops g : List Operation} {groups : List (List Event)} {group : List Event} {lines : List String}
  {o : Operation}

theorem placesFrom_eq_nil {n : Nat} : placesFrom "meas" n ops = [] ↔ kernels ops = [] := by
  induction ops generalizing n with
  | nil => exact iff_of_true rfl rfl
  | cons o os ih =>
    rw [placesFrom, kernels]
    split
    · simp
    · rw [ih, modifyHead_eq_nil_iff]

/-- The kernels without the first operation of all. -/
def laterKernels (ops : List Operation) : List (List Operation) := (kernels ops).modifyHead List.tail

theorem slices_zero (ops : List Operation) :
    ((0 :: (placesFrom "meas" 0 ops).dropLast).zip (placesFrom "meas" 0 ops)).map
        (fun x => ((ops.map Operation.event).take (x.2 + 1)).drop (x.1 + 1)) =
      (laterKernels ops).map fun g => g.map Operation.event := by
  cases ops with
  | nil => rfl
  | cons o os =>
    have hrest := slices_eq [o] os (a := 0) (by simp)
    have hid : (kernels os).modifyHead ([o].drop (0 + 1) ++ ·) = kernels os := congrFun modifyHead_id _
    rw [hid] at hrest
    rw [laterKernels, placesFrom, kernels]
    split
    · refine Eq.trans ?_ (congrArg ([] :: ·) hrest)
      cases hp : placesFrom "meas" (0 + 1) os <;> rfl
    · rw [modifyHead_modifyHead]
      exact hrest.trans (congrArg (List.map _) (congrFun modifyHead_id _).symm)

/-- Splitting at measurements leaves out the first operation of all. -/
theorem splitOnEvent_eq_ok :
    splitOnEvent (.text "meas") (ops.map Operation.event) = .ok groups ↔
      kernels ops ≠ [] ∧ groups = (laterKernels ops).map fun g => g.map Operation.event := by
  rw [splitOnEvent, positionsOf_eq, ← slices_zero]
  change (if (placesFrom "meas" 0 ops).length < (0 :: withoutLast 1 (placesFrom "meas" 0 ops)).length then _ else _) = _ ↔ _
  have hlast : withoutLast 1 (placesFrom "meas" 0 ops) = (placesFrom "meas" 0 ops).dropLast := dropLast_eq_take.symm
  rw [hlast, length_cons, length_dropLast, ne_eq, ← placesFrom_eq_nil (n := 0)]
  cases placesFrom "meas" 0 ops with
  | nil => simp [fail, bind, Except.bind]
  | cons x xs =>
    rw [if_neg (by simp)]
    exact ⟨fun h => ⟨by simp, (Except.ok.inj h).symm⟩, fun h => congrArg Except.ok h.2.symm⟩

/-! ## Times -/

/-- The flux pulse that times are taken from: the first codeword. -/
def anchor? (g : List Operation) : Option Operation := (flux g).find? (·.has "cw")

/-- The flux pulses of a kernel with their times relative to another. -/
def fluxSince (t : Int) (g : List Operation) : List Operation :=
  (flux g).map fun o => { o with start := o.start - t }

/-- The group of a kernel: its flux pulses since its anchor, or none. -/
def Grouped (g : List Operation) (group : List Event) : Prop :=
  flux g = [] ∧ group = [] ∨ ∃ r, anchor? g = some r ∧ group = (fluxSince r.start g).map Operation.event

theorem head?_placesFrom (word : String) (before ops : List Operation) :
    (placesFrom word before.length ops).head?.bind (fun i => ((before ++ ops).map Operation.event)[i]?) =
      (ops.find? (·.has word)).map Operation.event := by
  induction ops generalizing before with
  | nil => rfl
  | cons o os ih =>
    have ih' := ih (before ++ [o])
    rw [length_append, length_singleton, append_assoc, singleton_append] at ih'
    rw [placesFrom]
    split
    · next h => rw [find?_cons_of_pos h]; simp
    · next h => rw [ih', find?_cons_of_neg (by simpa using h)]

theorem shiftToEvent_eq_ok :
    shiftToEvent (.text "cw") ((flux g).map Operation.event) = .ok group ↔ Grouped g group := by
  rw [shiftToEvent, positionsOf_eq, Grouped, anchor?]
  have hhead := head?_placesFrom "cw" [] (flux g)
  rw [length_nil, nil_append] at hhead
  simp only [bind, Except.bind, hhead]
  cases (flux g).find? (·.has "cw") with
  | none =>
    simp only [Option.map_none]
    cases hflux : flux g with
    | nil => simp [pure, Except.pure, eq_comm]
    | cons o os => simp [fail]
  | some r =>
    have hshift : (((flux g).map Operation.event).mapM fun e => do
        return { e with start := (← (← e.start.number).sub (.int r.start)).toValue } : Attempt (List Event)) =
          .ok ((fluxSince r.start g).map Operation.event) := by
      rw [mapM_eq_ok, forall₂_map_left_iff, fluxSince, map_map, forall₂_map_right_iff]
      exact forall₂_same.2 fun o _ => rfl
    simp only [Option.map_some, Option.some.injEq, exists_eq_left']
    refine (iff_of_eq (congrArg (· = _) hshift)).trans ?_
    rw [Except.ok.injEq, eq_comm]
    refine ⟨.inr, fun h => h.elim (fun hnil => ?_) id⟩
    rw [hnil.2, fluxSince, hnil.1]
    rfl

theorem fluxGroups_eq_ok :
    fluxGroups (ops.map Operation.event) = .ok groups ↔
      kernels ops ≠ [] ∧ List.Forall₂ Grouped (laterKernels ops) groups := by
  rw [fluxGroups, bind_eq_ok]
  simp only [splitOnEvent_eq_ok]
  constructor
  · rintro ⟨_, ⟨hne, rfl⟩, h⟩
    rw [mapM_eq_ok, forall₂_map_left_iff] at h
    refine ⟨hne, h.imp fun g group hg => ?_⟩
    rw [eventsOf_eq] at hg
    exact shiftToEvent_eq_ok.1 hg
  · rintro ⟨hne, h⟩
    refine ⟨_, ⟨hne, rfl⟩, ?_⟩
    rw [mapM_eq_ok, forall₂_map_left_iff]
    refine h.imp fun g group hg => ?_
    rw [eventsOf_eq]
    exact shiftToEvent_eq_ok.2 hg

/-! ## Writing codewords -/

/-- A codeword that is to be written for another one on a line. -/
structure Edit where
  line : Nat
  old : String
  new : String

def Operation.edit (o : Operation) (new : String) : Edit := ⟨o.line, o.name, new⟩

def Edit.apply (c : Edit) (l : String) : String := Text.replace c.old c.new l

/-- The lines after codewords were written, one after the other. -/
def written (lines : List String) (cs : List Edit) : List String :=
  cs.foldl (fun lines c => lines.modify c.line c.apply) lines

theorem length_written (lines : List String) (cs : List Edit) : (written lines cs).length = lines.length := by
  induction cs generalizing lines with
  | nil => rfl
  | cons c cs ih => exact (ih _).trans (length_modify ..)

theorem written_append (lines : List String) (cs ds : List Edit) :
    written lines (cs ++ ds) = written (written lines cs) ds := foldl_append

theorem getElem?_written (lines : List String) (cs : List Edit) (i : Nat) :
    (written lines cs)[i]? = lines[i]?.map fun l => (cs.filter (·.line = i)).foldl (fun l c => c.apply l) l := by
  induction cs generalizing lines with
  | nil => simp [written]
  | cons c cs ih =>
    change (written (lines.modify c.line c.apply) cs)[i]? = _
    rw [ih, getElem?_modify, filter_cons]
    by_cases hi : c.line = i
    · simp [hi, Function.comp_def]
    · simp [hi]

theorem recode_eq (h : o.line < lines.length) (new : String) :
    recode lines o.event new = .ok (lines.modify o.line (o.edit new).apply) := by
  have hposition : Value.position? lines.length (o.line : Int) = some o.line := by
    have hneg : ¬ (o.line : Int) < 0 := by omega
    simp only [Value.position?, if_neg hneg]
    rw [if_pos (by omega), Int.toNat_natCast]
  have hline : lines[o.line]? = some lines[o.line] := getElem?_eq_getElem h
  change (orFail .index (Value.position? lines.length (o.line : Int)) >>= _) = _
  rw [hposition]
  change (orFail .index lines[o.line]? >>= _) = _
  rw [hline]
  refine congrArg Except.ok ?_
  rw [modify_eq_set_getElem?, hline]
  rfl

/-- The edits of the flux pulses of a kernel. -/
def groupEdits (k : Nat) : List Operation → List Edit
  | [] => []
  | o :: os => o.edit ("fl_cw_" ++ twoDigits k) :: os.map (·.edit "fl_cw_00")

theorem foldlM_recode {cs : List (Operation × String)} (h : ∀ c ∈ cs, c.1.line < lines.length) :
    cs.foldlM (fun lines c => recode lines c.1.event c.2) lines = .ok (written lines (cs.map fun c => c.1.edit c.2)) := by
  induction cs generalizing lines with
  | nil => rfl
  | cons c cs ih =>
    rw [foldlM_cons, recode_eq (h c mem_cons_self)]
    refine ih fun d hd => ?_
    rw [length_modify]
    exact h d (mem_cons_of_mem c hd)

theorem foldlM_group (k : Nat) (h : ∀ o ∈ g, o.line < lines.length) :
    ((g.map Operation.event).zipIdx.foldlM (fun lines x =>
      recode lines x.1 ("fl_cw_" ++ (if x.2 == 0 then twoDigits (k + 1) else "00"))) lines) =
      .ok (written lines (groupEdits (k + 1) g)) := by
  have hedits : groupEdits (k + 1) g = (g.zipIdx.map fun x =>
      (x.1, "fl_cw_" ++ (if x.2 == 0 then twoDigits (k + 1) else "00"))).map fun c => c.1.edit c.2 := by
    cases g with
    | nil => rfl
    | cons o os =>
      have hrest : (os.zipIdx 1).map (fun x => x.1.edit ("fl_cw_" ++ (if x.2 == 0 then twoDigits (k + 1) else "00"))) =
          (os.zipIdx 1).map fun x => x.1.edit "fl_cw_00" := by
        refine map_congr_left fun x hx => ?_
        have := le_snd_of_mem_zipIdx hx
        rw [if_neg (by simp; omega)]
        rfl
      have hfst : os.map (·.edit "fl_cw_00") = (os.zipIdx 1).map fun x => x.1.edit "fl_cw_00" := by
        conv_lhs => rw [← zipIdx_map_fst 1 os, map_map]
        rfl
      rw [groupEdits, hfst, ← hrest, map_map, zipIdx_cons, map_cons]
      rfl
  rw [hedits, ← foldlM_recode, zipIdx_map, foldlM_map, foldlM_map]
  · rfl
  · intro c hc
    obtain ⟨x, hx, rfl⟩ := mem_map.1 hc
    exact h x.1 (fst_mem_of_mem_zipIdx hx)

/-- All numbers are written, if the operations are on lines that there are. -/
theorem replaceFlux_eq {gs : List (List Operation)} (h : ∀ g ∈ gs, ∀ o ∈ g, o.line < lines.length) :
    replaceFlux lines (gs.map fun g => g.map Operation.event) =
      .ok (written lines (gs.zipIdx.flatMap fun x => groupEdits (x.2 + 1) x.1)) := by
  suffices hfrom : ∀ (n : Nat) (lines : List String), (∀ g ∈ gs, ∀ o ∈ g, o.line < lines.length) →
      ((gs.map fun g => g.map Operation.event).zipIdx n).foldlM (fun lines x => x.1.zipIdx.foldlM (fun lines y =>
        recode lines y.1 ("fl_cw_" ++ (if y.2 == 0 then twoDigits (x.2 + 1) else "00"))) lines) lines =
      .ok (written lines ((gs.zipIdx n).flatMap fun x => groupEdits (x.2 + 1) x.1)) from hfrom 0 lines h
  clear h
  induction gs with
  | nil => exact fun _ _ _ => rfl
  | cons g gs ih =>
    intro n lines h
    obtain ⟨hg, hgs⟩ := forall_mem_cons.1 h
    rw [map_cons, zipIdx_cons, foldlM_cons, foldlM_group n hg, zipIdx_cons, flatMap_cons,
      written_append]
    refine ih (n + 1) _ fun f hf o ho => ?_
    rw [length_written]
    exact hgs f hf o ho

/-! ## The codewords that operations are to have -/

theorem replace_self {name : String} (h : name ≠ "") : Text.replace name name = id := by
  funext l
  have hne : name.toList ≠ [] := fun hnil => h (String.toList_injective hnil)
  rw [Text.replace, onChars, Chars.replace_self hne, String.ofList_toList]
  rfl

theorem written_stay (h : o.name ≠ "") (cs : List Edit) : written lines (o.edit o.name :: cs) = written lines cs := by
  have happly : (o.edit o.name).apply = id := replace_self h
  change written (lines.modify _ (o.edit o.name).apply) cs = _
  rw [happly, modify_id]

theorem written_zeros (h : ∀ o ∈ ops, o.name ≠ "") :
    written lines (ops.map fun o => o.edit (if o.has "fl" then "fl_cw_00" else o.name)) =
      written lines ((flux ops).map (·.edit "fl_cw_00")) := by
  induction ops generalizing lines with
  | nil => rfl
  | cons o os ih =>
    obtain ⟨ho, hos⟩ := forall_mem_cons.1 h
    rw [map_cons, flux, filter_cons]
    split
    · exact ih hos
    · rw [written_stay ho]
      exact ih hos

theorem written_numbered (k : Nat) (h : ∀ o ∈ g, o.name ≠ "") :
    written lines ((numbered k g).map fun c => c.1.edit c.2) = written lines (groupEdits k (flux g)) := by
  induction g with
  | nil => rfl
  | cons o os ih =>
    obtain ⟨ho, hos⟩ := forall_mem_cons.1 h
    rw [numbered, flux, filter_cons]
    split
    · rw [map_cons, map_map]
      exact written_zeros hos
    · rw [map_cons, written_stay ho]
      exact ih hos

theorem mem_of_mem_kernels (hg : g ∈ kernels ops) (ho : o ∈ g) : o ∈ ops := by
  rw [← flatten_kernels ops]
  exact mem_append_left _ (mem_flatten.2 ⟨g, hg, ho⟩)

theorem mem_of_mem_unmeasured (ho : o ∈ unmeasured ops) : o ∈ ops := by
  rw [← flatten_kernels ops]
  exact mem_append_right _ ho

/-- Writing the codewords of all operations writes the numbers of the flux pulses. -/
theorem written_codewords (h : ∀ o ∈ ops, o.name ≠ "") :
    written lines ((codewords ops).map fun c => c.1.edit c.2) =
      written lines (((kernels ops).map flux).zipIdx.flatMap fun x => groupEdits (x.2 + 1) x.1) := by
  have hkernels (gs : List (List Operation)) (hgs : ∀ g ∈ gs, ∀ o ∈ g, o.name ≠ "") (n : Nat) (lines : List String) :
      written lines (((gs.zipIdx n).flatMap fun x => numbered (x.2 + 1) x.1).map fun c => c.1.edit c.2) =
        written lines (((gs.map flux).zipIdx n).flatMap fun x => groupEdits (x.2 + 1) x.1) := by
    induction gs generalizing n lines with
    | nil => rfl
    | cons g gs ih =>
      obtain ⟨hg, hgs⟩ := forall_mem_cons.1 hgs
      rw [zipIdx_cons, flatMap_cons, map_append, written_append, written_numbered _ hg, ih hgs,
        map_cons, zipIdx_cons, flatMap_cons, written_append]
  have hrest (os : List Operation) (hos : ∀ o ∈ os, o.name ≠ "") (lines : List String) :
      written lines ((os.map fun o => (o, o.name)).map fun c => c.1.edit c.2) = lines := by
    induction os with
    | nil => rfl
    | cons o os ih =>
      obtain ⟨ho, hos⟩ := forall_mem_cons.1 hos
      exact (written_stay ho _).trans (ih hos)
  rw [codewords, map_append, written_append, hrest _ fun o ho => h o (mem_of_mem_unmeasured ho),
    hkernels _ fun g hg o ho => h o (mem_of_mem_kernels hg ho)]

/-! ## Groups -/

/-- The first operation of all is a flux pulse. -/
def BeginsWithFlux (ops : List Operation) : Prop := ∃ o, ops.head? = some o ∧ o.has "fl" = true

/-- Times can be taken from a codeword, or there are none. -/
def Anchored (g : List Operation) : Prop := flux g = [] ∨ ∃ r, anchor? g = some r

/-- The codeword from which times are taken begins with the first flux pulse. -/
def AnchoredFirst (g : List Operation) : Prop :=
  ∀ f, (flux g).head? = some f → ∃ r, anchor? g = some r ∧ r.start = f.start

theorem exists_first_kernel (h : kernels ops ≠ []) :
    ∃ o g gs, ops.head? = some o ∧ kernels ops = (o :: g) :: gs ∧ laterKernels ops = g :: gs := by
  rw [laterKernels]
  cases ops with
  | nil => exact absurd rfl h
  | cons o os =>
    rw [kernels] at h ⊢
    split
    · exact ⟨o, [], kernels os, rfl, rfl, rfl⟩
    · next hm =>
      rw [if_neg hm, ne_eq, modifyHead_eq_nil_iff] at h
      obtain ⟨g, gs, hk⟩ := exists_cons_of_ne_nil h
      rw [hk]
      exact ⟨o, g, gs, rfl, rfl, rfl⟩

theorem flux_cons_of_not (h : ¬ o.has "fl" = true) (g : List Operation) : flux (o :: g) = flux g :=
  filter_cons_of_neg h

theorem map_flux_laterKernels (h : ¬ BeginsWithFlux ops) : (laterKernels ops).map flux = (kernels ops).map flux := by
  by_cases hk : kernels ops = []
  · rw [laterKernels, hk]
    rfl
  · obtain ⟨o, g, gs, ho, hkernels, hlater⟩ := exists_first_kernel hk
    rw [hkernels, hlater, map_cons, map_cons, flux_cons_of_not fun hfl => h ⟨o, ho, hfl⟩]

theorem mem_of_mem_laterKernels (hg : g ∈ laterKernels ops) (ho : o ∈ g) : o ∈ ops := by
  by_cases hk : kernels ops = []
  · rw [laterKernels, hk] at hg
    cases hg
  · obtain ⟨p, f, gs, -, hkernels, hlater⟩ := exists_first_kernel hk
    rw [hlater] at hg
    rcases mem_cons.1 hg with rfl | hg
    · exact mem_of_mem_kernels (by rw [hkernels]; exact mem_cons_self) (mem_cons_of_mem p ho)
    · exact mem_of_mem_kernels (by rw [hkernels]; exact mem_cons_of_mem _ hg) ho

theorem groupEdits_fluxSince (k : Nat) (t : Int) (g : List Operation) : groupEdits k (fluxSince t g) = groupEdits k (flux g) := by
  rw [fluxSince]
  cases flux g with
  | nil => rfl
  | cons o os =>
    rw [map_cons, groupEdits, groupEdits, map_map]
    rfl

theorem replaceFlux_groups {gs : List (List Operation)}
    (h : List.Forall₂ Grouped gs groups) (hlines : ∀ g ∈ gs, ∀ o ∈ g, o.line < lines.length) :
    replaceFlux lines groups = .ok (written lines ((gs.map flux).zipIdx.flatMap fun x => groupEdits (x.2 + 1) x.1)) := by
  have hsince : List.Forall₂ (fun g group => ∃ fs : List Operation, group = fs.map Operation.event ∧ ∃ t, fs = fluxSince t g)
      gs groups := by
    refine h.imp fun g group hg => ?_
    rcases hg with ⟨hnil, rfl⟩ | ⟨r, -, rfl⟩
    · exact ⟨[], rfl, 0, by rw [fluxSince, hnil]; rfl⟩
    · exact ⟨_, rfl, r.start, rfl⟩
  obtain ⟨fss, rfl, hfss⟩ := exists_map_of_forall₂ hsince
  have hedits (n : Nat) : (fss.zipIdx n).flatMap (fun x => groupEdits (x.2 + 1) x.1) =
      ((gs.map flux).zipIdx n).flatMap fun x => groupEdits (x.2 + 1) x.1 := by
    clear h hsince hlines
    induction hfss generalizing n with
    | nil => rfl
    | cons hfs _ ih =>
      obtain ⟨t, rfl⟩ := hfs
      rw [zipIdx_cons, flatMap_cons, map_cons, zipIdx_cons, flatMap_cons, ih, groupEdits_fluxSince]
  rw [← hedits]
  refine replaceFlux_eq fun fs hfs o ho => ?_
  obtain ⟨n, hn⟩ := mem_iff_getElem?.1 hfs
  obtain ⟨g, hg, t, rfl⟩ := getElem?_of_forall₂ hfss.flip hn
  obtain ⟨p, hp, rfl⟩ := mem_map.1 ho
  exact hlines g (mem_of_getElem? hg) p (mem_of_mem_filter hp)

theorem Grouped.exists_iff : (∃ group, Grouped g group) ↔ Anchored g := by
  constructor
  · rintro ⟨_, ⟨hnil, -⟩ | ⟨r, hr, -⟩⟩
    · exact .inl hnil
    · exact .inr ⟨r, hr⟩
  · rintro (hnil | ⟨r, hr⟩)
    · exact ⟨[], .inl ⟨hnil, rfl⟩⟩
    · exact ⟨_, .inr ⟨r, hr, rfl⟩⟩

theorem Grouped.length_eq (h : Grouped g group) : group.length = (flux g).length := by
  rcases h with ⟨hnil, rfl⟩ | ⟨r, -, rfl⟩
  · rw [hnil]
    rfl
  · rw [length_map, fluxSince, length_map]

theorem Grouped.congr {f : List Operation} (h : flux f = flux g) (hg : Grouped g group) : Grouped f group := by
  simp only [Grouped, anchor?, fluxSince, h]
  exact hg

theorem Grouped.eq_relative_iff (h : Grouped g group) :
    group = (relativeFlux g).map Operation.event ↔ AnchoredFirst g := by
  rcases h with ⟨hnil, rfl⟩ | ⟨r, hr, rfl⟩
  · rw [relativeFlux, AnchoredFirst, hnil]
    simp
  · cases hflux : flux g with
    | nil =>
      rw [anchor?, hflux] at hr
      cases hr
    | cons f fs =>
      rw [AnchoredFirst, fluxSince, relativeFlux, hr, hflux]
      simp only [head?_cons, Option.map_some, Option.getD_some, Option.some.injEq, forall_eq', exists_eq_left']
      constructor
      · intro h
        have hstart : f.start - r.start = f.start - f.start :=
          Value.int.inj (congrArg Event.start (List.cons.inj h).1)
        omega
      · intro h
        rw [h]

theorem exists_forall₂_iff {α β : Type} {R : α → β → Prop} {l : List α} :
    (∃ bs, List.Forall₂ R l bs) ↔ ∀ a ∈ l, ∃ b, R a b := by
  induction l with
  | nil => exact iff_of_true ⟨[], .nil⟩ (by simp)
  | cons a as ih =>
    rw [forall_mem_cons, ← ih]
    constructor
    · rintro ⟨_, h⟩
      obtain ⟨b, bs, hb, hbs, -⟩ := forall₂_cons_left_iff.1 h
      exact ⟨⟨b, hb⟩, bs, hbs⟩
    · rintro ⟨⟨b, hb⟩, bs, hbs⟩
      exact ⟨b :: bs, .cons hb hbs⟩

theorem eq_map_iff_of_forall₂ {α β : Type} {R : α → β → Prop} {f : α → β} {P : α → Prop}
    (hR : ∀ a b, R a b → (b = f a ↔ P a)) {l : List α} {bs : List β} (h : List.Forall₂ R l bs) :
    bs = l.map f ↔ ∀ a ∈ l, P a := by
  induction h with
  | nil => simp
  | cons hab _ ih => rw [map_cons, List.cons.injEq, forall_mem_cons, ih, hR _ _ hab]

/-- The groups are the flux pulses of the kernels, with times relative to the first one. -/
theorem groups_eq_iff (hk : kernels ops ≠ []) (h : List.Forall₂ Grouped (laterKernels ops) groups) :
    groups = (kernels ops).map (fun g => (relativeFlux g).map Operation.event) ↔
      ¬ BeginsWithFlux ops ∧ ∀ g ∈ kernels ops, AnchoredFirst g := by
  obtain ⟨o, g, gs, ho, hkernels, hlater⟩ := exists_first_kernel hk
  rw [hlater] at h
  obtain ⟨group, groups, hg, hgs, rfl⟩ := forall₂_cons_left_iff.1 h
  rw [hkernels]
  by_cases hfl : o.has "fl" = true
  · -- one flux pulse is missing in the first group
    refine iff_of_false (fun heq => ?_) fun hnot => hnot.1 ⟨o, ho, hfl⟩
    have hlength := congrArg List.length (List.cons.inj heq).1
    rw [hg.length_eq, length_map, relativeFlux, length_map, flux, flux, filter_cons_of_pos hfl] at hlength
    simp at hlength
  · have hnot : ¬ BeginsWithFlux ops := by
      rintro ⟨p, hp, hpfl⟩
      cases ho.symm.trans hp
      exact hfl hpfl
    have hall : List.Forall₂ Grouped ((o :: g) :: gs) (group :: groups) := .cons (hg.congr (flux_cons_of_not hfl g)) hgs
    rw [and_iff_right hnot]
    exact eq_map_iff_of_forall₂ (fun _ _ hg => hg.eq_relative_iff) hall

end QubitLab.Program
