import QubitLab.Proofs.BranchTargets

/-!
# Where labels are placed

A line may have a label and no instruction, and a wait for no time is removed. `settle` says what the assembler makes of
such idle lines: their label goes to the next instruction, unless another label stands in between (`keptLabels`). The
alignments between the passes settle a program step by step: each halves the runs of idle lines (`Stage.halve`), and none
changes what the program settles to. `assemble_labels`: a program of sound instructions whose runs of idle lines are short
assembles, or a label is there twice; the address of a label that is kept is the number of instructions before it.
A label that is not kept has no address (`assemble_lostLabel`).
-/

namespace QubitLab.Qumis

open List

/-! ## Settled programs -/

/-- The line has no instruction that stays: none at all, or a wait for no time. -/
def Item.idle (x : Item) : Bool := x.name == "" || (x.name == "wait" && x.operands.head? == some (.word "0"))

/-- The label of a line behind a label that waits for its instruction. -/
def Item.labelAfter (pending : String) (x : Item) : String := if x.label = "" then pending else x.label

/-- The instructions of lines, each with the last label since the instruction before. -/
def settle (pending : String) : List Item → List Item
  | [] => []
  | x :: r =>
    if x.idle then settle (x.labelAfter pending) r else { x with label := x.labelAfter pending } :: settle "" r

/-- A label in front of the lines comes to an instruction before another label. -/
def reaches : List Item → Bool
  | [] => false
  | x :: r => x.label == "" && (!x.idle || reaches r)

/-- The line has a label that comes to an instruction, its own or one of the lines behind it. -/
def Item.keeps (x : Item) (behind : List Item) : Bool := x.label != "" && (!x.idle || reaches behind)

/-- The labels that come to an instruction. -/
def keptLabels : List Item → List String
  | [] => []
  | x :: r => if x.keeps r then x.label :: keptLabels r else keptLabels r

/-- Lines of which the last one gets a `nop` if it has only a label. -/
def closeEnd : List Item → List Item
  | [] => []
  | [x] => if x.name ≠ "" then [x] else if x.label = "" then [] else [⟨x.label, "nop", []⟩]
  | x :: y :: r => x :: closeEnd (y :: r)

/-- The lines of a source text. -/
def sourceItems (text : String) : List Item := (validLines text).map fun l => Item.ofLine l.toList

/-- All lines that are assembled: those of the text, and the loop at the end. -/
def allLines (text : String) : List Item := closeEnd (sourceItems text) ++ endLoop

variable {z x : Item} {n k : Nat} {xs src : List Item} {L K : List String}

section
variable {ys : List Item}

theorem idle_of_name (h : x.name = "") : x.idle = true := by simp [Item.idle, h]

theorem name_of_not_idle (h : x.idle = false) : x.name ≠ "" := by
  intro hn
  rw [idle_of_name hn] at h
  cases h

theorem settle_idle (h : x.idle = true) (p : String) : settle p (x :: xs) = settle (x.labelAfter p) xs := by
  rw [settle, if_pos h]

theorem settle_cons (h : x.idle = false) (p : String) :
    settle p (x :: xs) = { x with label := x.labelAfter p } :: settle "" xs := by
  rw [settle, h]
  rfl

theorem settle_eq_self (h : ∀ x ∈ xs, x.idle = false) : settle "" xs = xs := by
  induction xs with
  | nil => rfl
  | cons x xs ih =>
    rw [forall_mem_cons] at h
    rw [settle_cons h.1, ih h.2, Item.labelAfter]
    split
    · rename_i hl
      rw [← hl]
    · rfl

theorem settle_append (p : String) (xs ys : List Item) : ∃ q, settle p (xs ++ ys) = settle p xs ++ settle q ys := by
  induction xs generalizing p with
  | nil => exact ⟨p, rfl⟩
  | cons x xs ih =>
    rw [cons_append]
    cases hx : x.idle with
    | true =>
      obtain ⟨q, hq⟩ := ih (x.labelAfter p)
      exact ⟨q, by rw [settle_idle hx, settle_idle hx, hq]⟩
    | false =>
      obtain ⟨q, hq⟩ := ih ""
      exact ⟨q, by rw [settle_cons hx, settle_cons hx, hq]; rfl⟩

theorem settle_labelled (h : x.label ≠ "") (p : String) : settle p (x :: xs) = settle "" (x :: xs) := by
  simp only [settle, Item.labelAfter, if_neg h]

theorem settle_append_labelled (h : x.label ≠ "") (ys : List Item) :
    settle "" (ys ++ x :: xs) = settle "" ys ++ settle "" (x :: xs) := by
  obtain ⟨q, hq⟩ := settle_append "" ys (x :: xs)
  rw [hq, settle_labelled h q]

theorem mem_settle {p : String} {y : Item} (h : y ∈ settle p xs) :
    ∃ x ∈ xs, x.idle = false ∧ ∃ l, y = { x with label := l } := by
  induction xs generalizing p with
  | nil => cases h
  | cons x xs ih =>
    cases hx : x.idle with
    | true =>
      rw [settle_idle hx] at h
      obtain ⟨z, hz, hi⟩ := ih h
      exact ⟨z, mem_cons_of_mem x hz, hi⟩
    | false =>
      rw [settle_cons hx] at h
      rcases mem_cons.1 h with rfl | h
      · exact ⟨x, mem_cons_self, hx, _, rfl⟩
      · obtain ⟨z, hz, hi⟩ := ih h
        exact ⟨z, mem_cons_of_mem x hz, hi⟩

theorem exists_mem_settle {p : String} (h : x ∈ xs) (hx : x.idle = false) : ∃ l, { x with label := l } ∈ settle p xs := by
  induction xs generalizing p with
  | nil => cases h
  | cons z xs ih =>
    cases hz : z.idle with
    | true =>
      rw [settle_idle hz]
      rcases mem_cons.1 h with rfl | h
      · rw [hx] at hz
        cases hz
      · exact ih h
    | false =>
      rw [settle_cons hz]
      rcases mem_cons.1 h with rfl | h
      · exact ⟨_, mem_cons_self⟩
      · obtain ⟨l, hl⟩ := ih (p := "") h
        exact ⟨l, mem_cons_of_mem _ hl⟩

theorem settle_reaches (h : reaches xs = true) (p : String) : ∃ z r, settle p xs = z :: r ∧ z.label = p := by
  induction xs with
  | nil => cases h
  | cons x xs ih =>
    simp only [reaches, Bool.and_eq_true, beq_iff_eq, Bool.or_eq_true, Bool.not_eq_true'] at h
    have hlabel : x.labelAfter p = p := if_pos h.1
    cases hx : x.idle with
    | true =>
      rw [settle_idle hx, hlabel]
      exact ih (h.2.resolve_left (by simp [hx]))
    | false =>
      rw [settle_cons hx]
      exact ⟨_, _, rfl, hlabel⟩

theorem labelsOf_settle (p : String) (xs : List Item) :
    labelsOf (settle p xs) = (if p ≠ "" ∧ reaches xs = true then [p] else []) ++ keptLabels xs := by
  induction xs generalizing p with
  | nil => simp [settle, reaches, keptLabels]
  | cons x xs ih =>
    cases hx : x.idle with
    | true =>
      rw [settle_idle hx, ih]
      by_cases hl : x.label = "" <;> simp [Item.labelAfter, hl, hx, reaches, keptLabels, Item.keeps]
      split <;> rfl
    | false =>
      have hone : labelsOf [{ x with label := x.labelAfter p }] = if x.labelAfter p ≠ "" then [x.labelAfter p] else [] := by
        by_cases hl : x.labelAfter p = "" <;> simp [labelsOf, hl]
      rw [settle_cons hx, labelsOf_cons, ih, hone]
      by_cases hl : x.label = "" <;> simp [Item.labelAfter, hl, hx, reaches, keptLabels, Item.keeps]

theorem keptLabels_eq (xs : List Item) : keptLabels xs = labelsOf (settle "" xs) := by simp [labelsOf_settle]

theorem keptLabels_sublist (xs : List Item) : (keptLabels xs).Sublist (labelsOf xs) := by
  induction xs with
  | nil => exact .slnil
  | cons x xs ih =>
    rw [keptLabels, labelsOf_cons]
    split
    · rename_i hk
      rw [labelsOf_singleton (by simp_all [Item.keeps])]
      exact ih.cons_cons _
    · exact ih.trans (sublist_append_right _ _)

/-! ## Alignment -/

theorem inherit_idle (x y : Item) : (inherit x y).idle = y.idle := by
  rw [inherit]
  split <;> rfl

theorem settle_inherit (hx : x.name = "") (p : String) (y : Item) (xs : List Item) :
    settle p (inherit x y :: xs) = settle p (x :: y :: xs) := by
  have hlabel : (inherit x y).labelAfter p = y.labelAfter (x.labelAfter p) := by
    by_cases hy : y.label = "" <;> simp [inherit, Item.labelAfter, hy]
  rw [settle_idle (idle_of_name hx), settle, settle, inherit_idle, hlabel]
  split
  · rfl
  · rw [inherit]
    split <;> rfl

theorem settle_alignItems (hz : z.name ≠ "") (p : String) (xs ys : List Item) :
    settle p (alignItems (xs ++ [z]) ++ ys) = settle p (xs ++ z :: ys) := by
  induction xs using alignItems_induction generalizing p with
  | nil =>
    rw [nil_append, alignItems_cons hz]
    rfl
  | named x xs hx ih =>
    rw [cons_append, alignItems_cons hx, cons_append, cons_append, settle, settle]
    split
    · exact ih _
    · rw [ih]
  | last x hx =>
    rw [singleton_append, alignItems_skip hx]
    exact settle_inherit hx p z ys
  | skip x y xs hx ih =>
    rw [cons_append, cons_append, alignItems_skip hx, cons_append, settle_inherit hx,
      settle_idle (idle_of_name hx), cons_append, cons_append, settle_idle (idle_of_name hx), settle, settle]
    split
    · exact ih _
    · rw [ih]

theorem alignItems_concat (hz : z.name ≠ "") (xs : List Item) :
    ∃ front l, alignItems (xs ++ [z]) = front ++ [{ z with label := l }] := by
  induction xs using alignItems_induction with
  | nil => exact ⟨[], z.label, alignItems_cons hz⟩
  | named x xs hx ih =>
    obtain ⟨front, l, h⟩ := ih
    exact ⟨x :: front, l, by rw [cons_append, alignItems_cons hx, h]; rfl⟩
  | last x hx =>
    refine ⟨[], if z.label = "" then x.label else z.label, ?_⟩
    rw [singleton_append, alignItems_skip hx, inherit]
    split <;> rfl
  | skip x y xs hx ih =>
    obtain ⟨front, l, h⟩ := ih
    exact ⟨inherit x y :: front, l, by rw [cons_append, cons_append, alignItems_skip hx, h]; rfl⟩

/-- Runs of at most `n` idle lines, the first one of at most `k`. -/
def shortRuns (n : Nat) : Nat → List Item → Prop
  | _, [] => True
  | k, x :: r => if x.idle then 0 < k ∧ shortRuns n (k - 1) r else shortRuns n n r

theorem shortRuns_within (hk : ∀ run, run <+: xs → (∀ x ∈ run, x.idle = true) → run.length ≤ k)
    (hn : ∀ run, run <:+: xs → (∀ x ∈ run, x.idle = true) → run.length ≤ n) : shortRuns n k xs := by
  induction xs generalizing k with
  | nil => exact trivial
  | cons x xs ih =>
    have htail : ∀ run, run <:+: xs → (∀ x ∈ run, x.idle = true) → run.length ≤ n :=
      fun run hrun => hn run (hrun.trans (suffix_cons x xs).isInfix)
    rw [shortRuns]
    split
    · rename_i hx
      have hone := hk [x] ⟨xs, rfl⟩ (by simpa using hx)
      refine ⟨hone, ih (fun run hrun hidle => ?_) htail⟩
      have := hk (x :: run) (cons_prefix_cons.2 ⟨rfl, hrun⟩) (forall_mem_cons.2 ⟨hx, hidle⟩)
      rw [length_cons] at this
      omega
    · exact ih (fun run hrun => htail run hrun.isInfix) htail

theorem shortRuns.mono {k' : Nat} (h : shortRuns n k xs) (hk : k ≤ k') : shortRuns n k' xs := by
  induction xs generalizing k k' with
  | nil => exact trivial
  | cons x xs ih =>
    rw [shortRuns] at h ⊢
    split
    · rename_i hx
      rw [if_pos hx] at h
      exact ⟨by omega, ih h.2 (by omega)⟩
    · rename_i hx
      rwa [if_neg hx] at h

theorem shortRuns_of_not_idle (h : ∀ x ∈ xs, x.idle = false) : shortRuns n k xs := by
  induction xs generalizing k with
  | nil => exact trivial
  | cons x xs ih =>
    rw [forall_mem_cons] at h
    rw [shortRuns, h.1]
    exact ih h.2

/-- The runs stay short when the first line becomes one that idles as it did and the rest keeps short runs. -/
theorem shortRuns_cons {y : Item} (hidle : y.idle = x.idle) (htail : ∀ {k}, shortRuns n k xs → shortRuns n k ys)
    (h : shortRuns n k (x :: xs)) : shortRuns n k (y :: ys) := by
  rw [shortRuns] at h ⊢
  rw [hidle]
  split
  · rename_i hx
    rw [if_pos hx] at h
    exact ⟨h.1, htail h.2⟩
  · rename_i hx
    rw [if_neg hx] at h
    exact htail h

theorem shortRuns_append (h : shortRuns n k xs) (hys : ∀ y ∈ ys, y.idle = false) : shortRuns n k (xs ++ ys) := by
  induction xs generalizing k with
  | nil => exact shortRuns_of_not_idle hys
  | cons x xs ih => exact shortRuns_cons rfl ih h

theorem shortRuns_zero (h : shortRuns 0 0 xs) : ∀ x ∈ xs, x.idle = false := by
  induction xs with
  | nil => simp
  | cons x xs ih =>
    rw [shortRuns] at h
    cases hx : x.idle with
    | true =>
      rw [if_pos hx] at h
      exact absurd h.1 (by decide)
    | false =>
      rw [hx] at h
      exact forall_mem_cons.2 ⟨hx, ih h⟩

theorem shortRuns_alignItems (h : shortRuns n k xs) : shortRuns n k (alignItems xs) := by
  induction xs using alignItems_induction generalizing k with
  | nil => exact trivial
  | named x xs hx ih =>
    rw [alignItems_cons hx]
    exact shortRuns_cons rfl ih h
  | last x hx =>
    rw [alignItems_last hx]
    split
    · exact trivial
    · exact trivial
  | skip x y xs hx ih =>
    rw [shortRuns, if_pos (idle_of_name hx), shortRuns] at h
    rw [alignItems_skip hx, shortRuns, inherit_idle]
    split
    · rename_i hy
      rw [if_pos hy] at h
      exact ⟨h.1, ih (h.2.2.mono (by omega))⟩
    · rename_i hy
      rw [if_neg hy] at h
      exact ih h.2

theorem shortRuns_halve (hb : ∀ x ∈ xs, x.idle = true → x.name = "") (h : shortRuns (2 * n + 1) (2 * k + 1) xs) :
    shortRuns n k (alignItems xs) := by
  induction xs using alignItems_induction generalizing k with
  | nil => exact trivial
  | named x xs hx ih =>
    rw [forall_mem_cons] at hb
    have hi : x.idle = false := by
      rw [← Bool.not_eq_true]
      exact fun hi => hx (hb.1 hi)
    rw [shortRuns, hi] at h
    rw [alignItems_cons hx, shortRuns, hi]
    exact ih hb.2 h
  | last x hx =>
    rw [alignItems_last hx]
    split
    · exact trivial
    · exact trivial
  | skip x y xs hx ih =>
    rw [forall_mem_cons, forall_mem_cons] at hb
    rw [shortRuns, if_pos (idle_of_name hx), shortRuns] at h
    rw [alignItems_skip hx, shortRuns, inherit_idle]
    split
    · rename_i hy
      rw [if_pos hy] at h
      exact ⟨by omega, ih hb.2.2 (h.2.2.mono (by omega))⟩
    · rename_i hy
      rw [if_neg hy] at h
      exact ih hb.2.2 h.2

theorem inherit_of {P : Item → Prop} {y : Item} (hlabel : ∀ x l, P x → P { x with label := l }) (hy : P y) :
    P (inherit x y) := by
  rw [inherit]
  split
  · exact hlabel y x.label hy
  · exact hy

theorem forall_alignItems {P : Item → Prop} (hlabel : ∀ x l, P x → P { x with label := l })
    (hnop : ∀ l, P ⟨l, "nop", []⟩) (h : ∀ x ∈ xs, P x) : ∀ x ∈ alignItems xs, P x := by
  induction xs using alignItems_induction with
  | nil => simp [alignItems]
  | named x xs hx ih =>
    rw [forall_mem_cons] at h
    rw [alignItems_cons hx]
    exact forall_mem_cons.2 ⟨h.1, ih h.2⟩
  | last x hx =>
    rw [alignItems_last hx]
    split
    · simp
    · simpa using hnop x.label
  | skip x y xs hx ih =>
    rw [forall_mem_cons, forall_mem_cons] at h
    rw [alignItems_skip hx]
    exact forall_mem_cons.2 ⟨inherit_of hlabel h.2.1, ih h.2.2⟩

theorem blank_alignItems (hb : ∀ x ∈ xs, x.idle = true → x.name = "") : ∀ x ∈ alignItems xs, x.idle = true → x.name = "" :=
  forall_alignItems (fun _ _ h => h) (fun _ => by simp [Item.idle]) hb

/-! ## Passes that work in place -/

/-- Waits for no time are emptied. -/
def cleared (x : Item) : Item := if x.name = "wait" ∧ x.operands.head? = some (.word "0") then ⟨x.label, "", []⟩ else x

theorem clearZeroWaits_eq_map (h : ∀ x ∈ xs, x.name = "wait" → x.operands ≠ []) :
    clearZeroWaits xs = .ok (xs.map cleared) := by
  induction xs with
  | nil => rfl
  | cons x xs ih =>
    rw [forall_mem_cons] at h
    rw [clearZeroWaits, ih h.2, map_cons, cleared]
    by_cases hw : x.name = "wait"
    · obtain ⟨op, rest, hops⟩ := exists_cons_of_ne_nil (h.1 hw)
      simp only [hw, hops, if_true, true_and, head?_cons, Option.some.injEq]
      rfl
    · simp only [hw, if_false, false_and]
      rfl

theorem cleared_spec (x : Item) : (cleared x).idle = x.idle ∧ (cleared x).label = x.label ∧
    (x.idle = false → cleared x = x) ∧ ((cleared x).idle = true → (cleared x).name = "") := by
  rw [cleared]
  split
  · rename_i h
    simp [Item.idle, h]
  · rename_i h
    refine ⟨rfl, rfl, fun _ => rfl, fun hi => ?_⟩
    simp only [Item.idle, Bool.or_eq_true, Bool.and_eq_true, beq_iff_eq] at hi
    exact hi.resolve_right h

theorem settle_cleared (p : String) (xs : List Item) : settle p (xs.map cleared) = settle p xs := by
  induction xs generalizing p with
  | nil => rfl
  | cons x xs ih =>
    obtain ⟨hidle, hlabel, hself, -⟩ := cleared_spec x
    rw [map_cons]
    cases hx : x.idle with
    | true => rw [settle_idle (hidle.trans hx), settle_idle hx, ih, Item.labelAfter, hlabel, Item.labelAfter]
    | false => rw [hself hx, settle_cons hx, settle_cons hx, ih]

theorem shortRuns_cleared (h : shortRuns n k xs) : shortRuns n k (xs.map cleared) := by
  induction xs generalizing k with
  | nil => exact trivial
  | cons x xs ih => exact shortRuns_cons (cleared_spec x).1 ih h

/-- What replaces an item item by item: idle lines stay, and the first of the items in place of an instruction has its
label. -/
structure InPlace (f : Item → List Item) : Prop where
  idle : ∀ x : Item, x.idle = true → f x = [x]
  block : ∀ x : Item, x.idle = false → ∃ (h : Item) (t : List Item), h.idle = false ∧
    (∀ y ∈ t, y.idle = false ∧ y.label = "") ∧
    ∀ l, f { x with label := l } = { h with label := l } :: t

variable {f : Item → List Item}

theorem settle_block {t : List Item} (ht : ∀ y ∈ t, y.idle = false ∧ y.label = "") (ys : List Item) :
    settle "" (t ++ ys) = t ++ settle "" ys := by
  induction t with
  | nil => rfl
  | cons y t ih =>
    rw [forall_mem_cons] at ht
    rw [cons_append, settle_cons ht.1.1, ih ht.2, Item.labelAfter, if_pos ht.1.2, ← ht.1.2]
    rfl

theorem InPlace.settle (hf : InPlace f) (p : String) (xs : List Item) :
    settle p (xs.flatMap f) = (settle p xs).flatMap f := by
  induction xs generalizing p with
  | nil => rfl
  | cons x xs ih =>
    rw [flatMap_cons]
    cases hx : x.idle with
    | true =>
      rw [hf.idle x hx, singleton_append, settle_idle hx, settle_idle hx, ih]
    | false =>
      obtain ⟨h, t, hh, ht, hlabel⟩ := hf.block x hx
      rw [show f x = _ from hlabel x.label, settle_cons hx, flatMap_cons, hlabel, cons_append,
        settle_cons (x := { h with label := x.label }) hh, settle_block ht, ih]
      rfl

theorem InPlace.shortRuns (hf : InPlace f) (h : shortRuns n k xs) : shortRuns n k (xs.flatMap f) := by
  induction xs generalizing k with
  | nil => exact trivial
  | cons x xs ih =>
    rw [flatMap_cons]
    cases hx : x.idle with
    | true =>
      rw [hf.idle x hx, singleton_append]
      exact shortRuns_cons rfl ih h
    | false =>
      obtain ⟨y, t, hy, ht, hlabel⟩ := hf.block x hx
      rw [Qumis.shortRuns, hx] at h
      rw [show f x = _ from hlabel x.label, cons_append, Qumis.shortRuns,
        show Item.idle { y with label := x.label } = false from hy]
      have hblock : Qumis.shortRuns n n (t ++ xs.flatMap f) := by
        clear hlabel
        induction t with
        | nil => exact ih h
        | cons z t iht =>
          rw [forall_mem_cons] at ht
          rw [cons_append, Qumis.shortRuns, ht.1.1]
          exact iht ht.2
      exact hblock

theorem InPlace.labelsOf (hf : InPlace f) (xs : List Item) : labelsOf (xs.flatMap f) = labelsOf xs := by
  induction xs with
  | nil => rfl
  | cons x xs ih =>
    rw [flatMap_cons, labelsOf_append, labelsOf_cons x, ih]
    congr 1
    cases hx : x.idle with
    | true => rw [hf.idle x hx]
    | false =>
      obtain ⟨y, t, -, ht, hlabel⟩ := hf.block x hx
      rw [show f x = _ from hlabel x.label, labelsOf_cons, labelsOf_unlabelled t fun z hz => (ht z hz).2, append_nil]
      rfl

theorem InPlace.blank (hf : InPlace f) (hb : ∀ x ∈ xs, x.idle = true → x.name = "") :
    ∀ y ∈ xs.flatMap f, y.idle = true → y.name = "" := by
  intro y hy hi
  obtain ⟨x, hx, hy⟩ := mem_flatMap.1 hy
  cases hxi : x.idle with
  | true =>
    rw [hf.idle x hxi] at hy
    exact mem_singleton.1 hy ▸ hb x hx hxi
  | false =>
    obtain ⟨z, t, hz, ht, hlabel⟩ := hf.block x hxi
    rw [show f x = _ from hlabel x.label] at hy
    rcases mem_cons.1 hy with rfl | hy
    · cases hi.symm.trans hz
    · cases hi.symm.trans (ht y hy).1

theorem idle_of_isBranch (h : x.isBranch = true) : x.idle = false := by
  rcases isBranch_name h with h | h <;> simp [Item.idle, h]

theorem inPlace_nopsAfterBranches (n : Nat) :
    InPlace fun x => if x.isBranch then x :: List.replicate n ⟨"", "nop", []⟩ else [x] where
  idle x hx := by
    have hb : x.isBranch = false := by
      rw [← Bool.not_eq_true]
      intro hb
      rw [idle_of_isBranch hb] at hx
      cases hx
    simp [hb]
  block x hx := by
    cases hb : x.isBranch with
    | true =>
      refine ⟨x, List.replicate n ⟨"", "nop", []⟩, hx, fun y hy => ?_, fun l => if_pos hb⟩
      rw [eq_of_mem_replicate hy]
      exact ⟨rfl, rfl⟩
    | false => exact ⟨x, [], hx, by simp, fun l => if_neg (by simpa [Item.isBranch] using hb)⟩

/-- What stands in place of an item when loads are expanded. -/
def moved (x : Item) : List Item := (expandMove x).toOption.getD [x]

theorem expandMoves_eq_flatMap (h : ∀ x ∈ xs, ∃ ys, expandMove x = .ok ys) : expandMoves xs = .ok (xs.flatMap moved) := by
  induction xs with
  | nil => rfl
  | cons x xs ih =>
    rw [forall_mem_cons] at h
    obtain ⟨ys, hys⟩ := h.1
    have hmoved : moved x = ys := by rw [moved, hys]; rfl
    rw [expandMoves, hys, ih h.2, flatMap_cons, hmoved]
    rfl

theorem moved_cases (x : Item) : (∀ l, moved { x with label := l } = [{ x with label := l }]) ∨
    x.name = "mov" ∧ ∃ reg n, ∀ l, moved { x with label := l } = loadBytes l reg n := by
  by_cases hm : x.name = "mov"
  · simp only [moved, expandMove, hm, if_true]
    split
    · rename_i reg imm rest hops
      cases imm with
      | number n => exact .inr ⟨trivial, reg, n, fun l => rfl⟩
      | word s =>
        cases hs : isNumberWord s with
        | false => exact .inl fun l => by simp [hs, Except.toOption]
        | true =>
          cases hn : Operand.int? (.word s) with
          | none => exact .inl fun l => by simp [hs, Except.toOption]
          | some n => exact .inr ⟨trivial, reg, n, fun l => by simp [hs, Except.toOption]⟩
    · exact .inl fun l => rfl
  · exact .inl fun l => by simp [moved, expandMove, hm, Except.toOption]

theorem inPlace_moved : InPlace moved where
  idle x hx := by
    rcases moved_cases x with h | ⟨hm, -⟩
    · exact h x.label
    · simp [Item.idle, hm] at hx
  block x hx := by
    rcases moved_cases x with h | ⟨-, reg, n, h⟩
    · exact ⟨x, [], hx, by simp, h⟩
    · exact ⟨⟨"", "lui", [reg, .number 0, .number (n % Nat.pow 2 32 / Nat.pow 256 0 % 256)]⟩, (loadBytes "" reg n).tail,
        rfl, by simp [loadBytes, Item.idle], h⟩

end

/-! ## Stages -/

/-- A program on its way to the program `T` that it settles to, with labels among `L` and runs of at most `n` idle lines. -/
structure Stage (T : List Item) (L : List String) (n : Nat) (xs : List Item) : Prop where
  settles : settle "" xs = T
  labels : (labelsOf xs).Sublist L
  runs : shortRuns n n xs
  last : ∃ front z, xs = front ++ [z] ∧ z.idle = false

namespace Stage

variable {T : List Item}

theorem not_idle (h : Stage T L n xs) : ∀ x ∈ T, x.idle = false := by
  intro x hx
  rw [← h.settles] at hx
  obtain ⟨y, -, hy, l, rfl⟩ := mem_settle hx
  exact hy

theorem alignItems_settles (h : Stage T L n xs) : settle "" (alignItems xs) = T ∧ (labelsOf (alignItems xs)).Sublist L ∧
    ∃ front z, alignItems xs = front ++ [z] ∧ z.idle = false := by
  obtain ⟨front, z, rfl, hz⟩ := h.last
  have hname := name_of_not_idle hz
  obtain ⟨front', l, halign⟩ := alignItems_concat hname front
  refine ⟨?_, (labelsOf_alignItems _).trans h.labels, front', _, halign, hz⟩
  have := settle_alignItems hname "" front []
  rw [append_nil] at this
  exact this.trans h.settles

theorem align (h : Stage T L n xs) : Stage T L n (alignItems xs) :=
  ⟨h.alignItems_settles.1, h.alignItems_settles.2.1, shortRuns_alignItems h.runs, h.alignItems_settles.2.2⟩

theorem halve (h : Stage T L (2 * n + 1) xs) (hb : ∀ x ∈ xs, x.idle = true → x.name = "") : Stage T L n (alignItems xs) :=
  ⟨h.alignItems_settles.1, h.alignItems_settles.2.1, shortRuns_halve hb h.runs, h.alignItems_settles.2.2⟩

theorem clear (h : Stage T L n xs) : Stage T L n (xs.map cleared) := by
  refine ⟨(settle_cleared "" xs).trans h.settles, ?_, shortRuns_cleared h.runs, ?_⟩
  · have : labelsOf (xs.map cleared) = labelsOf xs := by
      rw [labelsOf, map_map, labelsOf]
      congr 2
      funext x
      exact (cleared_spec x).2.1
    rw [this]
    exact h.labels
  · obtain ⟨front, z, rfl, hz⟩ := h.last
    exact ⟨front.map cleared, z, by rw [map_append, map_singleton, (cleared_spec z).2.2.1 hz], hz⟩

theorem inPlace {f : Item → List Item} (hf : InPlace f) (h : Stage T L n xs) : Stage (T.flatMap f) L n (xs.flatMap f) := by
  refine ⟨by rw [hf.settle, h.settles], (hf.labelsOf xs).symm ▸ h.labels, hf.shortRuns h.runs, ?_⟩
  obtain ⟨front, z, rfl, hz⟩ := h.last
  obtain ⟨y, t, hy, ht, hlabel⟩ := hf.block z hz
  rw [flatMap_append, flatMap_singleton, show f z = _ from hlabel z.label]
  rcases eq_nil_or_concat t with rfl | ⟨t', w, rfl⟩
  · exact ⟨_, _, rfl, hy⟩
  · exact ⟨front.flatMap f ++ { y with label := z.label } :: t', w, by simp, (ht w (by simp)).1⟩

theorem of_settled (h : ∀ x ∈ T, x.idle = false) (hne : T ≠ []) (hl : (labelsOf T).Sublist L) : Stage T L n T := by
  refine ⟨settle_eq_self h, hl, shortRuns_of_not_idle h, ?_⟩
  obtain ⟨front, z, rfl⟩ := eq_nil_or_concat T |>.resolve_left hne
  exact ⟨front, z, by simp, h z (by simp)⟩

theorem eq_of_zero (h : Stage T L 0 xs) : xs = T := by rw [← h.settles, settle_eq_self (shortRuns_zero h.runs)]

theorem ne_nil (h : Stage T L n xs) : T ≠ [] := by
  obtain ⟨front, z, rfl, hz⟩ := h.last
  obtain ⟨q, hq⟩ := settle_append "" front [z]
  rw [← h.settles, hq, settle_cons hz]
  simp

end Stage

/-! ## From the source to settled programs -/

/-- A label stands on two of the lines. -/
def Redefined (file : String) (lines : List Item) (e : AsmError) : Prop :=
  ∃ l, e = .labelTwice l file ∧ 2 ≤ (labelsOf lines).count l

section
variable {cfg : Settings} {lines T : List Item}

theorem align_ends (h : (labelsOf xs).Sublist (labelsOf lines)) (file : String) :
    Ends (Redefined file lines) (· = alignItems xs) (align file xs) := by
  refine ends_iff.2 ⟨fun ys hys => (align_eq_ok.1 hys).1, fun e he => ?_⟩
  obtain ⟨l, rfl, hl⟩ := align_error he
  exact ⟨l, rfl, Nat.le_trans hl (h.count_le l)⟩

theorem Sound.not_idle (h : Sound cfg L x) : x.idle = false := by
  rw [Item.idle, Bool.or_eq_false_iff, Bool.and_eq_false_imp]
  refine ⟨by simpa using h.name_ne, fun hw => ?_⟩
  obtain ⟨op, rest, hops, hop⟩ := h.wait_operands (by simpa using hw)
  simpa [hops] using hop

theorem Stage.sound (h : Stage T L n xs) (hsound : ∀ x ∈ T, Sound cfg K x) :
    ∀ x ∈ xs, x.idle = false → Sound cfg K x := by
  intro x hx hi
  obtain ⟨l, hl⟩ := exists_mem_settle (p := "") hx hi
  rw [h.settles] at hl
  exact (hsound _ hl).relabel x.label

theorem Stage.wait_operands (h : Stage T L n xs)
    (hsound : ∀ x ∈ T, Sound cfg K x) : ∀ x ∈ xs, x.name = "wait" → x.operands ≠ [] := by
  intro x hx hw hnil
  cases hi : x.idle with
  | true => simp [Item.idle, hw, hnil] at hi
  | false =>
    obtain ⟨op, rest, hops, -⟩ := (h.sound hsound x hx hi).wait_operands hw
    rw [hnil] at hops
    cases hops

theorem Stage.expandMoves (h : Stage T L n xs)
    (hsound : ∀ x ∈ T, Sound cfg K x) : expandMoves xs = .ok (xs.flatMap moved) := by
  refine expandMoves_eq_flatMap fun x hx => ?_
  cases hi : x.idle with
  | true => exact ⟨[x], if_neg fun hm => by simp [Item.idle, hm] at hi⟩
  | false =>
    obtain ⟨ys, hys, -⟩ := expandMove_sound (h.sound hsound x hx hi)
    exact ⟨ys, hys⟩

theorem nopsAfterLabels_ne_nil (h : xs ≠ []) : nopsAfterLabels xs ≠ [] := by
  obtain ⟨x, r, rfl⟩ := exists_cons_of_ne_nil h
  rw [nopsAfterLabels, flatMap_cons]
  split <;> simp

theorem nopsAfterBranches_ne_nil (h : xs ≠ []) : nopsAfterBranches n xs ≠ [] := by
  obtain ⟨x, r, rfl⟩ := exists_cons_of_ne_nil h
  rw [nopsAfterBranches, flatMap_cons]
  split <;> simp

theorem padded_ne_nil (h : xs ≠ []) : padded cfg xs ≠ [] := by
  have hlabelled : (if cfg.nopAfterLabel then nopsAfterLabels xs else xs) ≠ [] := by
    split
    · exact nopsAfterLabels_ne_nil h
    · exact h
  rw [padded]
  split
  · exact nopsAfterBranches_ne_nil hlabelled
  · exact hlabelled

/-- A label in front of an idle line would get a `nop` of its own, so no idle line may be left where labels get `nop`s. -/
theorem Stage.padded (h : Stage T L (if cfg.nopAfterLabel then 0 else 3) xs)
    (hb : ∀ x ∈ xs, x.idle = true → x.name = "") (hdone : Stage (padded cfg T) L 3 (padded cfg T)) :
    Stage (padded cfg T) L 3 (padded cfg xs) ∧ ∀ x ∈ padded cfg xs, x.idle = true → x.name = "" := by
  cases hn : cfg.nopAfterLabel with
  | true =>
    rw [hn] at h
    rw [h.eq_of_zero]
    refine ⟨hdone, fun x hx hi => ?_⟩
    rw [hdone.not_idle x hx] at hi
    cases hi
  | false =>
    rw [hn] at h
    simp only [Qumis.padded, hn, Bool.false_eq_true, if_false]
    split
    · exact ⟨h.inPlace (inPlace_nopsAfterBranches _), (inPlace_nopsAfterBranches _).blank hb⟩
    · exact ⟨h, hb⟩

/-- **The alignments settle a program**: its passes come to the program that it settles to, or a label is there twice. -/
theorem expand_ends {items : List Item}
    (hstage : Stage T (labelsOf lines) (if cfg.nopAfterLabel then 3 else 15) (items ++ endLoop))
    (hsound : ∀ x ∈ T, Sound cfg (labelsOf T) x) (hmax : 1 ≤ cfg.maxWait) :
    Ends (Redefined cfg.file lines) (fun final => emitItems cfg T = .ok final) (expand cfg items) := by
  have hpad : Assemblable cfg (labelsOf T) (padded cfg T) := Assemblable.padded ⟨hsound, rfl⟩
  have hself {n : Nat} : Stage (padded cfg T) (labelsOf lines) n (padded cfg T) := by
    refine .of_settled (fun x hx => (hpad.sound x hx).not_idle) (padded_ne_nil hstage.ne_nil) ?_
    rw [hpad.labels, ← hstage.settles, ← keptLabels_eq]
    exact (keptLabels_sublist _).trans hstage.labels
  refine (align_ends hstage.labels _).bind ?_
  rintro _ rfl
  have hlooped := hstage.align
  rw [clearZeroWaits_eq_map (hlooped.wait_operands hsound)]
  have hclear := hlooped.clear
  have hb₀ : ∀ x ∈ (alignItems (items ++ endLoop)).map cleared, x.idle = true → x.name = "" := by
    intro x hx
    obtain ⟨y, -, rfl⟩ := mem_map.1 hx
    exact (cleared_spec y).2.2.2
  have hb₁ := blank_alignItems hb₀
  refine (align_ends hclear.labels _).bind ?_
  rintro _ rfl
  refine (align_ends hclear.align.labels _).bind ?_
  rintro aligned rfl
  -- each of the last four alignments halves the runs of idle lines
  rw [show (if cfg.nopAfterLabel then 3 else 15) = 2 * (2 * (if cfg.nopAfterLabel then 0 else 3) + 1) + 1 by
    split <;> rfl] at hclear
  obtain ⟨hpadded, hb₂⟩ := Stage.padded ((hclear.halve hb₀).halve hb₁) (blank_alignItems hb₁) hself
  refine (align_ends hpadded.labels _).bind ?_
  rintro _ rfl
  have hone : Stage (padded cfg T) (labelsOf lines) 1 _ := hpadded.halve (n := 1) hb₂
  rw [hone.expandMoves hpad.sound]
  have hmoved := hone.inPlace inPlace_moved
  refine (align_ends hmoved.labels _).bind ?_
  rintro _ rfl
  have hdone := (hmoved.halve (n := 0) (inPlace_moved.blank (blank_alignItems hb₂))).eq_of_zero
  obtain ⟨final, hfinal, -⟩ := emitItems_ready hmax (show Assemblable cfg (labelsOf T) T from ⟨hsound, rfl⟩)
  have hemit := hfinal
  rw [emitItems, (hself (n := 0)).expandMoves hpad.sound, ← hdone] at hemit
  refine ends_iff.2 ⟨fun out hout => hfinal.trans (hemit.symm.trans hout), fun e he => ?_⟩
  cases hemit.symm.trans he

/-! ## Source texts -/

theorem closeEnd_concat (xs : List Item) (z : Item) : closeEnd (xs ++ [z]) = xs ++ closeEnd [z] := by
  induction xs with
  | nil => rfl
  | cons x xs ih =>
    obtain ⟨y, r, hy⟩ : ∃ y r, xs ++ [z] = y :: r := exists_cons_of_ne_nil (by simp)
    have hstep : closeEnd (x :: y :: r) = x :: closeEnd (y :: r) := rfl
    rw [cons_append, hy, hstep, ← hy, ih, cons_append]

theorem alignItems_append (hz : z.name ≠ "") (xs ys : List Item) :
    alignItems (xs ++ z :: ys) = alignItems (xs ++ [z]) ++ alignItems ys := by
  induction xs using alignItems_induction with
  | nil =>
    rw [nil_append, nil_append, alignItems_cons hz, alignItems_cons hz]
    rfl
  | named x xs hx ih => rw [cons_append, cons_append, alignItems_cons hx, alignItems_cons hx, ih, cons_append]
  | last x hx =>
    rw [singleton_append, singleton_append, alignItems_skip hx, alignItems_skip hx]
    rfl
  | skip x y xs hx ih =>
    rw [cons_append, cons_append, cons_append, cons_append, alignItems_skip hx, alignItems_skip hx, ih,
      cons_append]

theorem closeEnd_singleton (hz : z.name = "") : alignItems [z] = closeEnd [z] := by
  rw [alignItems_last hz, closeEnd, if_neg (show ¬z.name ≠ "" from not_not.2 hz)]

theorem labelsOf_closeEnd (xs : List Item) : labelsOf (closeEnd xs) = labelsOf xs := by
  rcases eq_nil_or_concat xs with rfl | ⟨front, z, rfl⟩
  · rfl
  · rw [concat_eq_append, closeEnd_concat, labelsOf_append, labelsOf_append, closeEnd]
    congr 1
    split
    · rfl
    · split
      · rename_i hl
        rw [labelsOf_unlabelled [z] (by simpa)]
        rfl
      · rfl

/-- What is read is the source with its labels moved, if not both of the last two lines are without an instruction. -/
theorem settle_source (hlast : ∀ y z, [y, z] <:+ src → y.name = "" → z.name ≠ "") (ys : List Item) :
    settle "" (alignItems src ++ ys) = settle "" (closeEnd src ++ ys) := by
  rcases eq_nil_or_concat src with rfl | ⟨front, z, rfl⟩
  · rfl
  rw [concat_eq_append] at hlast ⊢
  rw [closeEnd_concat]
  by_cases hz : z.name = ""
  · rcases eq_nil_or_concat front with rfl | ⟨front', y, rfl⟩
    · rw [nil_append, nil_append, closeEnd_singleton hz]
    · rw [concat_eq_append] at hlast ⊢
      have hy : y.name ≠ "" := fun hy => hlast y z ⟨front', by simp⟩ hy hz
      rw [append_assoc, singleton_append, alignItems_append hy, closeEnd_singleton hz, append_assoc,
        settle_alignItems hy]
      simp
  · rw [settle_alignItems hz, closeEnd, if_pos hz]
    simp

theorem endLoop_not_idle : ∀ x ∈ endLoop, x.idle = false := by decide

/-- The lines of a source whose labels can be placed: instructions that become words, when branches go to labels that are
kept, few idle lines in a row, and an instruction in one of the last two lines. -/
structure Placeable (cfg : Settings) (src : List Item) : Prop where
  sound : ∀ x ∈ src, x.idle = false → Sound cfg (keptLabels (closeEnd src ++ endLoop)) x
  runs : ∀ run, run <:+: src → (∀ x ∈ run, x.idle = true) → run.length ≤ if cfg.nopAfterLabel then 3 else 15
  last : ∀ y z, [y, z] <:+ src → y.name = "" → z.name ≠ ""

theorem Stage.source {T : List Item} (hsettles : settle "" (alignItems src ++ endLoop) = T) (hruns : shortRuns n n src) :
    Stage T (labelsOf (src ++ endLoop)) n (alignItems src ++ endLoop) where
  settles := hsettles
  labels := by
    rw [labelsOf_append, labelsOf_append]
    exact (labelsOf_alignItems src).append_right _
  runs := shortRuns_append (shortRuns_alignItems hruns) endLoop_not_idle
  last := ⟨alignItems src ++ endLoop.dropLast, ⟨"", "beq", [.word "r0", .word "r0", .word "end_of_file_loop"]⟩, by
    rw [append_assoc]
    rfl, rfl⟩

theorem Placeable.stage (h : Placeable cfg src) :
    Stage (settle "" (closeEnd src ++ endLoop)) (labelsOf (closeEnd src ++ endLoop)) (if cfg.nopAfterLabel then 3 else 15)
      (alignItems src ++ endLoop) := by
  rw [labelsOf_append, labelsOf_closeEnd, ← labelsOf_append]
  exact .source (settle_source h.last endLoop) (shortRuns_within (fun run hrun => h.runs run hrun.isInfix) h.runs)

theorem Placeable.settled (h : Placeable cfg src) :
    Assemblable cfg (keptLabels (closeEnd src ++ endLoop)) (settle "" (closeEnd src ++ endLoop)) := by
  refine ⟨fun x hx => ?_, (keptLabels_eq _).symm⟩
  obtain ⟨y, hy, hi, l, rfl⟩ := mem_settle hx
  refine Sound.relabel ?_ l
  rcases mem_append.1 hy with hy | hy
  · rcases eq_nil_or_concat src with rfl | ⟨front, z, rfl⟩
    · cases hy
    · have hmem := h.sound
      rw [concat_eq_append] at hmem hy ⊢
      rw [closeEnd_concat] at hy
      rcases mem_append.1 hy with hy | hy
      · exact hmem y (mem_append_left _ hy) hi
      · rw [closeEnd] at hy
        split at hy
        · obtain rfl := mem_singleton.1 hy
          exact hmem y (by simp) hi
        · split at hy
          · cases hy
          · rw [mem_singleton.1 hy]
            exact .nop _
  · refine endLoop_sound ?_ y hy
    rw [keptLabels_eq, endLoop, settle_append_labelled (by simp), labelsOf_append]
    exact mem_append_right _ (by decide)

/-! ## Cutting a program in front of a label -/

/-- The first item has the label. -/
def StartsWith (l : String) (xs : List Item) : Prop := ∃ x r, xs = x :: r ∧ x.label = l

/-- A pass cuts a program where an item has a label. -/
def Cuts (pass : List Item → Except AsmError (List Item)) : Prop :=
  ∀ xs ys out l, l ≠ "" → StartsWith l ys → pass (xs ++ ys) = .ok out →
    ∃ a b, pass xs = .ok a ∧ pass ys = .ok b ∧ out = a ++ b ∧ StartsWith l b

theorem Cuts.bind {p q : List Item → Except AsmError (List Item)} (hp : Cuts p) (hq : Cuts q) :
    Cuts fun xs => p xs >>= q := by
  intro xs ys out l hl hys h
  obtain ⟨mid, hmid, h⟩ := bind_eq_ok.1 h
  obtain ⟨a, b, ha, hb, rfl, hstart⟩ := hp xs ys mid l hl hys hmid
  obtain ⟨c, d, hc, hd, rfl, hstart⟩ := hq a b out l hl hstart h
  exact ⟨c, d, by simp only [ha]; exact hc, by simp only [hb]; exact hd, rfl, hstart⟩

theorem cuts_pass (pass : List Item → Except AsmError (List Item)) {f : Item → Except AsmError (List Item)}
    (hnil : pass [] = .ok [])
    (hcons : ∀ x r, pass (x :: r) = do
      let ys ← f x
      let zs ← pass r
      return ys ++ zs)
    (hf : ∀ x ys, f x = .ok ys → StartsWith x.label ys) : Cuts pass := by
  intro xs ys out l hl hys h
  obtain ⟨a, b, ha, hb, rfl⟩ := pass_append hnil hcons h
  refine ⟨a, b, ha, hb, rfl, ?_⟩
  obtain ⟨x, r, rfl, rfl⟩ := hys
  rw [hcons] at hb
  obtain ⟨c, hc, hb⟩ := bind_eq_ok.1 hb
  obtain ⟨d, -, hb⟩ := bind_eq_ok.1 hb
  cases hb
  obtain ⟨y, t, rfl, hy⟩ := hf x c hc
  exact ⟨y, t ++ d, rfl, hy⟩

theorem cuts_padded : Cuts fun xs => .ok (padded cfg xs) := by
  have hlabels : Cuts fun xs => .ok (if cfg.nopAfterLabel then nopsAfterLabels xs else xs) := by
    cases cfg.nopAfterLabel with
    | true =>
      refine cuts_pass _ (f := fun x => .ok (if x.label = "" ∨ x.name = "nop" then [x] else
        [⟨x.label, "nop", []⟩, { x with label := "" }])) rfl (fun x r => rfl) fun x ys h => ?_
      cases h
      split
      · exact ⟨_, _, rfl, rfl⟩
      · exact ⟨_, _, rfl, rfl⟩
    | false =>
      refine cuts_pass _ (f := fun x => .ok [x]) rfl (fun x r => rfl) fun x ys h => ?_
      cases h
      exact ⟨_, _, rfl, rfl⟩
  have hbranches : Cuts fun xs => .ok (if cfg.nopAfterBranch then nopsAfterBranches cfg.branchNops xs else xs) := by
    cases cfg.nopAfterBranch with
    | true =>
      refine cuts_pass _ (f := fun x => .ok (if x.isBranch then x :: List.replicate cfg.branchNops ⟨"", "nop", []⟩ else [x]))
        rfl (fun x r => rfl) fun x ys h => ?_
      cases h
      split
      · exact ⟨_, _, rfl, rfl⟩
      · exact ⟨_, _, rfl, rfl⟩
    | false =>
      refine cuts_pass _ (f := fun x => .ok [x]) rfl (fun x r => rfl) fun x ys h => ?_
      cases h
      exact ⟨_, _, rfl, rfl⟩
  exact hlabels.bind hbranches

theorem mergeFrom_starts {m : Int} {r out : List Item} (h : mergeFrom m x r = .ok out) : StartsWith x.label out := by
  induction r generalizing x out with
  | nil =>
    cases h
    exact ⟨x, [], rfl, rfl⟩
  | cons y r ih =>
    rcases mergeFrom_inv h with ⟨ys, -, rfl⟩ | ⟨-, n, h⟩
    · exact ⟨x, ys, rfl, rfl⟩
    · exact ih (x := waitItem x.label n (x.operands.drop 1)) h

/-- Waits are not merged across a label. -/
theorem mergeFrom_cut {m : Int} {y : Item} {r s out : List Item} (hy : y.label ≠ "")
    (h : mergeFrom m x (r ++ y :: s) = .ok out) :
    ∃ a b, mergeFrom m x r = .ok a ∧ mergeFrom m y s = .ok b ∧ out = a ++ b := by
  induction r generalizing x out with
  | nil =>
    rw [nil_append, mergeFrom, if_neg fun hw => hy hw.2.1] at h
    obtain ⟨ys, hys, h⟩ := bind_eq_ok.1 h
    cases h
    exact ⟨[x], ys, rfl, hys, rfl⟩
  | cons z r ih =>
    have hapart (h : (do
        let ys ← mergeFrom m z (r ++ y :: s)
        return x :: ys) = (.ok out : Except AsmError (List Item))) :
        ∃ a b, (do
          let ys ← mergeFrom m z r
          return x :: ys) = (.ok a : Except AsmError (List Item)) ∧ mergeFrom m y s = .ok b ∧ out = a ++ b := by
      obtain ⟨ys, hys, h⟩ := bind_eq_ok.1 h
      cases h
      obtain ⟨a, b, ha, hb, rfl⟩ := ih hys
      exact ⟨x :: a, b, by rw [ha]; rfl, hb, rfl⟩
    rw [cons_append, mergeFrom] at h
    rw [mergeFrom]
    split at h
    · rename_i hw
      rw [if_pos hw]
      obtain ⟨a, ha, h⟩ := bind_eq_ok.1 h
      obtain ⟨b, hb, h⟩ := bind_eq_ok.1 h
      rw [ha, hb]
      simp only [bind, Except.bind] at h ⊢
      split at h
      · rename_i hsum
        rw [if_pos hsum]
        exact ih h
      · rename_i hsum
        rw [if_neg hsum]
        exact hapart h
    · rename_i hw
      rw [if_neg hw]
      exact hapart h

theorem cuts_mergeWaits (m : Int) : Cuts (mergeWaits m) := by
  rintro xs _ out l hl ⟨y, s, rfl, rfl⟩ h
  cases xs with
  | nil => exact ⟨[], out, rfl, h, rfl, mergeFrom_starts h⟩
  | cons x r =>
    obtain ⟨a, b, ha, hb, rfl⟩ := mergeFrom_cut hl h
    exact ⟨a, b, ha, hb, rfl, mergeFrom_starts hb⟩

theorem cuts_emitItems : Cuts (emitItems cfg) := by
  have hmove : Cuts expandMoves := by
    refine cuts_pass _ rfl (fun _ _ => rfl) fun x ys h => ?_
    have hmoved : moved x = ys := by
      rw [moved, h]
      rfl
    rcases moved_cases x with hx | ⟨-, reg, n, hx⟩
    · exact ⟨x, [], hmoved ▸ hx x.label, rfl⟩
    · obtain rfl : loadBytes x.label reg n = ys := (hx x.label).symm.trans hmoved
      exact ⟨_, _, rfl, rfl⟩
  have hsplit : Cuts (splitWaits cfg.maxWait) := by
    refine cuts_pass _ rfl (fun _ _ => rfl) fun x ys h => ?_
    rw [splitWait] at h
    split at h
    · split at h
      · cases h
      · split at h
        · cases h
        · split at h
          · cases h
            exact ⟨_, _, rfl, rfl⟩
          · cases h
            exact ⟨_, _, rfl, rfl⟩
    · cases h
      exact ⟨_, _, rfl, rfl⟩
  exact cuts_padded.bind (hmove.bind (hsplit.bind (cuts_mergeWaits _)))

/-! ## Assembled programs -/

/-- What an assembled program consists of: the words and the addresses of its settled lines. -/
structure Placed (cfg : Settings) (lines : List Item) (image : Image) (final : List Item) : Prop where
  emitted : emitItems cfg (settle "" lines) = .ok final
  kept : labelsOf final = keptLabels lines
  nodup : (keptLabels lines).Nodup
  labels : image.labels = addresses 0 final
  words : ∃ resolved, resolveBranches image.labels final = .ok resolved ∧ resolved.mapM (wordOf cfg) = .ok image.words

theorem assemble_ends (hmin : cfg.minWait ≤ 1) (hmax : 1 ≤ cfg.maxWait) {text : String}
    (h : Placeable cfg (sourceItems text)) :
    Ends (Redefined cfg.file (allLines text)) (fun image => ∃ final, Placed cfg (allLines text) image final)
      (assemble cfg text) := by
  have hsettled := h.settled
  have hsound : ∀ x ∈ settle "" (allLines text), Sound cfg (labelsOf (settle "" (allLines text))) x :=
    hsettled.labels.symm ▸ hsettled.sound
  have hsource : (labelsOf (sourceItems text)).Sublist (labelsOf (allLines text)) := by
    rw [allLines, labelsOf_append, labelsOf_closeEnd]
    exact sublist_append_left _ _
  refine (align_ends hsource _).bind ?_
  rintro _ rfl
  refine (expand_ends h.stage hsound hmax).bind fun final hfinal => ?_
  obtain ⟨ys, hys, hready, hlabels⟩ := emitItems_ready hmax hsettled
  obtain rfl := Except.ok.inj (hys.symm.trans hfinal)
  by_cases hnodup : (keptLabels (allLines text)).Nodup
  · obtain ⟨resolved, words, htable, hresolved, hwords⟩ := words_of_ready hmin hready hlabels hnodup
    rw [htable]
    simp only [bind, Except.bind, hresolved, hwords]
    exact ⟨ys, hfinal, hlabels, hnodup, rfl, resolved, hresolved, hwords⟩
  · cases htable : labelTable cfg.file ys with
    | ok table => exact absurd (hlabels ▸ (labelTable_eq_ok.1 htable).2) hnodup
    | error e =>
      obtain ⟨l, rfl, hl⟩ := labelsFrom_error htable
      refine ⟨l, rfl, Nat.le_trans ?_ ((keptLabels_sublist (allLines text)).count_le l)⟩
      rw [← show labelsOf ys = keptLabels (allLines text) from hlabels]
      simpa using hl

/-- The address of a label that is kept is the number of instructions in front of it. -/
theorem Placed.lookup {image : Image} {final : List Item} (h : Placed cfg lines image final)
    {before behind : List Item} (hlines : lines = before ++ x :: behind) (hx : x.keeps behind = true) :
    ∃ a b, emitItems cfg (settle "" before) = .ok a ∧ emitItems cfg (settle "" (x :: behind)) = .ok b ∧ final = a ++ b ∧
      image.labels.lookup x.label = some a.length := by
  rw [Item.keeps, Bool.and_eq_true, Bool.or_eq_true, Bool.not_eq_true', bne_iff_ne] at hx
  have hstart : StartsWith x.label (settle "" (x :: behind)) := by
    have hlabel : x.labelAfter "" = x.label := if_neg hx.1
    cases hi : x.idle with
    | false => exact ⟨_, _, settle_cons hi "", hlabel⟩
    | true =>
      rw [settle_idle hi, hlabel]
      exact settle_reaches (hx.2.resolve_left (by simp [hi])) x.label
  have hemit := h.emitted
  rw [hlines, settle_append_labelled hx.1] at hemit
  obtain ⟨a, b, ha, hb, rfl, y, r, rfl, hy⟩ := cuts_emitItems _ _ _ _ hx.1 hstart hemit
  refine ⟨a, y :: r, ha, hb, rfl, ?_⟩
  rw [h.labels, lookup_addresses (h.kept ▸ h.nodup)]
  exact ⟨hx.1, y, by simp, hy⟩

/-- **Where labels are placed.** A program of sound instructions fails to assemble only if a label stands on two lines,
and does so if it is kept on two. Otherwise the table holds the labels that are kept, each with the number of
instructions in front of it, and every branch has the distance to its label in its last bits. -/
theorem assemble_labels (hmin : cfg.minWait ≤ 1) (hmax : 1 ≤ cfg.maxWait) {text : String}
    (h : Placeable cfg (sourceItems text)) :
    (∀ e, assemble cfg text = .error e → ∃ l, e = .labelTwice l cfg.file ∧ 2 ≤ (labelsOf (allLines text)).count l) ∧
      (¬(keptLabels (allLines text)).Nodup → ∃ l, assemble cfg text = .error (.labelTwice l cfg.file)) ∧
      ∀ image, assemble cfg text = .ok image → ∃ final, emitItems cfg (settle "" (allLines text)) = .ok final ∧
        image.words.length = final.length ∧ image.labels.map (·.1) = keptLabels (allLines text) ∧
        (∀ before x behind, allLines text = before ++ x :: behind → x.keeps behind = true →
          ∃ a b, emitItems cfg (settle "" before) = .ok a ∧ emitItems cfg (settle "" (x :: behind)) = .ok b ∧
            final = a ++ b ∧ image.labels.lookup x.label = some a.length) ∧
        ∀ (i : Nat) x, final[i]? = some x → x.isBranch = true → ∃ a b target addr word, x.operands = [a, b, target] ∧
          image.labels.lookup target.text = some addr ∧ image.words[i]? = some word ∧
          word % 2 ^ 15 = ((addr : Int) - (i + 1)) % 2 ^ 15 := by
  obtain ⟨hok, herror⟩ := ends_iff.1 (assemble_ends hmin hmax h)
  refine ⟨herror, fun hnodup => ?_, fun image himage => ?_⟩
  · cases hasm : assemble cfg text with
    | ok image =>
      obtain ⟨final, hplaced⟩ := hok image hasm
      exact absurd hplaced.nodup hnodup
    | error e =>
      obtain ⟨l, rfl, -⟩ := herror e hasm
      exact ⟨l, rfl⟩
  · obtain ⟨final, hplaced⟩ := hok image himage
    obtain ⟨resolved, hresolved, hwords⟩ := hplaced.words
    refine ⟨final, hplaced.emitted, (words_getElem? hwords).1.trans (resolveFrom_getElem? hresolved).1, ?_,
      fun before x behind => hplaced.lookup, fun i x => branch_at hresolved hwords⟩
    rw [hplaced.labels, addresses_fst, hplaced.kept]

end

/-- Labels alone, in front of a wait for no time and at the end. -/
def idleLabels : String := "a:\nb: wait 0\nnop\nbeq r0, r0, b\nc:"

theorem sourceItems_idleLabels : sourceItems idleLabels =
    [⟨"a", "", []⟩, ⟨"b", "wait", [.word "0"]⟩, ⟨"", "nop", []⟩, ⟨"", "beq", [.word "r0", .word "r0", .word "b"]⟩,
      ⟨"c", "", []⟩] := by decide +kernel

theorem placeable_idleLabels : Placeable {} (sourceItems idleLabels) := by
  rw [sourceItems_idleLabels]
  have hr : registerNumber "r0" = .ok 0 := by decide +kernel
  refine ⟨fun x hx hi => ?_, fun run hrun _ => ?_, fun y z hyz hy => ?_⟩
  · simp only [mem_cons, not_mem_nil, or_false] at hx
    rcases hx with rfl | rfl | rfl | rfl | rfl
    · cases hi
    · cases hi
    · exact .nop ""
    · exact .branch rfl rfl hr hr (by decide)
    · cases hi
  · exact Nat.le_trans hrun.length_le (by decide)
  · obtain ⟨rfl, rfl⟩ : y = ⟨"", "beq", [.word "r0", .word "r0", .word "b"]⟩ ∧ z = ⟨"c", "", []⟩ := by
      simpa using suffix_iff_eq_drop.1 hyz
    simp at hy

/-- `b` goes to the `nop`, and `c`, behind the branch and its `nop`s, gets one of its own. -/
theorem assemble_labels_idleLabels :
    ∃ image, assemble {} idleLabels = .ok image ∧ image.labels.lookup "b" = some 0 ∧ image.labels.lookup "c" = some 7 := by
  obtain ⟨herror, -, hok⟩ := assemble_labels (by decide) (by decide) placeable_idleLabels
  have hlines : allLines idleLabels = [⟨"a", "", []⟩, ⟨"b", "wait", [.word "0"]⟩, ⟨"", "nop", []⟩,
      ⟨"", "beq", [.word "r0", .word "r0", .word "b"]⟩] ++ ⟨"c", "nop", []⟩ :: endLoop := by
    rw [allLines, sourceItems_idleLabels]
    decide
  have hnodup : (labelsOf (allLines idleLabels)).Nodup := by
    rw [hlines]
    decide
  cases hasm : assemble {} idleLabels with
  | error e =>
    obtain ⟨l, -, hl⟩ := herror e hasm
    have := nodup_iff_count_le_one.1 hnodup l
    omega
  | ok image =>
    obtain ⟨final, -, -, -, hlook, -⟩ := hok image hasm
    obtain ⟨a, -, ha, -, -, hb⟩ := hlook [⟨"a", "", []⟩] ⟨"b", "wait", [.word "0"]⟩ _ hlines rfl
    obtain ⟨c, -, hc, -, -, hd⟩ := hlook _ _ _ hlines rfl
    cases ha
    cases hc
    exact ⟨image, rfl, hb, hd⟩

/-- The label of a line is lost if the next line has one, and a branch to it fails. -/
theorem assemble_lostLabel :
    (assemble {} "a:\nb: nop\n").toOption.map (·.labels) = some [("b", 0), ("end_of_file_loop", 1)] ∧
      ∀ image, assemble {} "a:\nb: beq r0, r0, a\n" ≠ .ok image := by
  refine ⟨by decide +kernel, fun image himage => ?_⟩
  have hnone : (assemble {} "a:\nb: beq r0, r0, a\n").toOption.map (·.labels) = none := by decide +kernel
  rw [himage] at hnone
  cases hnone

end QubitLab.Qumis
