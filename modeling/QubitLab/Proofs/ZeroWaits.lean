import QubitLab.Proofs.LabelPlacement

/-!
# Waits for no time

What the assembler makes of a source has a closed form (`read_eq`): where no run of idle lines is too long and a label that
stands alone stands nowhere else, it checks that no label is there twice, and the passes then work on the settled lines
only. Neither of the two sees a `wait 0` without a label, so that `assemble_inserted` holds: a program is assembled in the
same way, errors included, with any such lines in front of its last instruction.

The alignments take away half of a run each: fifteen lines in a row vanish, and sixteen do not (`assemble_zeroWaits_seen`).
-/

namespace QubitLab.Qumis

open List

/-! ## Labels that are there twice -/

/-- Checks that no label is there twice, and none of those that were seen before. -/
def distinct (file : String) (seen : List String) : List String → Except AsmError Unit
  | [] => .ok ()
  | l :: r => if l ∈ seen then .error (.labelTwice l file) else distinct file (l :: seen) r

section
variable {file : String} {seen L : List String} {x : Item} {xs ys : List Item}

theorem labelsFrom_eq (seen : List String) (i : Nat) {table : LabelTable} (hseen : ∀ l, l ∈ seen ↔ l ∈ table.map (·.1)) :
    labelsFrom file i table xs = (distinct file seen (labelsOf xs)).map fun _ => table ++ addresses i xs := by
  induction xs generalizing i table seen with
  | nil => simp [labelsFrom, distinct, addresses, Except.map]
  | cons x xs ih =>
    rw [labelsFrom, addresses, labelsOf_cons]
    by_cases hx : x.label = ""
    · rw [if_pos hx, if_pos hx, labelsOf_unlabelled [x] (by simpa), nil_append, ih _ _ hseen]
    · rw [if_neg hx, if_neg hx, labelsOf_singleton hx, singleton_append, distinct]
      by_cases hold : x.label ∈ seen
      · rw [if_pos hold, if_pos (lookup_isSome.2 ((hseen _).1 hold))]
        rfl
      · rw [if_neg hold, if_neg fun h => hold ((hseen _).2 (lookup_isSome.1 h)), ih (x.label :: seen),
          append_assoc, singleton_append]
        intro l
        simp [hseen, or_comm]

theorem align_eq (file : String) (xs : List Item) :
    align file xs = (distinct file [] (labelsOf (alignItems xs))).map fun _ => alignItems xs := by
  rw [align, labelTable, labelsFrom_eq [] 0 (by simp)]
  cases distinct file [] (labelsOf (alignItems xs)) <;> rfl

theorem distinct_eq_ok : distinct file seen L = .ok () ↔ L.Nodup ∧ ∀ l ∈ L, l ∉ seen := by
  induction L generalizing seen with
  | nil => simp [distinct]
  | cons l L ih =>
    rw [distinct, nodup_cons, forall_mem_cons]
    by_cases hl : l ∈ seen
    · simp [hl]
    · rw [if_neg hl, ih]
      simp only [mem_cons, not_or]
      constructor
      · rintro ⟨hnodup, hnew⟩
        exact ⟨⟨fun hmem => (hnew l hmem).1 rfl, hnodup⟩, hl, fun k hk => (hnew k hk).2⟩
      · rintro ⟨⟨hfresh, hnodup⟩, -, hnew⟩
        exact ⟨hnodup, fun k hk => ⟨fun heq => hfresh (heq ▸ hk), hnew k hk⟩⟩

theorem distinct_filter {p : String → Bool} (h : ∀ l, p l = false → (seen ++ L).count l ≤ 1) :
    distinct file seen L = distinct file (seen.filter p) (L.filter p) := by
  induction L generalizing seen with
  | nil => rfl
  | cons l L ih =>
    have hcount : ∀ k, p k = false → (l :: seen ++ L).count k ≤ 1 := by
      intro k hk
      have := h k hk
      simp only [cons_append, count_append, count_cons] at this ⊢
      omega
    cases hp : p l with
    | true =>
      have hmem : l ∈ seen.filter p ↔ l ∈ seen := by simp [hp]
      rw [filter_cons_of_pos hp, distinct, distinct, ih hcount, filter_cons_of_pos hp]
      simp only [hmem]
    | false =>
      have hnew : l ∉ seen := by
        intro hmem
        have hpos := count_pos_iff.2 hmem
        have := h l hp
        rw [count_append, count_cons_self] at this
        omega
      rw [filter_cons_of_neg (by simp [hp]), distinct, if_neg hnew, ih hcount, filter_cons_of_neg (by simp [hp])]

theorem distinct_append (L M : List String) :
    (distinct file seen L >>= fun _ => distinct file seen (L ++ M)) = distinct file seen (L ++ M) := by
  induction L generalizing seen with
  | nil => rfl
  | cons l L ih =>
    rw [cons_append, distinct, distinct]
    split
    · rfl
    · exact ih

/-! ## Labels that stand alone -/

/-- The labels of the lines without an instruction, which an alignment may move or drop. -/
def looseLabels (xs : List Item) : List String := (xs.filter (·.name = "")).map (·.label)

theorem mem_looseLabels {l : String} : l ∈ looseLabels xs ↔ ∃ x ∈ xs, x.name = "" ∧ x.label = l := by
  simp [looseLabels, and_assoc]

theorem labelsOf_alignItems_filter {p : String → Bool} (h : ∀ l ∈ looseLabels xs, p l = false) :
    (labelsOf (alignItems xs)).filter p = (labelsOf xs).filter p := by
  have hloose : ∀ x ∈ xs, x.name = "" → p x.label = false := fun x hx hn => h _ (mem_looseLabels.2 ⟨x, hx, hn, rfl⟩)
  clear h
  induction xs using alignItems_induction with
  | nil => rfl
  | named x xs hx ih =>
    rw [forall_mem_cons] at hloose
    rw [alignItems_cons hx, labelsOf_cons, labelsOf_cons x xs, filter_append, filter_append, ih hloose.2]
  | last x hx =>
    rw [alignItems_last hx]
    split
    · rename_i hl
      rw [labelsOf_unlabelled [x] (by simpa)]
      rfl
    · rfl
  | skip x y xs hx ih =>
    rw [forall_mem_cons, forall_mem_cons] at hloose
    have hpair : (labelsOf [inherit x y]).filter p = (labelsOf [x, y]).filter p := by
      rw [inherit, labelsOf_cons x]
      split
      · rename_i hy
        rw [labelsOf_unlabelled [y] (by simpa), append_nil]
        rfl
      · have hx' : (labelsOf [x]).filter p = [] := by
          by_cases hl : x.label = ""
          · rw [labelsOf_unlabelled [x] (by simpa)]
            rfl
          · rw [labelsOf_singleton hl, filter_cons_of_neg (by simp [hloose.1 hx])]
            rfl
        rw [filter_append, hx', nil_append]
    rw [alignItems_skip hx, labelsOf_cons, show x :: y :: xs = [x, y] ++ xs from rfl, labelsOf_append, filter_append,
      filter_append, hpair, ih hloose.2.2]

theorem looseLabels_alignItems : looseLabels (alignItems xs) ⊆ looseLabels xs := by
  suffices h : ∀ z ∈ alignItems xs, z.name = "" → z.label ∈ looseLabels xs by
    intro l hl
    obtain ⟨z, hz, hn, rfl⟩ := mem_looseLabels.1 hl
    exact h z hz hn
  have hmono {a : List Item} {b : List Item} (hab : a ⊆ b) {l : String} (hl : l ∈ looseLabels a) : l ∈ looseLabels b := by
    obtain ⟨z, hz, hn⟩ := mem_looseLabels.1 hl
    exact mem_looseLabels.2 ⟨z, hab hz, hn⟩
  induction xs using alignItems_induction with
  | nil => simp [alignItems]
  | named x xs hx ih =>
    rw [alignItems_cons hx]
    exact forall_mem_cons.2 ⟨fun h => absurd h hx, fun z hz hn => hmono (subset_cons_self x xs) (ih z hz hn)⟩
  | last x hx =>
    rw [alignItems_last hx]
    split
    · simp
    · simp
  | skip x y xs hx ih =>
    rw [alignItems_skip hx]
    refine forall_mem_cons.2 ⟨fun hn => ?_, fun z hz hn => hmono (fun _ h => by simp [h]) (ih z hz hn)⟩
    rw [inherit] at hn ⊢
    split
    · exact mem_looseLabels.2 ⟨x, by simp, hx, rfl⟩
    · rename_i hy
      rw [if_neg hy] at hn
      exact mem_looseLabels.2 ⟨y, by simp, hn, rfl⟩

/-- **Labels that stand alone are never there twice** if they stand on no other line, wherever an alignment moves them. -/
theorem distinct_alignItems (file : String) (ys : List Item) {lines : List Item} (hloose : looseLabels xs ⊆ looseLabels lines)
    (h : ∀ l ∈ looseLabels lines, (labelsOf (xs ++ ys)).count l ≤ 1) :
    distinct file [] (labelsOf (alignItems xs ++ ys)) = distinct file [] (labelsOf (xs ++ ys)) := by
  have hp : ∀ l, (decide (l ∉ looseLabels lines)) = false → l ∈ looseLabels lines := by simp
  have hsub : (labelsOf (alignItems xs ++ ys)).Sublist (labelsOf (xs ++ ys)) := by
    rw [labelsOf_append, labelsOf_append]
    exact (labelsOf_alignItems xs).append_right _
  have hfilter := labelsOf_alignItems_filter (p := fun l => decide (l ∉ looseLabels lines))
    fun l hl => by simpa using hloose hl
  rw [distinct_filter (p := fun l => decide (l ∉ looseLabels lines)), labelsOf_append, filter_append, hfilter,
    ← filter_append, ← labelsOf_append, ← distinct_filter]
  · exact fun l hl => h l (hp l hl)
  · exact fun l hl => Nat.le_trans (hsub.count_le l) (h l (hp l hl))

theorem align_eq_distinct {lines : List Item} (hloose : looseLabels xs ⊆ looseLabels lines)
    (h : ∀ l ∈ looseLabels lines, (labelsOf xs).count l ≤ 1) :
    align file xs = (distinct file [] (labelsOf xs)).map fun _ => alignItems xs := by
  have := distinct_alignItems file [] hloose (by simpa using h)
  rw [append_nil, append_nil] at this
  rw [align_eq, this]

end

/-! ## Passes and settling -/

variable {P : Item → Prop} {m : Int}

section
variable {cfg : Settings} {x : Item} {xs ys T : List Item} {L : List String}

theorem clearZeroWaits_cons (x : Item) (r : List Item) :
    clearZeroWaits (x :: r) = if x.name = "wait" ∧ x.operands = [] then .error .operandMissing else
      (clearZeroWaits r).map (cleared x :: ·) := by
  rw [clearZeroWaits, cleared]
  by_cases hw : x.name = "wait"
  · cases hops : x.operands with
    | nil => simp [hw]
    | cons op rest =>
      simp only [hw, if_true, true_and, head?_cons, Option.some.injEq, reduceCtorEq, if_false]
      cases clearZeroWaits r <;> rfl
  · simp only [hw, if_false, false_and]
    cases clearZeroWaits r <;> rfl

theorem clearZeroWaits_eq_ok (h : clearZeroWaits xs = .ok ys) : ys = xs.map cleared := by
  induction xs generalizing ys with
  | nil =>
    cases h
    rfl
  | cons x xs ih =>
    rw [clearZeroWaits_cons] at h
    split at h
    · cases h
    · obtain ⟨zs, hzs, rfl⟩ := map_eq_ok.1 h
      rw [ih hzs, map_cons]

theorem clearZeroWaits_settle (p : String) (xs : List Item) :
    clearZeroWaits (settle p xs) = (clearZeroWaits xs).map (settle p) := by
  induction xs generalizing p with
  | nil => rfl
  | cons x xs ih =>
    obtain ⟨hidle, hlabel, hself, -⟩ := cleared_spec x
    rw [clearZeroWaits_cons]
    cases hx : x.idle with
    | true =>
      have hops : ¬(x.name = "wait" ∧ x.operands = []) := by
        rintro ⟨hw, hnil⟩
        simp [Item.idle, hw, hnil] at hx
      rw [settle_idle hx, ih, if_neg hops]
      cases clearZeroWaits xs with
      | error => rfl
      | ok zs =>
        refine congrArg Except.ok ?_
        rw [settle_idle (hidle.trans hx), Item.labelAfter, Item.labelAfter, hlabel]
    | false =>
      have hrelabel : cleared { x with label := x.labelAfter p } = { x with label := x.labelAfter p } :=
        (cleared_spec { x with label := x.labelAfter p }).2.2.1 hx
      rw [settle_cons hx, clearZeroWaits_cons, hrelabel, ih]
      split
      · rfl
      · rw [hself hx]
        cases clearZeroWaits xs with
        | error => rfl
        | ok zs => exact congrArg Except.ok (settle_cons hx p).symm

theorem expandMove_relabel (x : Item) (l : String) :
    expandMove { x with label := l } = (expandMove x).map fun _ => moved { x with label := l } := by
  by_cases hm : x.name = "mov"
  · simp only [moved, expandMove, hm, if_true]
    split
    · rename_i reg imm rest hops
      cases imm with
      | number => rfl
      | word s =>
        simp only
        split
        · rfl
        · split <;> rfl
    · rfl
  · simp [moved, expandMove, hm, Except.map, Except.toOption]

theorem expandMove_eq_ok (h : expandMove x = .ok ys) : ys = moved x := by
  rw [moved, h]
  rfl

theorem expandMoves_settle (p : String) (xs : List Item) : expandMoves (settle p xs) = (expandMoves xs).map (settle p) := by
  induction xs generalizing p with
  | nil => rfl
  | cons x xs ih =>
    rw [expandMoves]
    cases hx : x.idle with
    | true =>
      have hmove : expandMove x = .ok [x] := if_neg fun hm => by simp [Item.idle, hm] at hx
      rw [settle_idle hx, ih, hmove]
      cases expandMoves xs with
      | error => rfl
      | ok zs => exact congrArg Except.ok (settle_idle hx p).symm
    | false =>
      obtain ⟨y, t, hy, ht, hlabel⟩ := inPlace_moved.block x hx
      rw [settle_cons hx, expandMoves, expandMove_relabel, ih]
      cases hmove : expandMove x with
      | error => rfl
      | ok as =>
        have has : as = { y with label := x.label } :: t := (expandMove_eq_ok hmove).trans (hlabel x.label)
        cases expandMoves xs with
        | error => rfl
        | ok zs =>
          refine congrArg Except.ok ?_
          rw [hlabel, has, cons_append, cons_append, settle_cons (x := { y with label := x.label }) hy,
            settle_block ht]
          rfl

/-- What a pass that works item by item makes of a program. -/
theorem pass_eq_flatMap {f : Item → Except AsmError (List Item)} (pass : List Item → Except AsmError (List Item))
    (hnil : pass [] = .ok []) (hcons : ∀ x r, pass (x :: r) = do
      let ys ← f x
      let zs ← pass r
      return ys ++ zs) (h : pass xs = .ok ys) : ys = xs.flatMap fun x => (f x).toOption.getD [x] := by
  induction xs generalizing ys with
  | nil =>
    cases hnil.symm.trans h
    rfl
  | cons x xs ih =>
    rw [hcons] at h
    obtain ⟨as, has, h⟩ := bind_eq_ok.1 h
    obtain ⟨zs, hzs, h⟩ := bind_eq_ok.1 h
    cases h
    rw [flatMap_cons, has, ih hzs]
    rfl

theorem expandMoves_eq_ok (h : expandMoves xs = .ok ys) : ys = xs.flatMap moved :=
  pass_eq_flatMap expandMoves rfl (fun _ _ => rfl) h

theorem forall_padded (hlabel : ∀ x l, P x → P { x with label := l })
    (hnop : ∀ l, P ⟨l, "nop", []⟩) (h : ∀ x ∈ xs, P x) : ∀ x ∈ padded cfg xs, P x := by
  have hlabelled : ∀ x ∈ (if cfg.nopAfterLabel then nopsAfterLabels xs else xs), P x := by
    split
    · intro y hy
      obtain ⟨x, hx, hy⟩ := mem_flatMap.1 hy
      split at hy
      · exact mem_singleton.1 hy ▸ h x hx
      · rcases mem_cons.1 hy with rfl | hy
        · exact hnop x.label
        · exact mem_singleton.1 hy ▸ hlabel x "" (h x hx)
    · exact h
  rw [padded]
  split
  · exact forall_nopsAfterBranches (hnop "") hlabelled
  · exact hlabelled

theorem labelsOf_padded (cfg : Settings) (xs : List Item) : labelsOf (padded cfg xs) = labelsOf xs := by
  have hlabels : labelsOf (nopsAfterLabels xs) = labelsOf xs := by
    induction xs with
    | nil => rfl
    | cons x xs ih =>
      rw [nopsAfterLabels, flatMap_cons, labelsOf_append, labelsOf_cons x xs, ← ih]
      congr 1
      split
      · rfl
      · rw [labelsOf_cons, labelsOf_unlabelled [{ x with label := "" }] (by simp), append_nil]
        rfl
  have hbranches (zs : List Item) : labelsOf (nopsAfterBranches cfg.branchNops zs) = labelsOf zs :=
    (inPlace_nopsAfterBranches _).labelsOf zs
  rw [padded]
  cases cfg.nopAfterLabel <;> cases cfg.nopAfterBranch
  · rfl
  · exact hbranches xs
  · exact hlabels
  · exact (hbranches _).trans hlabels

theorem not_idle_padded (h : ∀ x ∈ xs, x.idle = false) : ∀ x ∈ padded cfg xs, x.idle = false :=
  forall_padded (fun _ _ hx => hx) (fun _ => rfl) h

theorem blank_cleared (xs : List Item) : ∀ x ∈ xs.map cleared, x.idle = true → x.name = "" := by
  intro x hx
  obtain ⟨y, -, rfl⟩ := mem_map.1 hx
  exact (cleared_spec y).2.2.2

theorem expand_eq_padded (cfg : Settings) (items : List Item) : expand cfg items = (do
    let looped ← align cfg.file (items ++ endLoop)
    let cleared ← align cfg.file (← clearZeroWaits looped)
    let aligned ← align cfg.file cleared
    let out ← align cfg.file (padded cfg aligned)
    let moved ← align cfg.file (← expandMoves out)
    let split ← splitWaits cfg.maxWait moved
    mergeWaits cfg.maxWait split) := rfl

/-- The stages of the passes. -/
theorem expand_stages {items final : List Item} (h : expand cfg items = .ok final) :
    ∃ empty loads split, clearZeroWaits (alignItems (items ++ endLoop)) = .ok empty ∧
      expandMoves (alignItems (padded cfg (alignItems (alignItems empty)))) = .ok loads ∧
      splitWaits cfg.maxWait (alignItems loads) = .ok split ∧ mergeWaits cfg.maxWait split = .ok final := by
  rw [expand_eq_padded] at h
  obtain ⟨looped, hlooped, h⟩ := bind_eq_ok.1 h
  obtain ⟨empty, hempty, h⟩ := bind_eq_ok.1 h
  obtain ⟨cleared, hcleared, h⟩ := bind_eq_ok.1 h
  obtain ⟨aligned, haligned, h⟩ := bind_eq_ok.1 h
  obtain ⟨out, hout, h⟩ := bind_eq_ok.1 h
  obtain ⟨loads, hloads, h⟩ := bind_eq_ok.1 h
  obtain ⟨moved, hmoved, h⟩ := bind_eq_ok.1 h
  obtain ⟨split, hsplit, hmerge⟩ := bind_eq_ok.1 h
  obtain ⟨rfl, -⟩ := align_eq_ok.1 hlooped
  obtain ⟨rfl, -⟩ := align_eq_ok.1 hcleared
  obtain ⟨rfl, -⟩ := align_eq_ok.1 haligned
  obtain ⟨rfl, -⟩ := align_eq_ok.1 hout
  obtain ⟨rfl, -⟩ := align_eq_ok.1 hmoved
  exact ⟨empty, loads, split, hempty, hloads, hsplit, hmerge⟩

/-- **The passes work on the settled program**, where no run of idle lines is too long and no label is there twice. -/
theorem expand_settled {items : List Item} (hL : L.Nodup)
    (hstage : Stage T L (if cfg.nopAfterLabel then 3 else 15) (items ++ endLoop)) :
    expand cfg items = clearZeroWaits T >>= emitItems cfg := by
  have hself : Stage (padded cfg T) L 3 (padded cfg T) := by
    refine .of_settled (not_idle_padded hstage.not_idle) (padded_ne_nil hstage.ne_nil) ?_
    rw [labelsOf_padded, ← hstage.settles, ← keptLabels_eq]
    exact (keptLabels_sublist _).trans hstage.labels
  have hlooped := hstage.align
  rw [expand_eq_padded, align_ok (hstage.labels.nodup hL)]
  generalize alignItems (items ++ endLoop) = looped at hlooped ⊢
  have hclear := clearZeroWaits_settle "" looped
  rw [hlooped.settles] at hclear
  simp only [hclear, bind, Except.bind]
  cases hzero : clearZeroWaits looped with
  | error => rfl
  | ok zs =>
    obtain rfl := clearZeroWaits_eq_ok hzero
    have hcleared := hlooped.clear
    have hb₀ := blank_cleared looped
    have hb₁ := blank_alignItems hb₀
    simp only [Except.map, hcleared.settles, align_ok (hcleared.labels.nodup hL), align_ok (hcleared.align.labels.nodup hL)]
    -- each of the last four alignments halves the runs of idle lines
    rw [show (if cfg.nopAfterLabel then 3 else 15) = 2 * (2 * (if cfg.nopAfterLabel then 0 else 3) + 1) + 1 by
      split <;> rfl] at hcleared
    obtain ⟨hpadded, hb₂⟩ := Stage.padded ((hcleared.halve hb₀).halve hb₁) (blank_alignItems hb₁) hself
    rw [align_ok (hpadded.labels.nodup hL)]
    have hone : Stage (padded cfg T) L 1 _ := hpadded.halve (n := 1) hb₂
    have hb₃ := blank_alignItems hb₂
    generalize alignItems (padded cfg _) = out at hone hb₃ ⊢
    have hmove := expandMoves_settle "" out
    rw [hone.settles] at hmove
    simp only [emitItems, hmove, bind, Except.bind]
    cases hmoves : expandMoves out with
    | error => rfl
    | ok ms =>
      obtain rfl := expandMoves_eq_ok hmoves
      have hmoved := hone.inPlace inPlace_moved
      have hdone := (hmoved.halve (n := 0) (inPlace_moved.blank hb₃)).eq_of_zero
      simp only [Except.map, align_ok (hmoved.labels.nodup hL), hdone, hmoved.settles]

/-! ## What the passes leave -/

theorem forall_splitWaits (hwait : ∀ l n rest, P (waitItem l n rest))
    (h : splitWaits m xs = .ok ys) (hx : ∀ x ∈ xs, P x) : ∀ y ∈ ys, P y := by
  induction xs generalizing ys with
  | nil =>
    cases h
    simp
  | cons x xs ih =>
    rw [forall_mem_cons] at hx
    obtain ⟨as, has, h⟩ := bind_eq_ok.1 h
    obtain ⟨zs, hzs, h⟩ := bind_eq_ok.1 h
    cases h
    refine forall_mem_append.2 ⟨?_, ih hzs hx.2⟩
    have hsame : ∀ y ∈ [x], P y := forall_mem_singleton.2 hx.1
    rw [splitWait] at has
    split at has
    · split at has
      · cases has
      · split at has
        · cases has
        · split at has
          · cases has
            refine forall_mem_cons.2 ⟨hwait _ _ _, fun y hy => ?_⟩
            rcases mem_append.1 hy with hy | hy
            · exact eq_of_mem_replicate hy ▸ hwait _ _ _
            · exact mem_singleton.1 hy ▸ hwait _ _ _
          · cases has
            exact hsame
    · cases has
      exact hsame

theorem forall_mergeFrom (hwait : ∀ l n rest, P (waitItem l n rest))
    (h : mergeFrom m x xs = .ok ys) (hx : P x) (hxs : ∀ x ∈ xs, P x) : ∀ y ∈ ys, P y := by
  induction xs generalizing x ys with
  | nil =>
    cases h
    simpa using hx
  | cons y xs ih =>
    rw [forall_mem_cons] at hxs
    rcases mergeFrom_inv h with ⟨zs, hzs, rfl⟩ | ⟨-, n, h⟩
    · exact forall_mem_cons.2 ⟨hx, ih hzs hxs.1 hxs.2⟩
    · exact ih h (hwait _ _ _) hxs.2

theorem forall_mergeWaits (hwait : ∀ l n rest, P (waitItem l n rest))
    (h : mergeWaits m xs = .ok ys) (hx : ∀ x ∈ xs, P x) : ∀ y ∈ ys, P y := by
  cases xs with
  | nil =>
    cases h
    simp
  | cons x xs =>
    rw [forall_mem_cons] at hx
    exact forall_mergeFrom hwait h hx.1 hx.2

theorem emitItems_named (hT : ∀ x ∈ T, x.idle = false) (h : emitItems cfg T = .ok ys) : ∀ y ∈ ys, y.name ≠ "" := by
  obtain ⟨ms, hms, h⟩ := bind_eq_ok.1 h
  obtain ⟨zs, hzs, h⟩ := bind_eq_ok.1 h
  have hwait (l : String) (n : Int) (rest : List Operand) : (waitItem l n rest).name ≠ "" := by simp [waitItem]
  refine forall_mergeWaits hwait h (forall_splitWaits hwait hzs (expandMoves_named hms fun x hx => ?_))
  exact name_of_not_idle (not_idle_padded hT x hx)

/-! ## From the source to words -/

/-- The lines of a source, cut in front of the first line or behind an instruction. -/
structure Ending (src front tail : List Item) : Prop where
  lines : src = front ++ tail
  front : ∀ z, front.getLast? = some z → z.name ≠ ""

theorem alignItems_append_tail {front : List Item} (hfront : ∀ z, front.getLast? = some z → z.name ≠ "")
    (tail : List Item) :
    alignItems (front ++ tail) = alignItems front ++ alignItems tail := by
  rcases eq_nil_or_concat front with rfl | ⟨f, z, rfl⟩
  · rfl
  · rw [concat_eq_append] at hfront ⊢
    have hz := hfront z (by simp)
    rw [append_assoc, singleton_append, alignItems_append hz]

theorem settle_front {front : List Item} (hfront : ∀ z, front.getLast? = some z → z.name ≠ "") (ys : List Item) :
    settle "" (alignItems front ++ ys) = settle "" (front ++ ys) := by
  rcases eq_nil_or_concat front with rfl | ⟨f, z, rfl⟩
  · rfl
  · rw [concat_eq_append] at hfront ⊢
    rw [settle_alignItems (hfront z (by simp)), append_assoc]
    rfl

variable {src front tail : List Item}

theorem Ending.stage {n : Nat} (h : Ending src front tail) (hruns : shortRuns n n src) :
    Stage (settle "" (front ++ (alignItems tail ++ endLoop))) (labelsOf (src ++ endLoop)) n (alignItems src ++ endLoop) :=
  .source (by rw [h.lines, alignItems_append_tail h.front, append_assoc, settle_front h.front]) hruns

/-- **What is read from a source**: the labels of its lines are checked, and the passes work on what it settles to. -/
theorem read_eq (cfg : Settings) (h : Ending src front tail) (hruns : shortRuns (if cfg.nopAfterLabel then 3 else 15)
      (if cfg.nopAfterLabel then 3 else 15) src)
    (hloose : ∀ l ∈ looseLabels src, (labelsOf (src ++ endLoop)).count l ≤ 1) :
    (align cfg.file src >>= expand cfg) = distinct cfg.file [] (labelsOf (src ++ endLoop)) >>= fun _ =>
      clearZeroWaits (settle "" (front ++ (alignItems tail ++ endLoop))) >>= emitItems cfg := by
  have hsource : (labelsOf src).Sublist (labelsOf (src ++ endLoop)) := by
    rw [labelsOf_append]
    exact sublist_append_left _ _
  have hlooped : looseLabels (alignItems src ++ endLoop) ⊆ looseLabels src := by
    intro l hl
    obtain ⟨x, hx, hn, rfl⟩ := mem_looseLabels.1 hl
    rcases mem_append.1 hx with hx | hx
    · exact looseLabels_alignItems (mem_looseLabels.2 ⟨x, hx, hn, rfl⟩)
    · exact absurd hn (name_of_not_idle (endLoop_not_idle x hx))
  have hstage := h.stage hruns
  have hcount := fun l hl => Nat.le_trans (hstage.labels.count_le l) (hloose l hl)
  have hchecked : align cfg.file (alignItems src ++ endLoop) =
      (distinct cfg.file [] (labelsOf (src ++ endLoop))).map fun _ => alignItems (alignItems src ++ endLoop) := by
    rw [align_eq_distinct hlooped hcount, distinct_alignItems _ _ (List.Subset.refl _) hloose]
  rw [align_eq_distinct (List.Subset.refl _) fun l hl => Nat.le_trans (hsource.count_le l) (hloose l hl), labelsOf_append,
    ← distinct_append, ← labelsOf_append]
  cases distinct cfg.file [] (labelsOf src) with
  | error => rfl
  | ok =>
    cases hall : distinct cfg.file [] (labelsOf (src ++ endLoop)) with
    | error e =>
      rw [hall] at hchecked
      simp only [Except.map, bind, Except.bind, expand, hchecked]
    | ok => exact expand_settled (distinct_eq_ok.1 hall).1 hstage

theorem assemble_eq (cfg : Settings) (text : String) : assemble cfg text =
    align cfg.file (sourceItems text) >>= expand cfg >>= fun final => do
      let labels ← labelTable cfg.file final
      let resolved ← resolveBranches labels final
      let words ← resolved.mapM (wordOf cfg)
      return ⟨words, labels⟩ := by
  rw [assemble, parse, bind_assoc]
  rfl

/-! ## Lines that are put in -/

/-- A list with an element put in at any places. -/
inductive Inserted {α : Type} (z : α) : List α → List α → Prop
  | nil : Inserted z [] []
  | keep (x : α) {xs ys : List α} (h : Inserted z xs ys) : Inserted z (x :: xs) (x :: ys)
  | add {xs ys : List α} (h : Inserted z xs ys) : Inserted z xs (z :: ys)

/-- A line that waits for no time. -/
def zeroWait : Item := ⟨"", "wait", [.word "0"]⟩

namespace Inserted

theorem append {zs : List Item} (h : Inserted zeroWait xs ys) : Inserted zeroWait (xs ++ zs) (ys ++ zs) := by
  induction h with
  | nil =>
    induction zs with
    | nil => exact .nil
    | cons z zs ih => exact .keep z ih
  | keep x _ ih => exact .keep x ih
  | add _ ih => exact .add ih

theorem settle (h : Inserted zeroWait xs ys) (p : String) : settle p ys = settle p xs := by
  induction h generalizing p with
  | nil => rfl
  | keep x _ ih => simp only [Qumis.settle, ih]
  | add _ ih =>
    rw [settle_idle (x := zeroWait) rfl, ih]
    rfl

theorem shortRuns {n k : Nat} (h : Inserted zeroWait xs ys) (hruns : shortRuns n k ys) : shortRuns n k xs := by
  induction h generalizing k with
  | nil => exact trivial
  | keep x _ ih =>
    rw [Qumis.shortRuns] at hruns ⊢
    split
    · rename_i hx
      rw [if_pos hx] at hruns
      exact ⟨hruns.1, ih hruns.2⟩
    · rename_i hx
      rw [if_neg hx] at hruns
      exact ih hruns
  | add _ ih =>
    rw [Qumis.shortRuns, if_pos (show zeroWait.idle = true from rfl)] at hruns
    exact ih (hruns.2.mono (by omega))

theorem labelsOf (h : Inserted zeroWait xs ys) : labelsOf ys = labelsOf xs := by
  induction h with
  | nil => rfl
  | keep x _ ih => rw [labelsOf_cons, ih, ← labelsOf_cons]
  | add _ ih => rw [labelsOf_cons, ih, labelsOf_unlabelled [zeroWait] (by simp [zeroWait]), nil_append]

theorem looseLabels (h : Inserted zeroWait xs ys) : looseLabels ys = looseLabels xs := by
  induction h with
  | nil => rfl
  | keep x _ ih =>
    simp only [Qumis.looseLabels, filter_cons] at ih ⊢
    split
    · rw [map_cons, map_cons, ih]
    · exact ih
  | add _ ih => exact ih

theorem getLast? (h : Inserted zeroWait xs ys) {w : Item} (hw : ys.getLast? = some w) :
    w = zeroWait ∨ xs.getLast? = some w := by
  rcases eq_nil_or_concat ys with rfl | ⟨front, z, rfl⟩
  · cases hw
  rw [concat_eq_append, getLast?_concat, Option.some.injEq] at hw
  subst hw
  induction front generalizing xs with
  | nil =>
    cases h with
    | keep _ h =>
      cases h
      exact .inr rfl
    | add => exact .inl rfl
  | cons y front ih =>
    cases h with
    | keep _ h =>
      refine (ih h).imp_right fun hlast => ?_
      rw [getLast?_cons, hlast]
      rfl
    | add h => exact ih h

end Inserted

theorem Ending.inserted {front' : List Item} (h : Ending src front tail) (hins : Inserted zeroWait front front') :
    Ending (front' ++ tail) front' tail where
  lines := rfl
  front w hw := by
    rcases hins.getLast? hw with rfl | hw
    · simp [zeroWait]
    · exact h.front w hw

end

/-- **Waits for no time vanish.** A program with lines `wait 0` anywhere up to the place behind its last instruction is
assembled as it is without them, to the same words and labels or with the same error, and no line without an instruction is
left: as long as no run of idle lines is longer than fifteen, or three where labels get `nop`s, and a label that stands alone
stands on no other line. -/
theorem assemble_inserted {cfg : Settings} {text text' : String} {front front' tail : List Item}
    (h : Ending (sourceItems text) front tail) (hins : Inserted zeroWait front front')
    (htext' : sourceItems text' = front' ++ tail)
    (hruns : ∀ run, run <:+: sourceItems text' → (∀ x ∈ run, x.idle = true) →
      run.length ≤ if cfg.nopAfterLabel then 3 else 15)
    (hloose : ∀ x ∈ sourceItems text, x.name = "" → x.label ≠ "" →
      (labelsOf (sourceItems text ++ endLoop)).count x.label = 1) :
    assemble cfg text' = assemble cfg text ∧
      ∀ items final, parse cfg (validLines text') = .ok items → expand cfg items = .ok final →
        ∀ x ∈ final, x.name ≠ "" := by
  have hlines : Inserted zeroWait (sourceItems text) (sourceItems text') := by
    rw [h.lines, htext']
    exact hins.append
  have hend' : Ending (sourceItems text') front' tail := htext' ▸ h.inserted hins
  have hshort' := shortRuns_within (fun run hrun => hruns run hrun.isInfix) hruns
  have honce : ∀ l ∈ looseLabels (sourceItems text), (labelsOf (sourceItems text ++ endLoop)).count l ≤ 1 := by
    intro l hl
    obtain ⟨x, hx, hn, rfl⟩ := mem_looseLabels.1 hl
    by_cases hlabel : x.label = ""
    · rw [hlabel, count_eq_zero_of_not_mem (by simp [labelsOf])]
      exact Nat.zero_le 1
    · exact Nat.le_of_eq (hloose x hx hn hlabel)
  have hall : labelsOf (sourceItems text' ++ endLoop) = labelsOf (sourceItems text ++ endLoop) := hlines.append.labelsOf
  have hread' := read_eq cfg hend' hshort' (by rwa [hlines.looseLabels, hall])
  rw [hall, hins.append.settle] at hread'
  refine ⟨?_, fun items final hitems hfinal => ?_⟩
  · rw [assemble_eq, assemble_eq, hread', read_eq cfg h (hlines.shortRuns hshort') honce]
  · have hok : (align cfg.file (sourceItems text') >>= expand cfg) = .ok final := bind_eq_ok.2 ⟨items, hitems, hfinal⟩
    rw [hread'] at hok
    obtain ⟨-, -, hok⟩ := bind_eq_ok.1 hok
    obtain ⟨T, hT, hok⟩ := bind_eq_ok.1 hok
    have hidle := (hend'.stage hshort').not_idle
    rw [hins.append.settle] at hidle
    refine emitItems_named (fun x hx => ?_) hok
    obtain ⟨y, hy, rfl⟩ := mem_map.1 (clearZeroWaits_eq_ok hT ▸ hx)
    rw [(cleared_spec y).1]
    exact hidle y hy

/-- Waits in front of a program, behind its last instruction and in front of the label at its end. -/
theorem assemble_inserted_spread :
    assemble {} "wait 0\na: nop\nwait 0\nWAIT 0 # none\nbeq r0, r0, a\nwait 0\nb:" =
      assemble {} "a: nop\nbeq r0, r0, a\nb:" := by
  have hsource : sourceItems "a: nop\nbeq r0, r0, a\nb:" =
      [⟨"a", "nop", []⟩, ⟨"", "beq", [.word "r0", .word "r0", .word "a"]⟩] ++ [⟨"b", "", []⟩] := by decide +kernel
  have hsource' : sourceItems "wait 0\na: nop\nwait 0\nWAIT 0 # none\nbeq r0, r0, a\nwait 0\nb:" =
      [zeroWait, ⟨"a", "nop", []⟩, zeroWait, zeroWait, ⟨"", "beq", [.word "r0", .word "r0", .word "a"]⟩, zeroWait] ++
        [⟨"b", "", []⟩] := by decide +kernel
  refine (assemble_inserted ⟨hsource, by simp⟩ (.add (.keep _ (.add (.add (.keep _ (.add .nil)))))) hsource'
    (fun run hrun _ => ?_) ?_).1
  · rw [hsource'] at hrun
    exact Nat.le_trans hrun.length_le (by decide)
  · rw [hsource]
    simp [labelsOf, endLoop]

/-- Where waits for no time are seen: sixteen in a row are too many, one behind a label at the end takes the label away, and
one between two lines with the same label makes it appear twice. -/
theorem assemble_zeroWaits_seen :
    (assemble {} (String.join (List.replicate 15 "wait 0\n") ++ "nop\n")).toOption.map (·.labels) =
        some [("end_of_file_loop", 1)] ∧
      (assemble {} (String.join (List.replicate 16 "wait 0\n") ++ "nop\n")).toOption.map (·.labels) = none ∧
      (assemble {} "nop\na:\n").toOption.map (·.labels) = some [("a", 1), ("end_of_file_loop", 2)] ∧
      (assemble {} "nop\na:\nwait 0\n").toOption.map (·.labels) = some [("end_of_file_loop", 1)] ∧
      (assemble {} "a:\na: nop\n").toOption.map (·.labels) = some [("a", 0), ("end_of_file_loop", 1)] ∧
      (assemble {} "a:\nwait 0\na: nop\n").toOption.map (·.labels) = none :=
  ⟨by decide +kernel, by decide +kernel, by decide +kernel, by decide +kernel, by decide +kernel, by decide +kernel⟩

end QubitLab.Qumis
