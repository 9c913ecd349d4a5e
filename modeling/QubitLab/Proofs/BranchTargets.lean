import Mathlib.Data.Nat.Digits.Defs
import QubitLab.Proofs.SoundAssembly

/-!
# Targets of branches

A branch word holds the distance to its label in its last 15 bits. `branchTarget` is where a word at an address goes when
these bits are read as a number with a sign. In an assembled program each branch has the address of its label in these
bits modulo `2 ^ 15`, so it goes to its label if and only if the distance fits (`assemble_branchTarget`), and always in
programs of at most `2 ^ 14` words. The assembler does not look at the distance: `assemble_farBranch` is a program whose
branch goes elsewhere.
-/

namespace QubitLab.Qumis

/-- Where a branch at an address goes: its last 15 bits count, with a sign, from the next address on. -/
def branchTarget (i : Nat) (word : Int) : Int := i + 1 + Int.bmod word (2 ^ 15)

/-! ## Numbers in binary digits -/

theorem maskNumber_append (cs ds : List Char) :
    maskNumber (cs ++ ds) = maskNumber cs * 2 ^ ds.length + maskNumber ds := by
  have hfold (n : Int) : ds.foldl (fun n c => 2 * n + if c == '1' then 1 else 0) n = n * 2 ^ ds.length + maskNumber ds := by
    rw [maskNumber]
    induction ds generalizing n with
    | nil => simp
    | cons d ds ih =>
      rw [List.foldl_cons, ih, List.foldl_cons, ih (2 * 0 + _), List.length_cons, pow_succ]
      ring
  rw [maskNumber, List.foldl_append]
  exact hfold _

theorem maskNumber_toDigits (n : Nat) : maskNumber (Nat.toDigits 2 n) = n := by
  induction n using Nat.strongRecOn with
  | ind n ih =>
    by_cases hn : n < 2
    · rw [Nat.toDigits_of_lt_base hn]
      match n, hn with
      | 0, _ => rfl
      | 1, _ => rfl
    · rw [Nat.toDigits_of_base_le (by decide) (by omega), maskNumber_append, ih (n / 2) (by omega)]
      have hdigit : maskNumber [Nat.digitChar (n % 2)] = (n % 2 : Nat) := by
        rcases Nat.mod_two_eq_zero_or_one n with h | h <;> rw [h] <;> rfl
      rw [hdigit, List.length_singleton]
      omega

theorem maskNumber_zeroPad (width : Nat) (ds : List Char) : maskNumber (Decimal.zeroPad width ds) = maskNumber ds := by
  have hzeros (k : Nat) : maskNumber (List.replicate k '0') = 0 := by
    induction k with
    | zero => rfl
    | succ k ih =>
      rw [List.replicate_succ', maskNumber_append, ih]
      rfl
  rw [Decimal.zeroPad, maskNumber_append, hzeros, Int.zero_mul, Int.zero_add]

theorem twosComplement_spec {width : Nat} (hw : 0 < width) (n : Int) :
    (twosComplement width n).length = width ∧ maskNumber (twosComplement width n) = n % 2 ^ width := by
  have hpos : (0 : Int) < 2 ^ width := Int.pow_pos (by decide)
  have hmod : 0 ≤ n % 2 ^ width := Int.emod_nonneg n (by omega)
  have hcast : ((Nat.pow 2 width : Nat) : Int) = 2 ^ width := by simp
  rw [twosComplement, binaryDigits, hcast, if_neg (by omega)]
  constructor
  · have hlt : (n % 2 ^ width).natAbs < 2 ^ width := by
      have hlt := Int.emod_lt_of_pos n hpos
      zify
      rwa [abs_of_nonneg hmod]
    have := Nat.toDigits_length 2 _ width hw hlt
    rw [Decimal.zeroPad, List.length_append, List.length_replicate]
    omega
  · rw [maskNumber_zeroPad, maskNumber_toDigits]
    omega

/-! ## Words of branches -/

variable {x : Item} {i : Nat}

section
variable {cfg : Settings} {table : LabelTable}

theorem resolveBranch_inv {y : Item} (hx : x.isBranch = true) (h : resolveBranch table i x = .ok y) :
    ∃ a b target rest addr, x.operands = a :: b :: target :: rest ∧ table.lookup target.text = some addr ∧
      y = { x with operands := a :: b :: .number ((addr : Int) - (i + 1)) :: rest } := by
  rw [resolveBranch, hx] at h
  simp only [Bool.not_true, Bool.false_eq_true, if_false] at h
  split at h
  · rename_i a b target rest hops
    split at h
    · rename_i addr hlook
      cases h
      exact ⟨a, b, target, rest, addr, hops, hlook, rfl⟩
    · cases h
  · cases h

theorem wordOf_branch (hx : x.isBranch = true) {a b : Operand} {d w : Int} {rest : List Operand}
    (hops : x.operands = a :: b :: .number d :: rest) (h : wordOf cfg x = .ok w) :
    rest = [] ∧ w % 2 ^ 15 = d % 2 ^ 15 := by
  obtain ⟨ds, hds, h⟩ := bind_eq_ok.1 h
  obtain rfl : rest = [] := by
    by_contra hne
    obtain ⟨c, r, rfl⟩ := List.exists_cons_of_ne_nil hne
    rw [hops] at hds
    rcases isBranch_name hx with hname | hname <;>
      · rw [hname] at hds
        cases hds
  obtain ⟨front, hfront, rfl⟩ := encode_branch hx hops hds
  obtain ⟨hlength, hvalue⟩ := twosComplement_spec (show 0 < 15 by decide) d
  have hne : front ++ twosComplement 15 d ≠ [] := by
    intro hnil
    rw [(List.append_eq_nil_iff.1 hnil).2] at hlength
    cases hlength
  rw [readInt?_binary hne (hfront.append (twosComplement_binary 15 d)), maskNumber_append, hlength, hvalue] at h
  cases h
  refine ⟨rfl, ?_⟩
  rw [Int.add_comm, Int.add_mul_emod_self_right, Int.emod_emod_of_dvd _ (Int.dvd_refl _)]

theorem resolveFrom_getElem? {xs ys : List Item} (h : resolveFrom table i xs = .ok ys) :
    ys.length = xs.length ∧ ∀ (j : Nat) x, xs[j]? = some x → ∃ y, ys[j]? = some y ∧ resolveBranch table (i + j) x = .ok y := by
  induction xs generalizing i ys with
  | nil =>
    cases h
    exact ⟨rfl, by simp⟩
  | cons x xs ih =>
    obtain ⟨y, hy, h⟩ := bind_eq_ok.1 h
    obtain ⟨ys', hys, h⟩ := bind_eq_ok.1 h
    cases h
    obtain ⟨hlength, hitem⟩ := ih hys
    refine ⟨by simp [hlength], fun j z hz => ?_⟩
    cases j with
    | zero =>
      obtain rfl := Option.some.inj hz
      exact ⟨y, rfl, hy⟩
    | succ j =>
      obtain ⟨y', hy', hres⟩ := hitem j z hz
      exact ⟨y', hy', by rwa [Nat.add_right_comm] at hres⟩

theorem words_getElem? {ys : List Item} {words : List Int} (h : ys.mapM (wordOf cfg) = .ok words) :
    words.length = ys.length ∧ ∀ (j : Nat) y, ys[j]? = some y → ∃ w, words[j]? = some w ∧ wordOf cfg y = .ok w := by
  replace h := mapM_eq_ok.1 h
  refine ⟨h.length_eq.symm, fun j y hy => ?_⟩
  obtain ⟨hj, rfl⟩ := List.getElem?_eq_some_iff.1 hy
  have hj' : j < words.length := h.length_eq ▸ hj
  exact ⟨words[j], List.getElem?_eq_getElem hj', h.get hj hj'⟩

/-! ## Assembled programs -/

/-- The stages of an assembly: the words are those of the expanded items, the labels their addresses. -/
theorem assemble_stages {text : String} {image : Image} (h : assemble cfg text = .ok image) :
    ∃ items final resolved, parse cfg (validLines text) = .ok items ∧ expand cfg items = .ok final ∧
      (labelsOf final).Nodup ∧ image.labels = addresses 0 final ∧ resolveBranches image.labels final = .ok resolved ∧
      resolved.mapM (wordOf cfg) = .ok image.words := by
  obtain ⟨items, hitems, h⟩ := bind_eq_ok.1 h
  obtain ⟨final, hfinal, h⟩ := bind_eq_ok.1 h
  obtain ⟨labels, hlabels, h⟩ := bind_eq_ok.1 h
  obtain ⟨resolved, hresolved, h⟩ := bind_eq_ok.1 h
  obtain ⟨words, hwords, h⟩ := bind_eq_ok.1 h
  cases h
  obtain ⟨rfl, hnodup⟩ := labelTable_eq_ok.1 hlabels
  exact ⟨items, final, resolved, hitems, hfinal, hnodup, rfl, hresolved, hwords⟩

/-- **A branch holds the distance to its label** in its last bits. -/
theorem branch_at {final resolved : List Item} {words : List Int} (hresolved : resolveBranches table final = .ok resolved)
    (hwords : resolved.mapM (wordOf cfg) = .ok words) (hi : final[i]? = some x)
    (hx : x.isBranch = true) :
    ∃ a b target addr w, x.operands = [a, b, target] ∧ table.lookup target.text = some addr ∧ words[i]? = some w ∧
      w % 2 ^ 15 = ((addr : Int) - (i + 1)) % 2 ^ 15 := by
  obtain ⟨y, hy, hres⟩ := (resolveFrom_getElem? hresolved).2 i x hi
  rw [Nat.zero_add] at hres
  obtain ⟨a, b, target, rest, addr, hops, hlook, rfl⟩ := resolveBranch_inv hx hres
  obtain ⟨w, hw, hword⟩ := (words_getElem? hwords).2 i _ hy
  obtain ⟨rfl, hbits⟩ := wordOf_branch (x := { x with operands := a :: b :: .number ((addr : Int) - (i + 1)) :: rest })
    hx rfl hword
  exact ⟨a, b, target, addr, w, hops, hlook, hw, hbits⟩

/-- A word with the bits of an offset goes there if and only if the offset fits. -/
theorem branchTarget_eq_iff {w addr : Int} (h : w % 2 ^ 15 = (addr - (i + 1)) % 2 ^ 15) :
    branchTarget i w = addr ↔ -2 ^ 14 ≤ addr - (i + 1) ∧ addr - (i + 1) < 2 ^ 14 := by
  simp only [branchTarget, Int.bmod] at h ⊢
  norm_num at h ⊢
  split <;> omega

/-- **Branches go to their labels if and only if the distance fits in 15 bits**: in an assembled program each branch has
a target that is the label of exactly one item, the address of this item is in the table, and the branch goes there if
and only if it is at most `2 ^ 14` behind or less than `2 ^ 14` ahead of the next address. -/
theorem assemble_branchTarget {text : String} {image : Image} (h : assemble cfg text = .ok image) :
    ∃ items final, parse cfg (validLines text) = .ok items ∧ expand cfg items = .ok final ∧
      image.words.length = final.length ∧
      ∀ i x, final[i]? = some x → x.isBranch = true → ∃ a b target addr word, x.operands = [a, b, target] ∧
        image.labels.lookup target.text = some addr ∧
        (∀ j, (∃ y, final[j]? = some y ∧ y.label = target.text) ↔ j = addr) ∧ image.words[i]? = some word ∧
        (branchTarget i word = addr ↔ -2 ^ 14 ≤ (addr : Int) - (i + 1) ∧ (addr : Int) - (i + 1) < 2 ^ 14) ∧
        (final.length ≤ 2 ^ 14 → branchTarget i word = addr) := by
  obtain ⟨items, final, resolved, hitems, hfinal, hnodup, hlabels, hresolved, hwords⟩ := assemble_stages h
  have hlength : image.words.length = final.length :=
    (words_getElem? hwords).1.trans (resolveFrom_getElem? hresolved).1
  refine ⟨items, final, hitems, hfinal, hlength, fun i x hi hx => ?_⟩
  obtain ⟨a, b, target, addr, w, hops, hlook, hw, hbits⟩ := branch_at hresolved hwords hi hx
  have hfits := branchTarget_eq_iff hbits
  have hlook' := hlook
  rw [hlabels, lookup_addresses hnodup] at hlook'
  obtain ⟨hne, y, hy, hlabel⟩ := hlook'
  have hfound (j : Nat) : (∃ y, final[j]? = some y ∧ y.label = target.text) ↔ j = addr := by
    constructor
    · intro hj
      have hsame := (lookup_addresses hnodup).2 ⟨hne, hj⟩
      rw [← hlabels, hlook] at hsame
      exact (Option.some.inj hsame).symm
    · rintro rfl
      exact ⟨y, hy, hlabel⟩
  have hi' := (List.getElem?_eq_some_iff.1 hi).1
  have haddr := (List.getElem?_eq_some_iff.1 hy).1
  exact ⟨a, b, target, addr, w, hops, hlook, hfound, hw, hfits, fun hshort => hfits.2 ⟨by omega, by omega⟩⟩

end

/-- The branch of a loop around a wait that becomes two. -/
theorem assemble_branchTarget_loop :
    ∃ image w, assemble {} "again: wait 40000\nbne r1, r0, again" = .ok image ∧
      image.labels.lookup "again" = some 0 ∧ image.words[2]? = some w ∧ branchTarget 2 w = 0 := by
  have hbranch : (parse {} (validLines "again: wait 40000\nbne r1, r0, again") >>= expand {}).toOption.map
      (fun final => (final.length, final[2]?)) =
        some (16, some ⟨"", "bne", [.word "r1", .word "r0", .word "again"]⟩) := by decide +kernel
  have htable : (assemble {} "again: wait 40000\nbne r1, r0, again").toOption.map (·.labels) =
      some [("again", 0), ("end_of_file_loop", 8)] := by decide +kernel
  obtain ⟨image, himage, hlabels⟩ := Option.map_eq_some_iff.1 htable
  obtain ⟨items, final, hitems, hfinal, -, hlands⟩ := assemble_branchTarget (toOption_eq_some.1 himage)
  rw [hitems] at hbranch
  simp only [bind, Except.bind, hfinal, Except.toOption, Option.map_some, Option.some.injEq, Prod.mk.injEq] at hbranch
  obtain ⟨a, b, target, addr, w, hops, hlook, -, hw, -, hshort⟩ := hlands 2 _ hbranch.2 rfl
  cases hops
  have haddr : image.labels.lookup "again" = some 0 := by
    rw [hlabels]
    rfl
  obtain rfl : 0 = addr := Option.some.inj (haddr.symm.trans hlook)
  exact ⟨image, w, toOption_eq_some.1 himage, haddr, hw, hshort (by omega)⟩

/-! ## A branch that is too far -/

/-- A wait of several times the longest wait becomes so many waits. -/
theorem splitWait_multiple {m : Int} (hm : 0 < m) (l : String) {s : String} {k : Nat}
    (hs : Decimal.readInt? 10 s.toList = some (m * (k + 2))) :
    splitWait m ⟨l, "wait", [.word s]⟩ = .ok (waitItem l m [] :: List.replicate (k + 1) (waitItem "" m [])) := by
  have hlong : 0 < m ∧ m * (k + 2) > m := by
    refine ⟨hm, ?_⟩
    nlinarith
  have hchunks : ((m * (k + 2) - m - 1) / m).toNat = k := by
    have : (m * (k + 2) - m - 1) / m = k := by
      rw [Int.ediv_eq_iff_of_pos hm]
      constructor <;> nlinarith
    omega
  simp only [splitWait, if_true, Operand.int?, hs, if_pos hlong, waitChunks, if_pos hm, hchunks]
  rw [show m * (k + 2) - m - k * m = m by ring, ← List.replicate_succ']

theorem mergeFrom_longest {m : Int} (hm : 0 ≤ m) {r out : List Item}
    (h : ∀ l, mergeFrom m (waitItem l m []) r = .ok (waitItem l m [] :: out)) (l : String) (k : Nat) :
    mergeFrom m (waitItem l m []) (List.replicate k (waitItem "" m []) ++ r) =
      .ok (waitItem l m [] :: List.replicate k (waitItem "" m []) ++ out) := by
  have hticks (l : String) : (waitItem l m []).ticks? = .ok m := by
    simp [Item.ticks?, waitItem, Operand.int?, Decimal.readInt?_intText]
  induction k generalizing l with
  | zero => exact h l
  | succ k ih =>
    rw [List.replicate_succ, List.cons_append, mergeFrom, if_pos ⟨rfl, rfl, rfl⟩, hticks, hticks]
    simp only [bind, Except.bind, if_neg (show ¬m + m < m by omega), ih]
    rfl

/-- A branch back over a long wait. -/
def waitAndBack (ticks : String) : List Item := [
  ⟨"a", "wait", [.word ticks]⟩,
  ⟨"", "beq", [.word "r0", .word "r0", .word "a"]⟩]

/-- What stands behind the wait. -/
def backEnd : List Item :=
  ⟨"", "beq", [.word "r0", .word "r0", .word "a"]⟩ :: List.replicate 5 ⟨"", "nop", []⟩ ++ endLoop ++
    List.replicate 5 ⟨"", "nop", []⟩

section
variable {ticks : String} {k : Nat} (hs : isNumberWord ticks = true)
  (hn : Decimal.readInt? 10 ticks.toList = some (32767 * ((k : Int) + 2)))
include hs hn

theorem waitAndBack_assemblable : Assemblable {} ["a"] (waitAndBack ticks) := by
  have hr : registerNumber "r0" = .ok 0 := by decide +kernel
  refine ⟨fun x hx => ?_, rfl⟩
  simp only [waitAndBack, List.mem_cons, List.not_mem_nil, or_false] at hx
  rcases hx with rfl | rfl
  · exact .wait "a" hs hn (by omega)
  · exact .branch rfl rfl hr hr (by simp)

theorem expand_waitAndBack : expand {} (waitAndBack ticks) =
    .ok (waitItem "a" 32767 [] :: List.replicate (k + 1) (waitItem "" 32767 []) ++ backEnd) := by
  have hend : splitWaits 32767 backEnd = .ok backEnd := by
    refine toOption_eq_some.1 ?_
    decide +kernel
  have hmerge (l : String) : mergeFrom 32767 (waitItem l 32767 []) backEnd = .ok (waitItem l 32767 [] :: backEnd) := by
    have hrest : mergeFrom 32767 ⟨"", "beq", [.word "r0", .word "r0", .word "a"]⟩ backEnd.tail = .ok backEnd := by
      refine toOption_eq_some.1 ?_
      decide +kernel
    rw [show backEnd = ⟨"", "beq", [.word "r0", .word "r0", .word "a"]⟩ :: backEnd.tail from rfl, mergeFrom,
      if_neg (by simp), hrest]
    rfl
  have hmoves : expandMoves (padded {} (waitAndBack ticks ++ endLoop)) = .ok (⟨"a", "wait", [.word ticks]⟩ :: backEnd) := rfl
  rw [(expand_eq_emitItems (waitAndBack_assemblable hs hn) (by decide)).2, emitItems, hmoves]
  simp only [bind, Except.bind, splitWaits, splitWait_multiple (show (0 : Int) < 32767 by decide) "a" hn, hend]
  exact mergeFrom_longest (by decide) hmerge "a" (k + 1)

end

/-- The branch back over 16384 waits goes forwards: its distance does not fit, and the assembler does not say so. -/
theorem assemble_farBranch :
    ∃ image w, assemble {} "a: wait 536854528\nbeq r0, r0, a\n" = .ok image ∧ image.labels.lookup "a" = some 0 ∧
      (∃ final, expand {} (waitAndBack "536854528") = .ok final ∧
        final[16384]? = some ⟨"", "beq", [.word "r0", .word "r0", .word "a"]⟩) ∧
      image.words[16384]? = some w ∧ branchTarget 16384 w = 32768 := by
  have hparse : parse {} (validLines "a: wait 536854528\nbeq r0, r0, a\n") = .ok (waitAndBack "536854528") := by
    refine toOption_eq_some.1 ?_
    decide +kernel
  have hs : isNumberWord "536854528" = true := by decide +kernel
  obtain ⟨k, hk⟩ : ∃ k, k = 16382 := ⟨_, rfl⟩
  have hn : Decimal.readInt? 10 "536854528".toList = some (32767 * ((k : Int) + 2)) := by
    subst hk
    decide +kernel
  have hexpand := expand_waitAndBack hs hn
  obtain ⟨image, himage⟩ := assemble_sound (by decide) (by decide) hparse (waitAndBack_assemblable hs hn) (by decide)
  obtain ⟨items, final, resolved, hitems, hfinal, hnodup, hlabels, hresolved, hwords⟩ := assemble_stages himage
  obtain rfl := Except.ok.inj (hparse.symm.trans hitems)
  obtain rfl := Except.ok.inj (hexpand.symm.trans hfinal)
  have hbranch : (waitItem "a" 32767 [] :: List.replicate (k + 1) (waitItem "" 32767 []) ++ backEnd)[k + 2]? =
      some ⟨"", "beq", [.word "r0", .word "r0", .word "a"]⟩ := by
    rw [List.getElem?_append_right (by simp)]
    simp [backEnd]
  have haddr : image.labels.lookup "a" = some 0 := by
    rw [hlabels, lookup_addresses hnodup]
    exact ⟨by decide, _, rfl, rfl⟩
  obtain ⟨a, b, target, addr, w, hops, hlook, hw, hbits⟩ := branch_at hresolved hwords hbranch rfl
  cases hops
  obtain rfl : 0 = addr := Option.some.inj (haddr.symm.trans hlook)
  have hk' : k + 2 = 16384 := by omega
  rw [hk'] at hbranch hw hbits
  refine ⟨image, w, himage, haddr, ⟨_, hexpand, hbranch⟩, hw, ?_⟩
  simp only [branchTarget, Int.bmod]
  norm_num at hbits ⊢
  split <;> omega

end QubitLab.Qumis
