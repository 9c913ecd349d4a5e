import QubitLab.Proofs.Numeral
import QubitLab.Proofs.Outcome
import QubitLab.Qumis.Program

/-!
# The passes of the assembler keep the timeline

The timeline of a program lists what it does, one event after the other: each `wait n` is `n` ticks of the clock, each
`mov` its four `lui`, and `nop`s and empty items are nothing. `labelMarks` gives each label with the number of
events before it. `Keeps xs ys`: the programs have the same timeline, and every label of `ys` marks the place in it that
it marks in `xs`. Every pass keeps both (`keeps_alignItems` to `keeps_mergeWaits`), so `expand` does (`expand_timeline`).
-/

namespace QubitLab.Qumis

open List

/-! ## Timelines -/

/-- What happens next: a tick of the clock, or an instruction. -/
inductive Event
  | tick
  | run (name : String) (operands : List Operand)
  deriving DecidableEq

/-- Byte `k` of an integer, lowest first. -/
def byteOf (k : Nat) (n : Int) : Int := n / Nat.pow 256 k % 256

/-- The ticks of a wait. -/
def Item.waiting (x : Item) : Int := (x.operands.head?.bind Operand.int?).getD 0

/-- The events of an item. -/
def Item.events (x : Item) : List Event :=
  if x.name = "" ∨ x.name = "nop" then []
  else if x.name = "wait" then List.replicate x.waiting.toNat .tick
  else if x.name = "mov" then
    match x.operands with
    | reg :: imm :: _ =>
      (List.range 4).map fun (k : Nat) => .run "lui" [reg, .number k, .number (byteOf k (imm.int?.getD 0))]
    | _ => []
  else [.run x.name x.operands]

/-- The events of a program. -/
def timeline (items : List Item) : List Event := items.flatMap Item.events

/-- The labels of a program whose events start at a place, with their places. -/
def marksFrom (p : Nat) : List Item → List (String × Nat)
  | [] => []
  | x :: r => (if x.label = "" then [] else [(x.label, p)]) ++ marksFrom (p + x.events.length) r

/-- The labels of a program, each with the number of events before it. -/
def labelMarks (items : List Item) : List (String × Nat) := marksFrom 0 items

/-- No wait of the program is negative. -/
def Counted (items : List Item) : Prop := ∀ x ∈ items, x.name = "wait" → 0 ≤ x.waiting

instance (items : List Item) : Decidable (Counted items) :=
  inferInstanceAs (Decidable (∀ x ∈ items, x.name = "wait" → 0 ≤ x.waiting))

@[simp] theorem timeline_nil : timeline [] = [] := rfl

@[simp] theorem timeline_cons (x : Item) (r : List Item) : timeline (x :: r) = x.events ++ timeline r := by
  simp [timeline]

@[simp] theorem timeline_append (xs ys : List Item) : timeline (xs ++ ys) = timeline xs ++ timeline ys := by
  simp [timeline]

theorem marksFrom_append (xs ys : List Item) (p : Nat) :
    marksFrom p (xs ++ ys) = marksFrom p xs ++ marksFrom (p + (timeline xs).length) ys := by
  induction xs generalizing p with
  | nil => rfl
  | cons x xs ih => simp [marksFrom, ih, Nat.add_assoc]

variable {x y : Item} {ys : List Item} {n m : Int}

theorem Item.events_of_empty (h : x.name = "") : x.events = [] := if_pos (.inl h)

theorem Item.events_of_nop (h : x.name = "nop") : x.events = [] := if_pos (.inr h)

theorem Item.events_of_wait (h : x.name = "wait") : x.events = List.replicate x.waiting.toNat .tick := by
  rw [Item.events, h]
  rfl

theorem Item.events_congr (hn : x.name = y.name) (ho : x.operands = y.operands) : x.events = y.events := by
  simp only [Item.events, Item.waiting, hn, ho]

/-! ## Programs with the same timeline -/

/-- The second program has the timeline of the first, and its labels mark the same places. -/
structure Keeps (xs ys : List Item) : Prop where
  events : timeline ys = timeline xs
  marks : ∀ p, (marksFrom p ys).Sublist (marksFrom p xs)
  counted : Counted xs → Counted ys

namespace Keeps

theorem refl (xs : List Item) : Keeps xs xs := ⟨rfl, fun _ => .refl _, id⟩

variable {xs : List Item}

theorem trans {zs : List Item} (h : Keeps xs ys) (h' : Keeps ys zs) : Keeps xs zs :=
  ⟨h'.events.trans h.events, fun p => (h'.marks p).trans (h.marks p), h'.counted ∘ h.counted⟩

theorem append {xs' ys' : List Item} (h : Keeps xs xs') (h' : Keeps ys ys') :
    Keeps (xs ++ ys) (xs' ++ ys') where
  events := by rw [timeline_append, timeline_append, h.events, h'.events]
  marks p := by
    rw [marksFrom_append, marksFrom_append, h.events]
    exact (h.marks p).append (h'.marks _)
  counted hc x hx := by
    rcases mem_append.1 hx with hx | hx
    · exact h.counted (fun y hy => hc y (mem_append_left _ hy)) x hx
    · exact h'.counted (fun y hy => hc y (mem_append_right _ hy)) x hx

theorem cons (x : Item) (h : Keeps xs ys) : Keeps (x :: xs) (x :: ys) := (refl [x]).append h

/-- An item may be replaced by items that do the same, and whose first label is its own or none. -/
theorem single {x : Item} (he : timeline ys = x.events)
    (hm : ∀ p, (marksFrom p ys).Sublist (if x.label = "" then [] else [(x.label, p)]))
    (hc : Counted [x] → Counted ys) : Keeps [x] ys :=
  ⟨by simpa using he, fun p => by simpa [marksFrom] using hm p, hc⟩

end Keeps

theorem marksFrom_unlabelled : ∀ {ys : List Item} (p : Nat), (∀ y ∈ ys, y.label = "") → marksFrom p ys = []
  | [], _, _ => rfl
  | y :: ys, p, h => by
    rw [marksFrom, if_pos (h y mem_cons_self),
      marksFrom_unlabelled _ fun z hz => h z (mem_cons_of_mem y hz)]
    rfl

theorem counted_of_not_wait (h : ∀ y ∈ ys, y.name ≠ "wait") : Counted ys :=
  fun y hy hw => absurd hw (h y hy)

/-! ## The passes -/

theorem keeps_merge_label (hx : x.name = "") :
    Keeps [x, y] [if y.label = "" then { y with label := x.label } else y] where
  events := by
    have hy : (if y.label = "" then { y with label := x.label } else y).events = y.events := by
      split <;> rfl
    simp [Item.events_of_empty hx, hy]
  marks p := by
    simp only [marksFrom, Item.events_of_empty hx, length_nil, Nat.add_zero, append_nil]
    by_cases hy : y.label = "" <;> simp [hy]
  counted hc z hz := by
    rw [mem_singleton.1 hz]
    have h := hc y (by simp)
    split <;> exact h

theorem keeps_alignItems (items : List Item) : Keeps items (alignItems items) := by
  fun_induction alignItems items with
  | case1 => exact .refl _
  | case2 x hx => exact .single (by simp [Item.events_of_empty hx.2]) (fun p => nil_sublist _) fun _ => nofun
  | case3 x hx y t ih =>
    have h : Keeps [x] [] :=
      .single (by simp [Item.events_of_empty hx.2]) (fun p => nil_sublist _) fun _ => nofun
    exact h.append (ih.cons y)
  | case4 x hx hn =>
    refine .single ?_ (fun p => ?_) fun _ => counted_of_not_wait (by simp)
    · simp [Item.events_of_empty hn, Item.events_of_nop]
    · simp [marksFrom]
  | case5 x hx hn y t ih => exact (keeps_merge_label hn).append ih
  | case6 x r hx hn ih => exact ih.cons x

theorem keeps_align {file : String} {items out : List Item} (h : align file items = .ok out) : Keeps items out := by
  obtain ⟨table, -, rfl⟩ := map_eq_ok.1 h
  exact keeps_alignItems items

theorem waiting_zero (x : Item) (rest : List Operand) (h : x.operands = .word "0" :: rest) : x.waiting = 0 := by
  have h0 : (Operand.word "0").int? = some 0 := by decide +kernel
  simp [Item.waiting, h, h0]

theorem keeps_clearZeroWaits : ∀ {items out : List Item}, clearZeroWaits items = .ok out → Keeps items out
  | [], out, h => by
    cases h
    exact .refl _
  | x :: r, out, h => by
    rw [clearZeroWaits] at h
    split at h
    · rename_i hx
      split at h
      · cases h
      · rename_i op rest hop
        obtain ⟨ys, hys, h⟩ := bind_eq_ok.1 h
        cases h
        split
        · rename_i h0
          have : Keeps [x] [⟨x.label, "", []⟩] := by
            refine .single ?_ (fun p => ?_) fun _ => counted_of_not_wait (by simp)
            · rw [Item.events_of_wait hx, waiting_zero x rest (h0 ▸ hop)]
              simp [Item.events]
            · simp [marksFrom]
          exact this.append (keeps_clearZeroWaits hys)
        · exact (keeps_clearZeroWaits hys).cons x
    · obtain ⟨ys, hys, h⟩ := bind_eq_ok.1 h
      cases h
      exact (keeps_clearZeroWaits hys).cons x

theorem keeps_flatMap {f : Item → List Item} (hf : ∀ x, Keeps [x] (f x)) (items : List Item) :
    Keeps items (items.flatMap f) := by
  induction items with
  | nil => exact .refl _
  | cons x r ih => exact (hf x).append ih

theorem keeps_nopsAfterLabels (items : List Item) : Keeps items (nopsAfterLabels items) := by
  refine keeps_flatMap (fun x => ?_) items
  split
  · exact .refl _
  · refine .single ?_ (fun p => ?_) fun hc => ?_
    · simp [Item.events_of_nop, Item.events_congr (x := { x with label := "" }) (y := x) rfl rfl]
    · simp [marksFrom]
    · intro y hy hw
      simp only [mem_cons, not_mem_nil, or_false] at hy
      rcases hy with rfl | rfl
      · simp at hw
      · exact hc x mem_cons_self hw

theorem keeps_nopsAfterBranches (n : Nat) (items : List Item) : Keeps items (nopsAfterBranches n items) := by
  refine keeps_flatMap (fun x => ?_) items
  have hnops : Keeps [] (List.replicate n ⟨"", "nop", []⟩) := by
    refine ⟨?_, fun p => ?_, fun _ => counted_of_not_wait fun y hy => ?_⟩
    · simp [timeline, Item.events]
    · rw [marksFrom_unlabelled p fun y hy => by rw [eq_of_mem_replicate hy]]
      exact nil_sublist _
    · rw [eq_of_mem_replicate hy]
      decide
  split
  · exact hnops.cons x
  · exact .refl _

theorem byteOf_mod (n : Int) {k : Nat} (hk : k < 4) : n % Nat.pow 2 32 / Nat.pow 256 k % 256 = byteOf k n := by
  rw [byteOf, show ((Nat.pow 2 32 : Nat) : Int) = 4294967296 from rfl]
  match k, hk with
  | 0, _ => rw [show ((Nat.pow 256 0 : Nat) : Int) = 1 from rfl]; omega
  | 1, _ => rw [show ((Nat.pow 256 1 : Nat) : Int) = 256 from rfl]; omega
  | 2, _ => rw [show ((Nat.pow 256 2 : Nat) : Int) = 65536 from rfl]; omega
  | 3, _ => rw [show ((Nat.pow 256 3 : Nat) : Int) = 16777216 from rfl]; omega

theorem keeps_loadBytes {reg imm : Operand} {rest : List Operand} (hx : x.name = "mov")
    (ho : x.operands = reg :: imm :: rest) (hn : imm.int? = some n) : Keeps [x] (loadBytes x.label reg n) := by
  have hb : loadBytes x.label reg n = [⟨x.label, "lui", [reg, .number 0, .number (byteOf 0 n)]⟩,
      ⟨"", "lui", [reg, .number 1, .number (byteOf 1 n)]⟩, ⟨"", "lui", [reg, .number 2, .number (byteOf 2 n)]⟩,
      ⟨"", "lui", [reg, .number 3, .number (byteOf 3 n)]⟩] := by
    simp only [loadBytes, byteOf_mod n (k := 0) (by decide), byteOf_mod n (k := 1) (by decide),
      byteOf_mod n (k := 2) (by decide), byteOf_mod n (k := 3) (by decide)]
  rw [hb]
  refine .single ?_ (fun p => ?_) fun _ => counted_of_not_wait (by simp)
  · simp only [Item.events, hx, ho, hn]
    rfl
  · simp [marksFrom]

theorem keeps_expandMove (h : expandMove x = .ok ys) : Keeps [x] ys := by
  rw [expandMove] at h
  split at h
  · rename_i hx
    split at h
    · rename_i reg imm rest ho
      split at h
      · cases h
        exact keeps_loadBytes hx ho rfl
      · split at h
        · cases h
        · split at h
          · rename_i hn
            cases h
            exact keeps_loadBytes hx ho hn
          · cases h
    · cases h
  · cases h
    exact .refl _

theorem keeps_expandMoves : ∀ {items out : List Item}, expandMoves items = .ok out → Keeps items out
  | [], out, h => by
    cases h
    exact .refl _
  | x :: r, out, h => by
    obtain ⟨ys, hys, h⟩ := bind_eq_ok.1 h
    obtain ⟨zs, hzs, h⟩ := bind_eq_ok.1 h
    cases h
    exact (keeps_expandMove hys).append (keeps_expandMoves hzs)

theorem waiting_waitItem (label : String) (n : Int) (rest : List Operand) :
    (waitItem label n rest).waiting = n := by
  simp [Item.waiting, waitItem, Operand.int?, Decimal.readInt?_intText]

theorem events_waitItem (label : String) (n : Int) (rest : List Operand) :
    (waitItem label n rest).events = List.replicate n.toNat .tick := by
  rw [Item.events_of_wait rfl, waiting_waitItem]

/-- The chunks of a wait wait as long as the wait. -/
theorem waitChunks_spec (hm : 0 < m) (hn : 0 < n) :
    timeline (waitChunks m n) = List.replicate n.toNat .tick ∧
      (∀ y ∈ waitChunks m n, y.label = "") ∧ Counted (waitChunks m n) := by
  have hm0 : 0 ≤ m := by omega
  have hdiv : 0 ≤ (n - 1) / m := Int.ediv_nonneg (by omega) (by omega)
  have hk : (n - 1) / m * m ≤ n - 1 := Int.ediv_mul_le _ (by omega)
  simp only [waitChunks, if_pos hm, Int.toNat_of_nonneg hdiv]
  have hrest : 0 ≤ n - (n - 1) / m * m := by omega
  refine ⟨?_, fun y hy => ?_, fun y hy _ => ?_⟩
  · have hchunks (k : Nat) : timeline (List.replicate k (waitItem "" m [])) = List.replicate (k * m.toNat) .tick := by
      induction k with
      | zero => simp
      | succ k ih => rw [replicate_succ, timeline_cons, ih, events_waitItem, ← replicate_add,
          Nat.succ_mul, Nat.add_comm]
    rw [timeline_append, hchunks, timeline_cons, events_waitItem, timeline_nil, append_nil,
      ← replicate_add]
    have hcast : ((((n - 1) / m).toNat * m.toNat : Nat) : Int) = (n - 1) / m * m := by
      rw [Int.natCast_mul, Int.toNat_of_nonneg hdiv, Int.toNat_of_nonneg hm0]
    congr 1
    omega
  · rcases mem_append.1 hy with hy | hy
    · rw [eq_of_mem_replicate hy]; rfl
    · rw [mem_singleton.1 hy]; rfl
  · rcases mem_append.1 hy with hy | hy
    · rw [eq_of_mem_replicate hy, waiting_waitItem]; exact hm0
    · rw [mem_singleton.1 hy, waiting_waitItem]; exact hrest

theorem keeps_splitWait (h : splitWait m x = .ok ys) (hx : Counted [x]) : Keeps [x] ys := by
  rw [splitWait] at h
  split at h
  · rename_i hw
    split at h
    · cases h
    · rename_i op rest ho
      split at h
      · cases h
      · rename_i n hn
        have hwait : x.waiting = n := by simp [Item.waiting, ho, hn]
        have hn0 : 0 ≤ n := hwait ▸ hx x mem_cons_self hw
        split at h
        · rename_i hlong
          cases h
          obtain ⟨he, hl, hc⟩ := waitChunks_spec hlong.1 (n := n - m) (by omega)
          have hm : 0 ≤ m := by omega
          refine .single ?_ (fun p => ?_) fun _ y hy hyw => ?_
          · rw [timeline_cons, he, events_waitItem, ← replicate_add, Item.events_of_wait hw, hwait]
            congr 1
            omega
          · rw [marksFrom, marksFrom_unlabelled _ hl, append_nil]
            exact .refl _
          · rcases mem_cons.1 hy with rfl | hy
            · rw [waiting_waitItem]
              exact hm
            · exact hc y hy hyw
        · cases h
          exact .refl _
  · cases h
    exact .refl _

theorem keeps_splitWaits : ∀ {items out : List Item}, splitWaits m items = .ok out → Counted items →
    Keeps items out
  | [], out, h, _ => by
    cases h
    exact .refl _
  | x :: r, out, h, hc => by
    obtain ⟨ys, hys, h⟩ := bind_eq_ok.1 h
    obtain ⟨zs, hzs, h⟩ := bind_eq_ok.1 h
    cases h
    have hx : Counted [x] := fun y hy => hc y (by simp [mem_singleton.1 hy])
    exact (keeps_splitWait hys hx).append (keeps_splitWaits hzs fun y hy => hc y (mem_cons_of_mem x hy))

theorem ticks?_eq_ok (h : x.ticks? = .ok n) : x.waiting = n := by
  rw [Item.ticks?] at h
  split at h
  · cases h
  · rename_i op rest ho
    split at h
    · rename_i k hk
      cases h
      simp [Item.waiting, ho, hk]
    · cases h

/-- Two waits next to each other wait as long as one. -/
theorem keeps_merged (hx : x.name = "wait") (hl : y.label = "") (hy : y.name = "wait")
    (hm : x.ticks? = .ok m) (hn : y.ticks? = .ok n) (hc : Counted [x, y]) :
    Keeps [x, y] [waitItem x.label (m + n) (x.operands.drop 1)] := by
  have hm0 : 0 ≤ m := ticks?_eq_ok hm ▸ hc x (by simp) hx
  have hn0 : 0 ≤ n := ticks?_eq_ok hn ▸ hc y (by simp) hy
  refine ⟨?_, fun p => ?_, fun _ z hz _ => ?_⟩
  · simp only [timeline_cons, timeline_nil, append_nil, Item.events_of_wait hx, Item.events_of_wait hy,
      ticks?_eq_ok hm, ticks?_eq_ok hn, events_waitItem, ← replicate_add]
    congr 1
    omega
  · simp [marksFrom, hl, waitItem]
  · rw [mem_singleton.1 hz, waiting_waitItem]
    omega

theorem keeps_mergeFrom : ∀ {r : List Item} {x : Item} {out : List Item}, mergeFrom m x r = .ok out →
    Counted (x :: r) → Keeps (x :: r) out
  | [], x, out, h, _ => by
    cases h
    exact .refl _
  | y :: r, x, out, h, hc => by
    have hy : Counted (y :: r) := fun z hz => hc z (mem_cons_of_mem x hz)
    rw [mergeFrom] at h
    split at h
    · rename_i hxy
      obtain ⟨k, hk, h⟩ := bind_eq_ok.1 h
      obtain ⟨n, hn, h⟩ := bind_eq_ok.1 h
      split at h
      · have hm := keeps_merged hxy.1 hxy.2.1 hxy.2.2 hk hn fun z hz => hc z (by simp at hz ⊢; tauto)
        have hr := hm.append (.refl r)
        exact hr.trans (keeps_mergeFrom h (hr.counted hc))
      · obtain ⟨ys, hys, h⟩ := bind_eq_ok.1 h
        cases h
        exact (keeps_mergeFrom hys hy).cons x
    · obtain ⟨ys, hys, h⟩ := bind_eq_ok.1 h
      cases h
      exact (keeps_mergeFrom hys hy).cons x

theorem keeps_mergeWaits : ∀ {items out : List Item}, mergeWaits m items = .ok out → Counted items →
    Keeps items out
  | [], out, h, _ => by
    cases h
    exact .refl _
  | _ :: _, _, h, hc => keeps_mergeFrom h hc

/-! ## All passes -/

theorem counted_append_endLoop {items : List Item} (h : Counted items) : Counted (items ++ endLoop) := by
  intro x hx hw
  rcases mem_append.1 hx with hx | hx
  · exact h x hx hw
  · have hloop : ∀ x ∈ endLoop, 0 ≤ x.waiting := by decide +kernel
    exact hloop x hx

/-- **The assembler keeps time**: what comes out of all passes has the timeline of the program with its loop at
the end, and each label that is left marks a place that it marked there. -/
theorem expand_timeline {cfg : Settings} {items out : List Item} (hc : Counted items) (h : expand cfg items = .ok out) :
    timeline out = timeline (items ++ endLoop) ∧ (labelMarks out).Sublist (labelMarks (items ++ endLoop)) := by
  obtain ⟨looped, h₁, h⟩ := bind_eq_ok.1 h
  obtain ⟨zeros, h₂, h⟩ := bind_eq_ok.1 h
  obtain ⟨cleared, h₃, h⟩ := bind_eq_ok.1 h
  obtain ⟨aligned, h₄, h⟩ := bind_eq_ok.1 h
  obtain ⟨padded, h₅, h⟩ := bind_eq_ok.1 h
  obtain ⟨loads, h₆, h⟩ := bind_eq_ok.1 h
  obtain ⟨moved, h₇, h⟩ := bind_eq_ok.1 h
  obtain ⟨split, h₈, h⟩ := bind_eq_ok.1 h
  have hlabels : Keeps aligned (if cfg.nopAfterLabel then nopsAfterLabels aligned else aligned) := by
    split
    · exact keeps_nopsAfterLabels aligned
    · exact .refl _
  have hbranches (xs : List Item) :
      Keeps xs (if cfg.nopAfterBranch then nopsAfterBranches cfg.branchNops xs else xs) := by
    split
    · exact keeps_nopsAfterBranches _ xs
    · exact .refl _
  have hmoved : Keeps (items ++ endLoop) moved :=
    (keeps_align h₁).trans <| (keeps_clearZeroWaits h₂).trans <| (keeps_align h₃).trans <| (keeps_align h₄).trans <|
      hlabels.trans <| (hbranches _).trans <| (keeps_align h₅).trans <| (keeps_expandMoves h₆).trans (keeps_align h₇)
  have hsplit := keeps_splitWaits h₈ (hmoved.counted (counted_append_endLoop hc))
  have hall := (hmoved.trans hsplit)
  have hkeeps := hall.trans (keeps_mergeWaits h (hall.counted (counted_append_endLoop hc)))
  exact ⟨hkeeps.events, hkeeps.marks 0⟩

/-- A loop with a wait of zero, a load, a wait that is too long for the machine and one that is merged with its rest. -/
def loopProgram : List Item := [
  ⟨"start", "wait", [.word "0"]⟩,
  ⟨"", "mov", [.word "r14", .word "258"]⟩,
  ⟨"", "wait", [.word "40000"]⟩,
  ⟨"", "wait", [.word "3"]⟩,
  ⟨"", "beq", [.word "r0", .word "r0", .word "start"]⟩]

theorem expand_timeline_loopProgram :
    Counted loopProgram ∧ ∃ out, expand { nopAfterLabel := true } loopProgram = .ok out ∧
      timeline out = timeline (loopProgram ++ endLoop) ∧
      (labelMarks out).Sublist (labelMarks (loopProgram ++ endLoop)) := by
  have hc : Counted loopProgram := by decide +kernel
  obtain ⟨out, h⟩ : ∃ out, expand { nopAfterLabel := true } loopProgram = .ok out := ⟨_, rfl⟩
  exact ⟨hc, out, h, expand_timeline hc h⟩

end QubitLab.Qumis
