import Mathlib.Data.List.Chain
import QubitLab.Proofs.SoundAssembly

/-!
# Waits in normal form

Two loops walk over a program by an index: `splitStep` puts new waits behind one that is too long, `mergeStep` takes a wait
away that fits into the one before it. The first fails if it stands where it stood one round before. `Runs` says how a loop
ends; both end, with the results of `splitWaits` and `mergeWaits` (`splitWaits_runs`, `mergeFrom_runs`).

`waits_normalForm`: where all waits are positive, both loops end without an error, each wait is then between one tick and the
longest wait, neighbours that may be merged do not fit together (`Apart`), and both passes change nothing any more.
-/

namespace QubitLab.Qumis

/-! ## Loops over a program -/

/-- How a loop ends whose step fails, is the last one or leads to another state. -/
inductive Runs {σ ε : Type} (step : σ → Except ε (Option σ)) : σ → Except ε σ → Prop
  | stop {s : σ} (h : step s = .ok none) : Runs step s (.ok s)
  | fail {s : σ} {e : ε} (h : step s = .error e) : Runs step s (.error e)
  | next {s t : σ} {r : Except ε σ} (h : step s = .ok (some t)) (hr : Runs step t r) : Runs step s r

theorem Runs.unique {σ ε : Type} {step : σ → Except ε (Option σ)} {s : σ} {r r' : Except ε σ} (h : Runs step s r)
    (h' : Runs step s r') : r = r' := by
  induction h with
  | stop h =>
    cases h' with
    | stop => rfl
    | fail h' => cases h.symm.trans h'
    | next h' => cases h.symm.trans h'
  | fail h =>
    cases h' with
    | stop h' => cases h.symm.trans h'
    | fail h' =>
      cases h.symm.trans h'
      rfl
    | next h' => cases h.symm.trans h'
  | next h _ ih =>
    cases h' with
    | stop h' => cases h.symm.trans h'
    | fail h' => cases h.symm.trans h'
    | next h' hr' =>
      cases h.symm.trans h'
      exact ih hr'

/-- What can go wrong while long waits are split. -/
inductive SplitError
  | asm (e : AsmError)
  /-- The loop stands where it stood one round before. -/
  | endless

/-- A program whose long waits are being split: the index that is looked at, that of the round before, and what is left of
a long wait there. -/
structure SplitState where
  items : List Item
  index : Nat := 0
  before : Option Nat := none
  left : Option Int := none

def withTicks (n : Int) (x : Item) : Item := { x with operands := .word (Decimal.intText n) :: x.operands.drop 1 }

def splitStep (m : Int) (s : SplitState) : Except SplitError (Option SplitState) :=
  match s.left with
  | some n =>
    if n > m then .ok (some { s with
      items := (s.items.modify s.index (withTicks m)).insertIdx (s.index + 1) (waitItem "" (n - m) [])
      index := s.index + 1
      left := some (n - m) })
    else .ok (some { s with left := none })
  | none =>
    match s.items[s.index]? with
    | none => .ok none
    | some x =>
      if s.before = some s.index then .error .endless
      else if x.name ≠ "wait" then .ok (some { s with index := s.index + 1, before := some s.index })
      else
        match x.ticks? with
        | .error e => .error (.asm e)
        | .ok n =>
          if n ≤ m then .ok (some { s with index := s.index + 1, before := some s.index })
          else .ok (some { s with before := some s.index, left := some n })

/-- A program whose waits are being merged, and the index that is looked at. -/
structure MergeState where
  items : List Item
  index : Nat := 0

def mergeStep (m : Int) (s : MergeState) : Except AsmError (Option MergeState) :=
  match s.items[s.index]?, s.items[s.index + 1]? with
  | some x, some y =>
    if x.name = "wait" ∧ y.label = "" ∧ y.name = "wait" then do
      let a ← x.ticks?
      let b ← y.ticks?
      if a + b < m then
        return some { s with items := (s.items.set s.index (withTicks (a + b) x)).eraseIdx (s.index + 1) }
      else return some { s with index := s.index + 1 }
    else .ok (some { s with index := s.index + 1 })
  | _, _ => .ok none

variable {ys : List Item} {b : Option Nat} {y : Item}

section
variable {m n : Int} {x : Item} {pre r : List Item}

@[simp] theorem ticks?_waitItem (l : String) (n : Int) (rest : List Operand) : (waitItem l n rest).ticks? = .ok n := by
  simp [Item.ticks?, waitItem, Operand.int?, Decimal.readInt?_intText]

theorem withTicks_eq (hx : x.name = "wait") (n : Int) : withTicks n x = waitItem x.label n (x.operands.drop 1) := by
  rw [withTicks, waitItem, hx]

/-! ## Splitting -/

theorem waitChunks_short (hm : 0 < m) (h0 : 0 < n) (hn : n ≤ m) : waitChunks m n = [waitItem "" n []] := by
  have hk : (n - 1) / m = 0 := Int.ediv_eq_zero_of_lt (by omega) (by omega)
  simp [waitChunks, hm, hk]

theorem waitChunks_long (hm : 0 < m) (hn : m < n) : waitChunks m n = waitItem "" m [] :: waitChunks m (n - m) := by
  have hk : ((n - 1) / m).toNat = ((n - m - 1) / m).toNat + 1 := by
    have hdiv : (n - 1) / m = (n - m - 1) / m + 1 := by
      rw [← Int.add_mul_ediv_right _ _ (show m ≠ 0 by omega)]
      congr 1
      omega
    have := Int.ediv_nonneg (show 0 ≤ n - m - 1 by omega) (show 0 ≤ m by omega)
    omega
  simp only [waitChunks, if_pos hm, hk, List.replicate_succ, List.cons_append]
  congr 4
  rw [Int.natCast_add, Int.add_mul]
  omega

theorem waitChunks_concat (hm : 0 < m) (h0 : 0 < n) :
    ∃ front k, waitChunks m n = front ++ [waitItem "" k []] ∧ 0 < k ∧ k ≤ m := by
  obtain ⟨d, hd⟩ : ∃ d, n.toNat ≤ d := ⟨_, Nat.le_refl _⟩
  induction d generalizing n with
  | zero => omega
  | succ d ih =>
    by_cases hn : n ≤ m
    · exact ⟨[], n, waitChunks_short hm h0 hn, h0, hn⟩
    · obtain ⟨front, k, hk, hpos, hle⟩ := ih (n := n - m) (by omega) (by omega)
      exact ⟨waitItem "" m [] :: front, k, by rw [waitChunks_long hm (by omega), hk]; rfl, hpos, hle⟩

/-- A wait is split, or stays since it is short. -/
theorem splitWait_cases (hm : 0 < m) (h : splitWait m x = .ok ys) :
    (ys = [x] ∧ (x.name = "wait" → ∃ n, x.ticks? = .ok n ∧ n ≤ m)) ∨
    x.name = "wait" ∧ ∃ n, x.ticks? = .ok n ∧ m < n ∧ ys = withTicks m x :: waitChunks m (n - m) := by
  rw [splitWait] at h
  split at h
  · rename_i hw
    split at h
    · cases h
    · rename_i op rest hops
      split at h
      · cases h
      · rename_i n hn
        have hticks : x.ticks? = .ok n := by simp [Item.ticks?, hops, hn]
        split at h
        · cases h
          exact .inr ⟨hw, n, hticks, by omega, by rw [withTicks_eq hw, hops]; rfl⟩
        · cases h
          exact .inl ⟨rfl, fun _ => ⟨n, hticks, by omega⟩⟩
  · cases h
    exact .inl ⟨rfl, fun hw => absurd hw ‹_›⟩

theorem insertIdx_modify {α : Type} (f : α → α) (xs ys : List α) (y z : α) :
    ((xs ++ y :: ys).modify xs.length f).insertIdx (xs.length + 1) z = xs ++ [f y] ++ z :: ys := by
  induction xs with
  | nil => rfl
  | cons x xs ih => simpa using ih

/-- The inner loop puts the chunks of a wait in its place, and stands on the last of them. -/
theorem runs_chunks (hm : 0 < m) (hn : 0 < n) {res : Except SplitError SplitState}
    (h : ∀ cs, cs = (if n > m then withTicks m y :: waitChunks m (n - m) else [y]) →
      Runs (splitStep m) ⟨pre ++ cs ++ r, pre.length + (cs.length - 1), b, none⟩ res) :
    Runs (splitStep m) ⟨pre ++ y :: r, pre.length, b, some n⟩ res := by
  obtain ⟨d, hd⟩ : ∃ d, n.toNat ≤ d := ⟨_, Nat.le_refl _⟩
  induction d generalizing n y pre with
  | zero => omega
  | succ d ih =>
    by_cases hlong : n > m
    · have hstep : splitStep m ⟨pre ++ y :: r, pre.length, b, some n⟩ =
          .ok (some ⟨(pre ++ [withTicks m y]) ++ waitItem "" (n - m) [] :: r, (pre ++ [withTicks m y]).length, b,
            some (n - m)⟩) := by
        simp only [splitStep, if_pos hlong, insertIdx_modify, List.length_append, List.length_singleton]
      refine .next hstep (ih (n := n - m) (by omega) (fun cs hcs => ?_) (by omega))
      have hchunks : cs = waitChunks m (n - m) := by
        rw [hcs]
        split
        · rename_i hmore
          rw [waitChunks_long hm hmore, withTicks_eq rfl]
          rfl
        · rw [waitChunks_short hm (by omega) (by omega)]
      have := h (withTicks m y :: cs) (by rw [if_pos hlong, hchunks])
      obtain ⟨front, k, hcs', -⟩ := waitChunks_concat hm (n := n - m) (by omega)
      simpa [hchunks, hcs', Nat.add_assoc, Nat.add_comm 1] using this
    · have hstep : splitStep m ⟨pre ++ y :: r, pre.length, b, some n⟩ = .ok (some ⟨pre ++ y :: r, pre.length, b, none⟩) := by
        simp only [splitStep, if_neg hlong]
      refine .next hstep ?_
      simpa using h [y] (by rw [if_neg hlong])

/-- An item that is no long wait is passed. -/
theorem splitStep_pass (pre : List Item) (hb : b ≠ some pre.length)
    (hx : x.name = "wait" → ∃ n, x.ticks? = .ok n ∧ n ≤ m) :
    splitStep m ⟨pre ++ x :: r, pre.length, b, none⟩ =
      .ok (some ⟨(pre ++ [x]) ++ r, (pre ++ [x]).length, some pre.length, none⟩) := by
  have hitem : (pre ++ x :: r)[pre.length]? = some x := by simp
  simp only [splitStep, hitem, if_neg hb]
  by_cases hw : x.name = "wait"
  · obtain ⟨n, hn, hle⟩ := hx hw
    simp [hw, hn, hle]
  · simp [hw]

/-- **The loop that splits waits ends**, without standing still, with what `splitWaits` gives. -/
theorem splitWaits_runs (pre : List Item) (hm : 0 < m) (h : splitWaits m r = .ok ys) (hb : b ≠ some pre.length) :
    ∃ s, Runs (splitStep m) ⟨pre ++ r, pre.length, b, none⟩ (.ok s) ∧ s.items = pre ++ ys := by
  induction r generalizing pre ys b with
  | nil =>
    cases h
    exact ⟨_, .stop (by simp [splitStep]), rfl⟩
  | cons x r ih =>
    obtain ⟨as, has, h⟩ := bind_eq_ok.1 h
    obtain ⟨zs, hzs, h⟩ := bind_eq_ok.1 h
    cases h
    rcases splitWait_cases hm has with ⟨rfl, hx⟩ | ⟨hw, n, hn, hlong, rfl⟩
    · obtain ⟨s, hs, hitems⟩ := ih (pre ++ [x]) (b := some pre.length) hzs (by simp)
      exact ⟨s, .next (splitStep_pass pre hb hx) hs, by simp [hitems]⟩
    · obtain ⟨front, k, hcs, -, hk⟩ := waitChunks_concat hm (n := n - m) (by omega)
      -- the chunks are in place, and the last one is looked at next
      obtain ⟨s, hs, hitems⟩ := ih (pre ++ withTicks m x :: front ++ [waitItem "" k []])
        (b := some (pre ++ withTicks m x :: front).length) hzs (by simp)
      refine ⟨s, .next (t := ⟨pre ++ x :: r, pre.length, some pre.length, some n⟩) ?_ ?_, by simp [hitems, hcs]⟩
      · have hitem : (pre ++ x :: r)[pre.length]? = some x := by simp
        simp only [splitStep, hitem, if_neg hb, hw, hn, if_neg (show ¬n ≤ m by omega)]
        rfl
      · refine runs_chunks hm (by omega) fun cs hchunks => ?_
        rw [if_pos hlong, hcs] at hchunks
        have hpass := splitStep_pass (pre ++ withTicks m x :: front) (r := r) (b := some pre.length)
          (x := waitItem "" k []) (by simp) fun _ => ⟨k, ticks?_waitItem "" k [], hk⟩
        refine .next (t := ⟨_, _, _, none⟩) ?_ hs
        rw [hchunks]
        simpa using hpass

/-! ## Merging -/

/-- Two items are no waits that may be merged: a sum below the longest wait would do. -/
def Apart (m : Int) (x y : Item) : Prop := x.name = "wait" → y.label = "" → y.name = "wait" →
  ∃ a b, x.ticks? = .ok a ∧ y.ticks? = .ok b ∧ m ≤ a + b

theorem mergeFrom_apart (h : Apart m x y) : mergeFrom m x (y :: r) = (mergeFrom m y r).map (x :: ·) := by
  have hmap : (do
      let ys ← mergeFrom m y r
      return x :: ys) = (mergeFrom m y r).map (x :: ·) := by
    cases mergeFrom m y r <;> rfl
  rw [mergeFrom, ← hmap]
  split
  · rename_i hw
    obtain ⟨a, b, ha, hb, hsum⟩ := h hw.1 hw.2.1 hw.2.2
    simp only [ha, hb, bind, Except.bind, if_neg (show ¬a + b < m by omega)]
  · rfl

theorem mergeFrom_sum {a b : Int} (hw : x.name = "wait" ∧ y.label = "" ∧ y.name = "wait")
    (ha : x.ticks? = .ok a) (hb : y.ticks? = .ok b) (hsum : a + b < m) :
    mergeFrom m x (y :: r) = mergeFrom m (withTicks (a + b) x) r := by
  rw [mergeFrom, if_pos hw, ha, hb, withTicks_eq hw.1]
  exact if_pos hsum

/-- Two items stay apart, or are merged; otherwise a wait cannot be read. -/
theorem mergeFrom_cases (h : mergeFrom m x (y :: r) = .ok ys) :
    Apart m x y ∨
    (x.name = "wait" ∧ y.label = "" ∧ y.name = "wait") ∧ ∃ a b, x.ticks? = .ok a ∧ y.ticks? = .ok b ∧ a + b < m := by
  by_cases hw : x.name = "wait" ∧ y.label = "" ∧ y.name = "wait"
  · rw [mergeFrom, if_pos hw] at h
    obtain ⟨a, ha, h⟩ := bind_eq_ok.1 h
    obtain ⟨b, hb, -⟩ := bind_eq_ok.1 h
    rcases Int.lt_or_le (a + b) m with hsum | hsum
    · exact .inr ⟨hw, a, b, ha, hb, hsum⟩
    · exact .inl fun _ _ _ => ⟨a, b, ha, hb, hsum⟩
  · exact .inl fun hx hl hy => absurd ⟨hx, hl, hy⟩ hw

theorem mergeFrom_runs (pre : List Item) (h : mergeFrom m x r = .ok ys) :
    ∃ s, Runs (mergeStep m) ⟨pre ++ x :: r, pre.length⟩ (.ok s) ∧ s.items = pre ++ ys := by
  induction r generalizing x pre ys with
  | nil =>
    cases h
    exact ⟨_, .stop (by simp [mergeStep]), rfl⟩
  | cons y r ih =>
    have hx : (pre ++ x :: y :: r)[pre.length]? = some x := by simp
    have hy : (pre ++ x :: y :: r)[pre.length + 1]? = some y := by simp
    rcases mergeFrom_cases h with hapart | ⟨hw, a, b, ha, hb, hsum⟩
    · rw [mergeFrom_apart hapart] at h
      obtain ⟨zs, hzs, rfl⟩ := map_eq_ok.1 h
      obtain ⟨s, hs, hitems⟩ := ih (pre ++ [x]) hzs
      refine ⟨s, .next (t := ⟨pre ++ x :: y :: r, pre.length + 1⟩) ?_ (by simpa using hs), by simp [hitems]⟩
      simp only [mergeStep, hx, hy]
      split
      · rename_i hw
        obtain ⟨a, b, ha, hb, hsum⟩ := hapart hw.1 hw.2.1 hw.2.2
        simp only [ha, hb, bind, Except.bind, if_neg (show ¬a + b < m by omega)]
        rfl
      · rfl
    · rw [mergeFrom_sum hw ha hb hsum] at h
      obtain ⟨s, hs, hitems⟩ := ih pre h
      refine ⟨s, .next ?_ hs, hitems⟩
      simp only [mergeStep, hx, hy, if_pos hw, ha, hb, bind, Except.bind, if_pos hsum]
      simp [pure, Except.pure, List.eraseIdx_append_of_length_le]

/-! ## The normal form -/

/-- A wait takes at least one tick and at most the longest wait. -/
def Timely (m : Int) (x : Item) : Prop := x.name = "wait" → ∃ n, x.ticks? = .ok n ∧ 1 ≤ n ∧ n ≤ m

theorem timely_waitItem {n : Int} (l : String) (rest : List Operand) (h1 : 1 ≤ n) (hn : n ≤ m) : Timely m (waitItem l n rest) :=
  fun _ => ⟨n, ticks?_waitItem l n rest, h1, hn⟩

theorem waitChunks_timely (hm : 0 < m) (h0 : 0 < n) : ∀ y ∈ waitChunks m n, Timely m y := by
  obtain ⟨d, hd⟩ : ∃ d, n.toNat ≤ d := ⟨_, Nat.le_refl _⟩
  induction d generalizing n with
  | zero => omega
  | succ d ih =>
    by_cases hn : n ≤ m
    · rw [waitChunks_short hm h0 hn, List.forall_mem_singleton]
      exact timely_waitItem "" [] h0 hn
    · rw [waitChunks_long hm (by omega), List.forall_mem_cons]
      exact ⟨timely_waitItem "" [] hm (Int.le_refl m), ih (by omega) (by omega)⟩

theorem splitWait_ticks (hw : x.name = "wait") (hn : x.ticks? = .ok n) :
    ∃ ys, splitWait m x = .ok ys := by
  rw [Item.ticks?] at hn
  rw [splitWait, if_pos hw]
  split at hn
  · cases hn
  · rename_i op rest hops
    split at hn
    · rename_i k hk
      simp only [hk]
      split
      · exact ⟨_, rfl⟩
      · exact ⟨_, rfl⟩
    · cases hn

theorem splitWaits_timely (hm : 0 < m) (h : ∀ x ∈ r, x.name = "wait" → ∃ n, x.ticks? = .ok n ∧ 0 < n) :
    ∃ ys, splitWaits m r = .ok ys ∧ ∀ y ∈ ys, Timely m y := by
  induction r with
  | nil => exact ⟨[], rfl, by simp⟩
  | cons x r ih =>
    rw [List.forall_mem_cons] at h
    obtain ⟨zs, hzs, hz⟩ := ih h.2
    obtain ⟨as, has, ha⟩ : ∃ as, splitWait m x = .ok as ∧ ∀ y ∈ as, Timely m y := by
      by_cases hw : x.name = "wait"
      · obtain ⟨n, hn, h0⟩ := h.1 hw
        obtain ⟨as, has⟩ := splitWait_ticks (m := m) hw hn
        refine ⟨as, has, ?_⟩
        rcases splitWait_cases hm has with ⟨rfl, hx⟩ | ⟨-, k, hk, hlong, rfl⟩
        · obtain ⟨k, hk, hle⟩ := hx hw
          obtain rfl := Except.ok.inj (hn.symm.trans hk)
          exact List.forall_mem_singleton.2 fun _ => ⟨n, hn, h0, hle⟩
        · rw [withTicks_eq hw]
          exact List.forall_mem_cons.2 ⟨timely_waitItem _ _ hm (Int.le_refl m), waitChunks_timely hm (by omega)⟩
      · exact ⟨[x], if_neg hw, List.forall_mem_singleton.2 fun h => absurd h hw⟩
    exact ⟨as ++ zs, by rw [splitWaits, has, hzs]; rfl, List.forall_mem_append.2 ⟨ha, hz⟩⟩

/-- An item as it was, or a wait that has become longer. -/
structure Grown (x z : Item) : Prop where
  label : z.label = x.label
  name : z.name = x.name
  ticks : x.name = "wait" → ∀ a, x.ticks? = .ok a → ∃ b, z.ticks? = .ok b ∧ a ≤ b

theorem Apart.grown {z : Item} (h : Apart m x y) (hz : Grown y z) : Apart m x z := by
  intro hx hl hw
  obtain ⟨a, b, ha, hb, hsum⟩ := h hx (hz.label ▸ hl) (hz.name ▸ hw)
  obtain ⟨c, hc, hle⟩ := hz.ticks (hz.name ▸ hw) b hb
  exact ⟨a, c, ha, hc, by omega⟩

/-- **What is merged is in normal form**, and its first item is the first one, grown. -/
theorem mergeFrom_normal (hx : Timely m x) (hr : ∀ y ∈ r, Timely m y) :
    ∃ z zs, mergeFrom m x r = .ok (z :: zs) ∧ (∀ y ∈ z :: zs, Timely m y) ∧ (z :: zs).IsChain (Apart m) ∧ Grown x z := by
  induction r generalizing x with
  | nil => exact ⟨x, [], rfl, by simpa using hx, .singleton x, rfl, rfl, fun _ a ha => ⟨a, ha, Int.le_refl a⟩⟩
  | cons y r ih =>
    rw [List.forall_mem_cons] at hr
    by_cases hmerge : ∃ a b, (x.name = "wait" ∧ y.label = "" ∧ y.name = "wait") ∧ x.ticks? = .ok a ∧ y.ticks? = .ok b ∧
        a + b < m
    · obtain ⟨a, b, hw, ha, hb, hsum⟩ := hmerge
      obtain ⟨c, hc, ha1, -⟩ := hx hw.1
      obtain ⟨d, hd, hb1, -⟩ := hr.1 hw.2.2
      obtain rfl := Except.ok.inj (ha.symm.trans hc)
      obtain rfl := Except.ok.inj (hb.symm.trans hd)
      rw [mergeFrom_sum hw ha hb hsum, withTicks_eq hw.1]
      obtain ⟨z, zs, hzs, htimely, hchain, hlabel, hname, hticks⟩ :=
        ih (timely_waitItem x.label (x.operands.drop 1) (n := a + b) (by omega) (by omega)) hr.2
      refine ⟨z, zs, hzs, htimely, hchain, hlabel, hname.trans hw.1.symm, fun _ c hc => ?_⟩
      obtain rfl := Except.ok.inj (ha.symm.trans hc)
      obtain ⟨d, hd, hle⟩ := hticks rfl (a + b) (ticks?_waitItem _ _ _)
      exact ⟨d, hd, by omega⟩
    · have hapart : Apart m x y := by
        intro hxw hl hyw
        obtain ⟨a, ha, -⟩ := hx hxw
        obtain ⟨b, hb, -⟩ := hr.1 hyw
        exact ⟨a, b, ha, hb, Int.not_lt.1 fun hsum => hmerge ⟨a, b, ⟨hxw, hl, hyw⟩, ha, hb, hsum⟩⟩
      obtain ⟨z, zs, hzs, htimely, hchain, hgrown⟩ := ih hr.1 hr.2
      refine ⟨x, z :: zs, by rw [mergeFrom_apart hapart, hzs]; rfl, List.forall_mem_cons.2 ⟨hx, htimely⟩, ?_, rfl, rfl,
        fun _ a ha => ⟨a, ha, Int.le_refl a⟩⟩
      exact List.isChain_cons_cons.2 ⟨hapart.grown hgrown, hchain⟩

theorem mergeWaits_normal (h : ∀ x ∈ r, Timely m x) :
    ∃ ys, mergeWaits m r = .ok ys ∧ (∀ y ∈ ys, Timely m y) ∧ ys.IsChain (Apart m) := by
  cases r with
  | nil => exact ⟨[], rfl, by simp, .nil⟩
  | cons x r =>
    rw [List.forall_mem_cons] at h
    obtain ⟨z, zs, hzs, htimely, hchain, -⟩ := mergeFrom_normal h.1 h.2
    exact ⟨z :: zs, hzs, htimely, hchain⟩

theorem splitWaits_eq_self (h : ∀ x ∈ r, Timely m x) : splitWaits m r = .ok r := by
  induction r with
  | nil => rfl
  | cons x r ih =>
    rw [List.forall_mem_cons] at h
    have hx : splitWait m x = .ok [x] := by
      by_cases hw : x.name = "wait"
      · obtain ⟨n, hn, h1, hle⟩ := h.1 hw
        obtain ⟨as, has⟩ := splitWait_ticks (m := m) hw hn
        rcases splitWait_cases (by omega) has with ⟨rfl, -⟩ | ⟨-, k, hk, hlong, -⟩
        · exact has
        · obtain rfl := Except.ok.inj (hn.symm.trans hk)
          omega
      · exact if_neg hw
    rw [splitWaits, hx, ih h.2]
    rfl

theorem mergeWaits_eq_self (h : r.IsChain (Apart m)) : mergeWaits m r = .ok r := by
  cases r with
  | nil => rfl
  | cons x r =>
    rw [mergeWaits]
    induction r generalizing x with
    | nil => rfl
    | cons y r ih =>
      rw [List.isChain_cons_cons] at h
      rw [mergeFrom_apart h.1, ih y h.2]
      rfl

/-- A wait that the machine can count is not refused for its length. -/
theorem Timely.encode_ne {cfg : Settings} (hmin : cfg.minWait ≤ 1) (h : Timely cfg.maxWait x) (hw : x.name = "wait")
    (s : String) : encode cfg x.name x.operands ≠ .error (.waitRange s) := by
  obtain ⟨n, hn, h1, hle⟩ := h hw
  rw [hw]
  rw [Item.ticks?] at hn
  simp only [encode, encodeWait]
  split at hn
  · cases hn
  · rename_i op rest hops
    split at hn
    · rename_i k hk
      cases hn
      rw [hops]
      cases rest with
      | nil =>
        simp only [hk, if_neg (show ¬(n < cfg.minWait ∨ n > cfg.maxWait) by omega)]
        cases op with
        | number => simp
        | word =>
          simp only
          split <;> simp
      | cons => simp
    · cases hn

end

/-- **Waits reach a normal form.** Where all waits are positive, both loops end without an error; each wait is then between
one tick and the longest wait and is not refused, no wait stands before one without a label with which it would still be
shorter than the longest wait, and both passes leave everything as it is. -/
theorem waits_normalForm {cfg : Settings} (hmin : cfg.minWait ≤ 1) (hmax : 1 ≤ cfg.maxWait) {xs : List Item}
    (h : ∀ x ∈ xs, x.name = "wait" → ∃ n, x.ticks? = .ok n ∧ 0 < n) :
    ∃ split out, splitWaits cfg.maxWait xs = .ok split ∧ mergeWaits cfg.maxWait split = .ok out ∧
      (∃ s, Runs (splitStep cfg.maxWait) { items := xs } (.ok s) ∧ s.items = split) ∧
      (∀ e, ¬Runs (splitStep cfg.maxWait) { items := xs } (.error e)) ∧
      (∃ s, Runs (mergeStep cfg.maxWait) { items := split } (.ok s) ∧ s.items = out) ∧
      (∀ x ∈ out, x.name = "wait" → (∃ n, x.ticks? = .ok n ∧ 1 ≤ n ∧ n ≤ cfg.maxWait) ∧
        ∀ s, encode cfg x.name x.operands ≠ .error (.waitRange s)) ∧
      (∀ x y, [x, y] <:+: out → x.name = "wait" → y.label = "" → y.name = "wait" →
        ∃ a b, x.ticks? = .ok a ∧ y.ticks? = .ok b ∧ cfg.maxWait ≤ a + b) ∧
      splitWaits cfg.maxWait out = .ok out ∧ mergeWaits cfg.maxWait out = .ok out := by
  obtain ⟨split, hsplit, htimely⟩ := splitWaits_timely (show 0 < cfg.maxWait by omega) h
  obtain ⟨out, hout, hnormal, hchain⟩ := mergeWaits_normal htimely
  obtain ⟨s, hs, hitems⟩ := splitWaits_runs [] (b := none) (show 0 < cfg.maxWait by omega) hsplit (by simp)
  have hnoerror : ∀ e, ¬Runs (splitStep cfg.maxWait) { items := xs } (.error e) := by
    intro e he
    have := hs.unique he
    simp at this
  refine ⟨split, out, hsplit, hout, ⟨s, hs, hitems⟩, hnoerror, ?_,
    fun x hx hw => ⟨hnormal x hx hw, fun s => (hnormal x hx).encode_ne hmin hw s⟩,
    fun x y hxy => (List.isChain_cons_cons.1 ( List.IsChain.infix hchain hxy)).1, splitWaits_eq_self hnormal,
    mergeWaits_eq_self hchain⟩
  cases split with
  | nil =>
    cases hout
    exact ⟨_, .stop rfl, rfl⟩
  | cons x r => exact mergeFrom_runs [] hout

/-- A wait of three times the longest one and one tick, and waits of which the first two fit together. -/
theorem waits_normalForm_long :
    ∃ split out, splitWaits 32767 [⟨"a", "wait", [.word "98302"]⟩, ⟨"", "wait", [.word "32765"]⟩, ⟨"", "wait", [.word "1"]⟩] =
        .ok split ∧ mergeWaits 32767 split = .ok out ∧
      (∃ s, Runs (splitStep 32767) { items := [⟨"a", "wait", [.word "98302"]⟩, ⟨"", "wait", [.word "32765"]⟩,
        ⟨"", "wait", [.word "1"]⟩] } (.ok s) ∧ s.items = split) ∧
      splitWaits 32767 out = .ok out ∧ mergeWaits 32767 out = .ok out := by
  have hpos : ∀ x ∈ [(⟨"a", "wait", [.word "98302"]⟩ : Item), ⟨"", "wait", [.word "32765"]⟩, ⟨"", "wait", [.word "1"]⟩],
      x.name = "wait" → ∃ n, x.ticks? = .ok n ∧ 0 < n := by
    simp only [List.forall_mem_cons, List.not_mem_nil, false_imp_iff, implies_true, and_true]
    exact ⟨fun _ => ⟨98302, by decide +kernel, by decide⟩, fun _ => ⟨32765, by decide +kernel, by decide⟩,
      fun _ => ⟨1, by decide +kernel, by decide⟩⟩
  obtain ⟨split, out, hsplit, hout, hruns, -, -, -, -, hsame, hmerged⟩ :=
    @waits_normalForm {} (by decide) (by decide) _ hpos
  exact ⟨split, out, hsplit, hout, hruns, hsame, hmerged⟩

end QubitLab.Qumis
