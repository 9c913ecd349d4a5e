import Mathlib
import QubitLab.Readout.Outcomes

/-!
# Runs of outcomes

The runs of a series are its longest segments of equal outcomes (`runs`). Both ways of counting go through a series one
run at a time (`count_run`). In a series of two outcomes the runs take turns (`Alternate`).
`runs_counted`: the lengths that are counted are those of all runs but the last, and with the two outcomes counted apart
those of the runs of each.
-/

namespace QubitLab.Readout

open List

variable {α : Type} [BEq α] {one minusOne v w : α} {run : List α} {rs : List (List α)}

/-- The longest segments of equal outcomes. -/
def runs (xs : List α) : List (List α) := xs.splitBy (· == ·)

/-- Each list is a run, and the next one starts with another outcome than it ends with. -/
structure AreRuns (rs : List (List α)) : Prop where
  nonempty : [] ∉ rs
  equal : ∀ run ∈ rs, run.IsChain (· == ·)
  differ : rs.IsChain fun a b => ∃ ha hb, (a.getLast ha == b.head hb) = false

theorem AreRuns.tail (h : AreRuns (run :: rs)) : AreRuns rs :=
  ⟨fun hmem => h.nonempty (mem_cons_of_mem _ hmem), fun r hr => h.equal r (mem_cons_of_mem _ hr), h.differ.tail⟩

theorem AreRuns.exists_cons (h : AreRuns (run :: rs)) : ∃ a xs, run = a :: xs :=
  exists_cons_of_ne_nil fun hnil => h.nonempty (hnil ▸ mem_cons_self)

theorem runs_eq_cons (a : α) (xs : List α) :
    ∃ ys rs, runs (a :: xs) = (a :: ys) :: rs ∧ xs = ys ++ rs.flatten ∧ AreRuns ((a :: ys) :: rs) := by
  have hflat : (runs (a :: xs)).flatten = a :: xs := flatten_splitBy _ _
  have hruns : AreRuns (runs (a :: xs)) :=
    ⟨nil_notMem_splitBy _ _, fun _ => isChain_of_mem_splitBy, isChain_getLast_head_splitBy _ _⟩
  rcases h : runs (a :: xs) with _ | ⟨run, rs⟩
  · rw [h] at hflat
    cases hflat
  · rw [h] at hflat hruns
    obtain ⟨b, ys, rfl⟩ := hruns.exists_cons
    obtain ⟨rfl, rfl⟩ := List.cons.inj hflat
    exact ⟨ys, rs, rfl, rfl, hruns⟩

/-! ## Runs in turn -/

/-- The lengths of the runs of one outcome. -/
def lengthsOf (v : α) (rs : List (List α)) : List Nat := (rs.filter (·.all (· == v))).map length

/-- Entries of two lists in turn, starting with the first list. -/
def interleave {β : Type} : List β → List β → List β
  | [], ys => ys
  | x :: xs, ys => x :: interleave ys xs
termination_by xs ys => xs.length + ys.length

theorem sum_interleave (xs ys : List Nat) : (interleave xs ys).sum = xs.sum + ys.sum := by
  fun_induction interleave xs ys with
  | case1 ys => simp
  | case2 x xs ys ih => rw [sum_cons, sum_cons, ih, Nat.add_comm ys.sum, Nat.add_assoc]

/-- The runs are of two outcomes in turn, first of `v`. -/
inductive Alternate : α → α → List (List α) → Prop
  | nil (v w : α) : Alternate v w []
  | cons {v w : α} {run : List α} {rs : List (List α)} (hv : run.all (· == v) = true) (hw : run.all (· == w) = false)
    (hrs : Alternate w v rs) : Alternate v w (run :: rs)

theorem Alternate.of_append {ended rest : List (List α)} (h : Alternate v w (ended ++ rest)) : Alternate v w ended := by
  induction ended generalizing v w with
  | nil => exact .nil v w
  | cons run rs ih =>
    cases h with
    | cons hv hw hrs => exact .cons hv hw (ih hrs)

theorem Alternate.interleave (h : Alternate v w rs) :
    interleave (lengthsOf v rs) (lengthsOf w rs) = rs.map length ∧
      (lengthsOf v rs).length = (rs.length + 1) / 2 ∧ (lengthsOf w rs).length = rs.length / 2 := by
  induction h with
  | nil v w => simp [lengthsOf, Readout.interleave]
  | @cons v w run rs hv hw _ ih =>
    have hlv : lengthsOf v (run :: rs) = run.length :: lengthsOf v rs := by simp [lengthsOf, hv]
    have hlw : lengthsOf w (run :: rs) = lengthsOf w rs := by simp [lengthsOf, hw]
    rw [hlv, hlw, Readout.interleave, ih.1, length_cons, length_cons, ih.2.1, ih.2.2]
    exact ⟨rfl, by omega, rfl⟩

variable [EquivBEq α]

theorem all_of_isChain {a : α} {xs : List α} (h : (a :: xs).IsChain (· == ·)) (hv : a == v) :
    (a :: xs).all (· == v) = true := by
  induction xs generalizing a with
  | nil => simpa using hv
  | cons b xs ih =>
    obtain ⟨hab, h⟩ := isChain_cons_cons.1 h
    rw [all_cons, hv, Bool.true_and, ih h (BEq.trans (BEq.symm hab) hv)]

theorem AreRuns.head_beq_last {b : α} {xs : List α} (h : AreRuns (run :: (b :: xs) :: rs)) (hne : run ≠ []) :
    (b == run.getLast hne) = false := by
  obtain ⟨⟨_, _, hdiffer⟩, -⟩ := isChain_cons_cons.1 h.differ
  rwa [BEq.comm]

theorem AreRuns.alternate (h : AreRuns rs) (hvw : (v == w) = false) (hall : ∀ s ∈ rs.flatten, s == v ∨ s == w)
    (hfirst : ∀ s ∈ rs.flatten.head?, s == v) : Alternate v w rs := by
  induction rs generalizing v w with
  | nil => exact .nil v w
  | cons run rs ih =>
    obtain ⟨a, xs, rfl⟩ := h.exists_cons
    have hav : a == v := hfirst a rfl
    have hrun := all_of_isChain (h.equal _ mem_cons_self) hav
    refine .cons hrun ?_ (ih h.tail (by rw [BEq.comm, hvw]) (fun s hs => (hall s (mem_append_right _ hs)).symm) ?_)
    · have haw : (a == w) = false := by rw [BEq.congr_left hav, hvw]
      rw [all_cons, haw, Bool.false_and]
    · cases rs with
      | nil => simp
      | cons next rs =>
        -- the next run starts with an outcome that differs from the last one of this run, which is `v`
        obtain ⟨b, ys, rfl⟩ := h.tail.exists_cons
        rintro _ ⟨⟩
        refine (hall b (mem_append_right _ mem_cons_self)).resolve_left fun hbv => ?_
        have hlast := all_eq_true.1 hrun _ (getLast_mem (cons_ne_nil a xs))
        exact Bool.false_ne_true ((h.head_beq_last _).symm.trans (BEq.trans hbv (BEq.symm hlast)))

/-! ## Counting -/

/-- A count that goes on while outcomes are equal goes through a run at once. -/
theorem count_run {β : Type} {count : α → Nat → List α → β}
    (hstep : ∀ a n b r, b == a → count a n (b :: r) = count b (n + 1) r) {a : α} {xs : List α}
    (h : (a :: xs).IsChain (· == ·)) (n : Nat) (rest : List α) :
    count a n (xs ++ rest) = count ((a :: xs).getLast (cons_ne_nil a xs)) (n + xs.length) rest := by
  induction xs generalizing a n with
  | nil => rfl
  | cons b xs ih =>
    obtain ⟨hab, h⟩ := isChain_cons_cons.1 h
    rw [cons_append, hstep a n b _ (BEq.symm hab), ih h, getLast_cons (cons_ne_nil b xs), length_cons, Nat.add_right_comm,
      Nat.add_assoc]

theorem runLengthsFrom_run {a : α} {xs : List α} (h : (a :: xs).IsChain (· == ·)) (n : Nat) (rest : List α) :
    runLengthsFrom a n (xs ++ rest) = runLengthsFrom ((a :: xs).getLast (cons_ne_nil a xs)) (n + xs.length) rest :=
  count_run (fun _ _ _ _ hb => by rw [runLengthsFrom, if_pos hb]) h n rest

theorem splitRunsFrom_run {a : α} {xs : List α} (h : (a :: xs).IsChain (· == ·)) (n : Nat) (rest : List α) :
    splitRunsFrom one minusOne a n (xs ++ rest) =
      splitRunsFrom one minusOne ((a :: xs).getLast (cons_ne_nil a xs)) (n + xs.length) rest :=
  count_run (fun _ _ _ _ hb => by rw [splitRunsFrom, if_pos hb]) h n rest

theorem runLengthsFrom_flatten (h : AreRuns (run :: rs)) (hne : run ≠ []) :
    runLengthsFrom (run.getLast hne) run.length rs.flatten = ((run :: rs).map length).dropLast := by
  induction rs generalizing run with
  | nil => rfl
  | cons next rs ih =>
    obtain ⟨b, xs, rfl⟩ := h.tail.exists_cons
    rw [flatten_cons, cons_append, runLengthsFrom, h.head_beq_last hne, if_neg Bool.false_ne_true,
      runLengthsFrom_run (h.tail.equal _ mem_cons_self), Nat.add_comm 1]
    exact congrArg (run.length :: ·) (ih h.tail (cons_ne_nil b xs))

/-- A length is noted under the outcome that follows the run, so while runs take turns it is one of the other outcome. -/
theorem splitRunsFrom_flatten (h : AreRuns (run :: rs)) (hne : run ≠ []) (hrs : Alternate v w (run :: rs))
    (hvw : v = one ∧ w = minusOne ∨ v = minusOne ∧ w = one) (hdiff : (one == minusOne) = false) :
    splitRunsFrom one minusOne (run.getLast hne) run.length rs.flatten =
      some (lengthsOf minusOne (run :: rs).dropLast, lengthsOf one (run :: rs).dropLast) := by
  induction rs generalizing run v w with
  | nil => rfl
  | cons next rs ih =>
    obtain ⟨b, xs, rfl⟩ := h.tail.exists_cons
    cases hrs with
    | cons hv hw hrs =>
      have hnext := ih h.tail (cons_ne_nil b xs) hrs (hvw.symm.imp And.symm And.symm)
      have hbw : b == w := by
        cases hrs with
        | cons hall _ _ => exact all_eq_true.1 hall b mem_cons_self
      rw [flatten_cons, cons_append, splitRunsFrom, h.head_beq_last hne, if_neg Bool.false_ne_true,
        splitRunsFrom_run (h.tail.equal _ mem_cons_self), Nat.add_comm 1, ← length_cons (a := b), hnext]
      rcases hvw with ⟨rfl, rfl⟩ | ⟨rfl, rfl⟩
      · have hb : (b == v) = false := by rw [BEq.congr_left hbw, BEq.comm, hdiff]
        simp [hb, hbw, lengthsOf, hv, hw]
      · simp [hbw, lengthsOf, hv, hw]

/-- **Run lengths**: counting gives the lengths of all runs but the last. For a series of two outcomes, with the first of
them in front, it gives apart the lengths of the runs of each but for the last run: these take turns, and they make up
the series up to the last run. -/
theorem runs_counted :
    (∀ xs : List α, xs ≠ [] → runLengths? xs = some ((runs xs).map length).dropLast) ∧
      ∀ one minusOne : α, (one == minusOne) = false → ∀ xs : List α, (∀ s ∈ xs, s == one ∨ s == minusOne) →
        ∃ ended last, runs (one :: xs) = ended ++ [last] ∧
          splitRuns? one minusOne xs = some (lengthsOf minusOne ended, lengthsOf one ended) ∧
          interleave (lengthsOf one ended) (lengthsOf minusOne ended) = ended.map length ∧
          (lengthsOf one ended).length = (ended.length + 1) / 2 ∧ (lengthsOf minusOne ended).length = ended.length / 2 ∧
          (lengthsOf one ended).sum + (lengthsOf minusOne ended).sum + last.length = (one :: xs).length := by
  refine ⟨fun xs hne => ?_, fun one minusOne hdiff xs hall => ?_⟩
  · obtain ⟨a, xs, rfl⟩ := exists_cons_of_ne_nil hne
    obtain ⟨ys, rs, hruns, rfl, h⟩ := runs_eq_cons a xs
    rw [hruns, runLengths?, runLengthsFrom, if_pos BEq.rfl, runLengthsFrom_run (h.equal _ mem_cons_self), Nat.zero_add,
      Nat.add_comm 1]
    exact congrArg some (runLengthsFrom_flatten h (cons_ne_nil a ys))
  · obtain ⟨ys, rs, hruns, rfl, h⟩ := runs_eq_cons one xs
    have hturns : Alternate one minusOne ((one :: ys) :: rs) :=
      h.alternate hdiff (forall_mem_cons.2 ⟨.inl BEq.rfl, hall⟩) (by rintro _ ⟨⟩; exact BEq.rfl)
    have hsplit := splitRunsFrom_flatten h (cons_ne_nil one ys) hturns (.inl ⟨rfl, rfl⟩) hdiff
    have hend := dropLast_concat_getLast (cons_ne_nil (one :: ys) rs)
    have hflat : (one :: (ys ++ rs.flatten)).length = (((one :: ys) :: rs).map length).sum := by
      rw [← length_flatten]
      rfl
    generalize ((one :: ys) :: rs).dropLast = ended at hsplit hend
    generalize ((one :: ys) :: rs).getLast (cons_ne_nil (one :: ys) rs) = last at hend
    rw [← hend] at hturns hflat
    obtain ⟨hinter, hup, hdown⟩ := hturns.of_append.interleave
    refine ⟨ended, last, hruns.trans hend.symm, ?_, hinter, hup, hdown, ?_⟩
    · rw [splitRuns?, splitRunsFrom_run (h.equal _ mem_cons_self), Nat.add_comm 1]
      exact hsplit
    · rw [hflat, ← sum_interleave, hinter]
      simp

/-- A series that starts with -1 has the run of the +1 in front, and its last run is not counted. -/
theorem runs_counted_signs :
    (∃ ended last, runs [1, -1, -1, 1, -1, (1 : Int)] = ended ++ [last] ∧
      splitRuns? 1 (-1) [-1, -1, 1, -1, (1 : Int)] = some (lengthsOf (-1) ended, lengthsOf 1 ended)) ∧
      splitRuns? 1 (-1) [-1, -1, 1, -1, (1 : Int)] = some ([2, 1], [1, 1]) ∧
      runLengths? [1, 1, 2, 3, 3, (3 : Int)] = some [2, 1] := by
  obtain ⟨ended, last, hruns, hsplit, -⟩ :=
    runs_counted.2 1 (-1) (by decide) [-1, -1, 1, -1, (1 : Int)] (by decide)
  exact ⟨⟨ended, last, hruns, hsplit⟩, by decide, (runs_counted.1 [1, 1, 2, 3, 3, (3 : Int)] (by decide)).trans (by decide)⟩

end QubitLab.Readout
