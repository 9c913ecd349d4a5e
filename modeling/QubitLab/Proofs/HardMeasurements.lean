import Mathlib.Algebra.Order.BigOperators.Group.List
import Mathlib.Data.List.Forall2
import QubitLab.Proofs.RecordedMeans

/-!
# Hard measurements

`hard_measurement_tables`: a hard measurement ends with the means of what the detector gave for each point, in chunks of any
lengths. Its points are stamped into the table after each chunk, from the first row of the chunk to the end of the table. In
the first round the chunk is at the end, so all points get to their rows. In a later round a chunk of one point is written over
all rows behind it as well, and a longer chunk is left out unless it is the last (`stampAt`). So the points stay in their rows
if no longer chunk but the last follows a chunk of one point (`Steady`).

Along a plane a chunk of two points is taken for the points themselves, which have two coordinates, and the measurement fails.
-/

namespace QubitLab.Recording

open List

/-! ## Answers -/

/-- The answer gives a row of `v` values for each of its points. -/
inductive Answer.Gives (v : Nat) : Answer ℚ → List (List ℚ) → Prop
  | list (xs : List ℚ) (h : v = 1) : Gives v (.list xs) (xs.map fun x => [x])
  | grid (rows : List (List ℚ)) (h : ∀ row ∈ rows, row.length = v) : Gives v (.grid v rows) rows

namespace Answer.Gives

variable {v : Nat} {a : Answer ℚ} {rows : List (List ℚ)}

theorem width (h : Gives v a rows) : ∀ row ∈ rows, row.length = v := by
  cases h with
  | list xs hv =>
    rw [forall_mem_map]
    exact fun _ _ => hv.symm
  | grid rows h => exact h

theorem count_eq (h : Gives v a rows) : Answer.count v false a.shape = rows.length := by
  cases h with
  | list xs hv =>
    rw [shape, Answer.count, length_map, hv]
    split <;> omega
  | grid rows h => rfl

theorem chunk_eq (h : Gives v a rows) : a.chunk v rows.length = .ok rows := by
  cases h with
  | list xs hv => rw [chunk, spread?_of_length rfl, orFail]
  | grid rows h =>
    rw [chunk]
    induction rows with
    | nil => rfl
    | cons row rows ih =>
      rw [forall_mem_cons] at h
      rw [mapM_cons, spread?_of_length h.1, ih h.2]
      rfl

end Answer.Gives

/-! ## Stamps -/

/-- The point that stands at a row after `m` points were measured from `s` on and stamped into a table of `size` rows. -/
def stampAt (size s m : Nat) (source : Nat → Nat) (r : Nat) : Nat :=
  if s ≤ r then if s + m = size then r else if m = 1 then s else source r else source r

/-- The points that stand at the rows after the chunks of a round; after `s` points there are `size s` rows. -/
def stampRound (size : Nat → Nat) : (s : Nat) → List Nat → (Nat → Nat) → Nat → Nat
  | _, [], source => source
  | s, m :: ms, source => stampRound size (s + m) ms (stampAt (size (s + m)) s m source)

namespace Table

variable {w n s m : Nat} {f : Nat → Nat → ℚ}

/-- The rows from `s` on get points: each of them its own, or all of them one. -/
theorem write?_of {p : Points ℚ} (hp : ∀ row ∈ p.rows, row.length = p.columns) {ps qs : List (List ℚ)} {g : Nat → Nat}
    (hqs : spread? (n - s) ps = some qs) (hlength : qs.length = n - s)
    (hg : ∀ r, s ≤ r → r < n → g r < p.rows.length ∧ qs.getD (r - s) [] = p.rows.getD (g r) []) :
    (of w n f).write? s ps =
      some (of w n fun r c => if s ≤ r ∧ c < p.columns then entry p.rows (g r) c else f r c) := by
  have hrows : (of w n f).rows.length = n := by simp [of]
  rw [write?, hrows, hqs, Option.map_some]
  refine congrArg some ((congrArg (Table.mk w) (change_of _ 0 s w n qs f)).trans (of_congr fun r hr c _ => ?_))
  by_cases hsr : s ≤ r
  · obtain ⟨hgr, hq⟩ := hg r hsr hr
    have hwidth : (p.rows.getD (g r) []).length = p.columns := by
      rw [getD_eq_getElem _ _ hgr]
      exact hp _ (getElem_mem _)
    have hin : r < s + qs.length := by omega
    simp only [hsr, hin, hq, hwidth, entry, Nat.zero_le, Nat.zero_add, Nat.sub_zero, true_and]
  · rw [if_neg fun h => hsr h.1, if_neg fun h => hsr h.1]

theorem stamp_of {p : Points ℚ} {source : Nat → Nat} (hp : ∀ row ∈ p.rows, row.length = p.columns)
    (hline : p.across = m → p.columns = 1 ∧ p.rows.length = m) (hm : 0 < m) (hs : s + m ≤ n) (hn : n ≤ p.rows.length)
    (hf : ∀ r < n, (s + m = n → r < s) → ∀ c < p.columns, f r c = entry p.rows (source r) c) :
    (of w n f).stamp p.columns s m p =
      .ok (of w n fun r c => if c < p.columns then entry p.rows (stampAt n s m source r) c else f r c) := by
  -- What is written at the rows from `s` on, if anything is, are the points `g`.
  have hstamp (g : Nat → Nat) (hg : ∀ r, s ≤ r → r < n → g r = stampAt n s m source r) :
      (of w n fun r c => if s ≤ r ∧ c < p.columns then entry p.rows (g r) c else f r c) =
        of w n fun r c => if c < p.columns then entry p.rows (stampAt n s m source r) c else f r c := by
    refine of_congr fun r hr c _ => ?_
    by_cases hc : c < p.columns
    · by_cases hsr : s ≤ r
      · rw [if_pos ⟨hsr, hc⟩, if_pos hc, hg r hsr hr]
      · rw [if_neg fun h => hsr h.1, if_pos hc, stampAt, if_neg hsr, hf r hr (fun _ => by omega) c hc]
    · rw [if_neg fun h => hc h.2, if_neg hc]
  by_cases hacross : p.across = m
  · obtain ⟨hcolumns, hlength⟩ := hline hacross
    obtain ⟨rfl, rfl⟩ : s = 0 ∧ n = m := by omega
    have hown (r : Nat) (_ : 0 ≤ r) (hr : r < n) : r < p.rows.length ∧ p.rows.getD (r - 0) [] = p.rows.getD r [] :=
      ⟨by omega, rfl⟩
    rw [stamp, if_pos hacross, if_pos hcolumns, write?_of hp (spread?_of_length hlength) hlength hown]
    exact congrArg Except.ok (hstamp id fun r _ _ => by simp [stampAt])
  have hmeasured (i : Nat) (hi : i < m) : ((p.rows.drop s).take m).getD i [] = p.rows.getD (s + i) [] := by
    rw [getD_eq_getElem?_getD, getElem?_take_of_lt hi, getElem?_drop, getD_eq_getElem?_getD]
  have hlength : ((p.rows.drop s).take m).length = m := by
    rw [length_take, length_drop]
    omega
  rw [stamp, if_neg hacross, if_pos rfl]
  refine congrArg Except.ok ?_
  by_cases hlast : s + m = n
  · have hown (r : Nat) (hsr : s ≤ r) (hr : r < n) :
        r < p.rows.length ∧ ((p.rows.drop s).take m).getD (r - s) [] = p.rows.getD r [] := by
      refine ⟨by omega, ?_⟩
      rw [hmeasured _ (by omega), Nat.add_sub_cancel' hsr]
    have hrest : ((p.rows.drop s).take m).length = n - s := by omega
    rw [write?_of hp (spread?_of_length hrest) hrest hown]
    exact hstamp id fun r hsr _ => by simp [stampAt, hsr, hlast]
  by_cases hone : m = 1
  · subst hone
    obtain ⟨row, hsingle⟩ := length_eq_one_iff.1 hlength
    have hsame (r : Nat) (hsr : s ≤ r) (hr : r < n) :
        s < p.rows.length ∧ (List.replicate (n - s) row).getD (r - s) [] = p.rows.getD s [] := by
      have hfirst := hmeasured 0 hm
      rw [hsingle, Nat.add_zero] at hfirst
      refine ⟨by omega, ?_⟩
      rw [getD_replicate _ (by omega), ← hfirst]
      rfl
    rw [hsingle, write?_of hp rfl length_replicate hsame]
    exact hstamp (fun _ => s) fun r hsr _ => by simp [stampAt, hsr, hlast]
  · have hnone : (of w n f).write? s ((p.rows.drop s).take m) = none := by
      have hrows : (of w n f).rows.length = n := by simp [of]
      rw [write?, spread?_eq_none (by omega) (by omega), Option.map_none]
    rw [hnone, Option.getD_none]
    refine of_congr fun r hr c _ => ?_
    have hkept : stampAt n s m source r = source r := by simp [stampAt, hlast, hone]
    split
    · rw [hkept, hf r hr (fun h => absurd h hlast) c ‹_›]
    · rfl

end Table

/-! ## Chunks -/

/-- The table of a measurement: at each row a point, `source` says which, and the means of what was seen. -/
def Points.recorded (p : Points ℚ) (v : Nat) (source : Nat → Nat) (done : List (List (List ℚ)))
    (begun : List (List ℚ)) : Table ℚ :=
  .of (p.columns + v) (rowCount p.rows.length begun.length done) fun r c =>
    if c < p.columns then entry p.rows (source r) c else meanAt (seen done begun r) (c - p.columns)

/-- The points have their coordinates, and a chunk of `m` of them is not taken for a row of coordinates. -/
structure Points.Takes (p : Points ℚ) (m : Nat) : Prop where
  width : ∀ row ∈ p.rows, row.length = p.columns
  line : p.across = m → p.columns = 1 ∧ p.rows.length = m

variable {b : Bench}

section

variable {p : Points ℚ} {v k : Nat} {source : Nat → Nat} {done : List (List (List ℚ))} {begun news : List (List ℚ)}

theorem recorded_chunk (hp : p.Takes news.length) (hnews : ∀ row ∈ news, row.length = v) (hpos : 0 < news.length)
    (hfits : begun.length + news.length ≤ p.rows.length) :
    ((((p.recorded v source done begun).extended (begun.length + news.length)).average done.length begun.length
      p.columns news).stamp p.columns begun.length news.length p) =
      .ok (p.recorded v (stampAt (rowCount p.rows.length (begun.length + news.length) done) begun.length news.length
        source) done (begun ++ news)) := by
  have hsize : begun.length + news.length ≤ rowCount p.rows.length (begun.length + news.length) done ∧
      rowCount p.rows.length (begun.length + news.length) done ≤ p.rows.length := by
    cases done <;> simp only [rowCount] <;> omega
  rw [Points.recorded, Table.average_round (fun r c hc => if_neg (Nat.not_lt.2 hc)) (fun row hrow => congrArg _ (hnews row hrow))
    hfits, Table.stamp_of hp.width hp.line hpos hsize.1 hsize.2]
  · rw [Points.recorded, length_append]
    refine congrArg Except.ok (Table.of_congr fun r _ c _ => ?_)
    by_cases hc : c < p.columns
    · rw [if_pos hc, if_pos hc]
    · rw [if_neg hc, if_pos (Nat.not_lt.1 hc), if_neg hc]
  · intro r hr hbefore c hc
    rw [if_neg (Nat.not_le.2 hc), if_pos hc, if_pos]
    cases done with
    | nil => exact hbefore rfl
    | cons round done => exact hr

/-- What a bench has after chunks. -/
structure Bench.Recorded (b : Bench) (p : Points ℚ) (v : Nat) (source : Nat → Nat) (done : List (List (List ℚ)))
    (begun : List (List ℚ)) : Prop where
  acquired : b.acquired = done.length * p.rows.length + begun.length
  table : b.table = p.recorded v source done begun

namespace Bench

/-- A chunk is averaged with the rows it belongs to, and its points are stamped. -/
theorem measureChunk_eq {a : Answer ℚ} {rest : List (Answer ℚ)} {m s : Nat} (hn : 0 < p.rows.length)
    (hpending : b.pending = a :: rest) (hcount : Answer.count v false a.shape = m)
    (hstart : b.acquired % p.rows.length = s)
    (hchunk : a.chunk ((b.table.extended (s + m)).width - p.columns) m = .ok news) :
    (hard p v k).measureChunk b =
      (((b.table.extended (s + m)).average (b.acquired / p.rows.length) s p.columns news).stamp p.columns s m p).map
        fun t => ((), { b with
          acquired := b.acquired + m, round := b.acquired / p.rows.length, iteration := b.iteration + 1, table := t,
          pending := rest, trace := .acquire :: b.trace }) := by
  have hvalues : (hard p v k).values b = _ := answer_eq hpending
  have hadvance (b : Bench) : (hard p v k).advance m b = _ := advance_eq hn m b
  rw [HardApparatus.measureChunk, bind_eq hvalues]
  dsimp only
  rw [bind_eq (show (hard p v k).names _ = .ok (v, _) from rfl), bind_eq (show (hard p v k).isSoft _ = .ok (false, _) from rfl),
    hcount, bind_eq (hadvance _)]
  dsimp only
  rw [hstart, bind_eq (show (hard p v k).sweeps _ = .ok (p.columns, _) from rfl),
    bind_eq (show (hard p v k).table.get _ = .ok (_, _) from rfl), bind_eq (lift_eq hchunk _),
    bind_eq (show (hard p v k).round.get _ = .ok (_, _) from rfl), bind_eq (show (hard p v k).points _ = .ok (p, _) from rfl)]
  dsimp only
  cases Table.stamp _ p.columns s m p <;> rfl

theorem Recorded.chunk (h : b.Recorded p v source done begun) {a : Answer ℚ} {rest : List (Answer ℚ)}
    (hpending : b.pending = a :: rest) (ha : a.Gives v news) (hp : p.Takes news.length) (hpos : 0 < news.length)
    (hfits : begun.length + news.length ≤ p.rows.length) :
    ∃ b', (hard p v k).measureChunk b = .ok ((), b') ∧ b'.pending = rest ∧
      b'.Recorded p v (stampAt (rowCount p.rows.length (begun.length + news.length) done) begun.length news.length source)
        done (begun ++ news) := by
  obtain ⟨hstart, hround⟩ := row_and_round h.acquired (by omega)
  have hwidth : (b.table.extended (begun.length + news.length)).width - p.columns = v := by
    rw [h.table]
    exact Nat.add_sub_cancel_left _ _
  have hchunk := measureChunk_eq (k := k) (by omega) hpending ha.count_eq hstart (hwidth ▸ ha.chunk_eq)
  rw [hround, h.table, recorded_chunk hp ha.width hpos hfits] at hchunk
  refine ⟨_, hchunk, rfl, ?_, rfl⟩
  rw [length_append, ← Nat.add_assoc, ← h.acquired]

theorem measureHard_succ (hpos : 0 < p.rows.length * k) (fuel : Nat) (b : Bench) :
    (hard p v k).measureHard (fuel + 1) b =
      if b.acquired < p.rows.length * k then
        ((hard p v k).measureChunk >>= fun _ => (hard p v k).measureHard fuel)
          { b with round := b.acquired / p.rows.length }
      else .ok ((), b) := by
  obtain ⟨percent, hpercent, hlt⟩ := percentDone_lt b.acquired hpos
  have hnext : (hard p v k).nextRow b = _ := nextRow_eq (Nat.pos_of_mul_pos_right hpos) b
  rw [HardApparatus.measureHard, bind_eq (show (hard p v k).acquired.get _ = .ok (_, _) from rfl),
    bind_eq (show (hard p v k).pointCount _ = .ok (_, _) from rfl), bind_eq (show (hard p v k).rounds _ = .ok (k, _) from rfl),
    bind_eq (lift_eq hpercent _)]
  by_cases h : b.acquired < p.rows.length * k
  · rw [if_pos (hlt.2 h), if_pos h, bind_eq hnext, bind_eq (show (hard p v k).aim _ _ = .ok ((), _) from rfl)]
    rw [discard, LawfulFunctor.map_const, Function.comp_apply, bind_map_left]
  · rw [if_neg (by rwa [hlt]), if_neg h]
    rfl

theorem Recorded.chunks (h : b.Recorded p v source done begun) {cs : List (List (List ℚ))}
    {answers later : List (Answer ℚ)} (hpending : b.pending = answers ++ later)
    (hanswers : List.Forall₂ (Answer.Gives v) answers cs) (hcs : ∀ c ∈ cs, 0 < c.length ∧ p.Takes c.length)
    (hfits : begun.length + cs.flatten.length ≤ p.rows.length) (hdone : done.length < k) (fuel : Nat) :
    ∃ b', (hard p v k).measureHard (cs.length + fuel) b = (hard p v k).measureHard fuel b' ∧ b'.pending = later ∧
      b'.Recorded p v (stampRound (fun s => rowCount p.rows.length s done) begun.length (cs.map List.length) source) done
        (begun ++ cs.flatten) := by
  induction hanswers generalizing b source begun with
  | nil => exact ⟨b, by rw [length_nil, Nat.zero_add], hpending, by simpa [stampRound] using h⟩
  | @cons a c answers cs ha _ ih =>
    rw [forall_mem_cons] at hcs
    rw [flatten_cons, length_append] at hfits
    have hlt : b.acquired < p.rows.length * k := by
      have hle : (done.length + 1) * p.rows.length ≤ k * p.rows.length := Nat.mul_le_mul_right _ hdone
      rw [h.acquired, Nat.mul_comm _ k]
      rw [Nat.succ_mul] at hle
      omega
    have hround : Recorded { b with round := b.acquired / p.rows.length } p v source done begun := ⟨h.acquired, h.table⟩
    obtain ⟨b', hstep, hrest, h'⟩ := hround.chunk (k := k) hpending ha hcs.1.2 hcs.1.1 (by omega)
    obtain ⟨b'', hrun, hlater, h''⟩ := ih h' hrest hcs.2 (by rw [length_append]; omega)
    refine ⟨b'', ?_, hlater, ?_⟩
    · rw [length_cons, Nat.succ_add, measureHard_succ (by omega), if_pos hlt, bind_eq hstep, hrun]
    · rw [append_assoc, length_append] at h''
      exact h''

theorem Recorded.finish (h : b.Recorded p v source done begun) (hbegun : begun.length = p.rows.length) :
    b.Recorded p v source (done ++ [begun]) [] := by
  refine ⟨?_, ?_⟩
  · rw [h.acquired, hbegun, length_append, Nat.add_mul, length_singleton, Nat.one_mul]
    rfl
  · rw [h.table, Points.recorded, Points.recorded, rowCount_append, rowCount_full hbegun]
    exact Table.of_congr fun r hr c _ => by rw [seen_done (by omega)]

theorem Recorded.rounds (h : b.Recorded p v source done []) (hdone : done ≠ []) (hpos : 0 < p.rows.length * k)
    {rounds : List (List (List (List ℚ)))} (hanswers : List.Forall₂ (Answer.Gives v) b.pending rounds.flatten)
    (hrounds : ∀ round ∈ rounds, round.flatten.length = p.rows.length ∧ ∀ c ∈ round, 0 < c.length ∧ p.Takes c.length)
    (hk : done.length + rounds.length = k) {fuel : Nat} (hfuel : rounds.flatten.length ≤ fuel) :
    ∃ b', (hard p v k).measureHard fuel b = .ok ((), b') ∧
      b'.Recorded p v (rounds.foldl (fun source round => stampRound (fun _ => p.rows.length) 0 (round.map List.length) source)
        source) (done ++ rounds.map List.flatten) [] := by
  induction rounds generalizing b source done fuel with
  | nil =>
    rw [length_nil, Nat.add_zero] at hk
    refine ⟨b, ?_, by simpa using h⟩
    cases fuel with
    | zero => rfl
    | succ fuel =>
      rw [measureHard_succ hpos, if_neg]
      rw [h.acquired, hk, Nat.mul_comm]
      exact Nat.lt_irrefl _
  | cons round rounds ih =>
    rw [forall_mem_cons] at hrounds
    rw [length_cons] at hk
    rw [flatten_cons] at hanswers hfuel
    rw [length_append] at hfuel
    have hsize : (fun s => rowCount p.rows.length s done) = fun _ => p.rows.length := by
      funext s
      cases done with
      | nil => exact absurd rfl hdone
      | cons => rfl
    obtain ⟨b', hrun, hrest, h'⟩ := h.chunks (k := k) (take_append_drop round.length b.pending).symm
      (forall₂_take_append _ _ _ hanswers) hrounds.1.2 (by simpa using hrounds.1.1.le) (by omega)
      (fuel - round.length)
    rw [nil_append, hsize] at h'
    obtain ⟨b'', hrun', h''⟩ := ih (h'.finish hrounds.1.1) (by simp)
      (hrest ▸ forall₂_drop_append _ _ _ hanswers) hrounds.2 (by rw [length_append, length_singleton]; omega)
      (show rounds.flatten.length ≤ fuel - round.length by omega)
    refine ⟨b'', ?_, ?_⟩
    · rw [show fuel = round.length + (fuel - round.length) by omega, hrun, hrun']
    · rw [append_assoc] at h''
      exact h''

end Bench

end

/-! ## Points in their rows -/

/-- After a chunk of one point all chunks but the last have one point. -/
def Steady (ms : List Nat) : Prop := ms.dropLast.Pairwise fun a b => a = 1 → b = 1

instance (ms : List Nat) : Decidable (Steady ms) := inferInstanceAs (Decidable (List.Pairwise _ _))

/-- The point that stands at a row at the end. The first round puts the points in their rows; each later round stamps them
again, chunk by chunk. -/
def sourceOf (n : Nat) (rounds : List (List Nat)) : Nat → Nat :=
  rounds.tail.foldl (fun source ms => stampRound (fun _ => n) 0 ms source) id

variable {r : Nat}

section

variable {n s : Nat} {ms : List Nat} {source : Nat → Nat}

theorem stampAt_one_lt (hs : s + 1 < n) (hr : s + 1 ≤ r) : stampAt n s 1 source r < s + 1 := by
  rw [stampAt, if_pos (by omega), if_neg (by omega), if_pos rfl]
  omega

theorem stampRound_first (s : Nat) (ms : List Nat) : stampRound (fun s => s) s ms id = id := by
  induction ms generalizing s with
  | nil => rfl
  | cons m ms ih =>
    have hown : stampAt (s + m) s m id = id := by
      funext r
      simp [stampAt]
    rw [stampRound, hown, ih]

theorem stampRound_before (size : Nat → Nat) (hr : r < s) : stampRound size s ms source r = source r := by
  induction ms generalizing s source with
  | nil => rfl
  | cons m ms ih => rw [stampRound, ih (by omega), stampAt, if_neg (by omega)]

/-- Rows of a round get their own points, if they have them before or if only the last chunk may have more than one point. -/
theorem stampRound_steady (hpos : ∀ m ∈ ms, 0 < m) (hsum : s + ms.sum = n) (hsteady : Steady ms)
    (hsource : (∀ r, s ≤ r → r < n → source r = r) ∨ ∀ m ∈ ms.dropLast, m = 1) (hsr : s ≤ r) (hr : r < n) :
    stampRound (fun _ => n) s ms source r = r := by
  induction ms generalizing s source with
  | nil =>
    rw [sum_nil] at hsum
    omega
  | cons m ms ih =>
    rw [forall_mem_cons] at hpos
    rw [sum_cons] at hsum
    rw [stampRound]
    rcases eq_or_ne ms [] with rfl | hms
    · rw [sum_nil] at hsum
      rw [stampRound, stampAt, if_pos hsr, if_pos (by omega)]
    rw [dropLast_cons_of_ne_nil hms] at hsource
    rw [Steady, dropLast_cons_of_ne_nil hms, pairwise_cons] at hsteady
    have hmore := List.sum_pos _ hpos.2 hms
    by_cases hone : m = 1
    · subst hone
      rcases hsr.eq_or_lt with rfl | hlt
      · rw [stampRound_before _ (by omega), stampAt]
        simp
      · exact ih hpos.2 (by omega) hsteady.2 (.inr fun m' hm' => hsteady.1 m' hm' rfl) (by omega)
    · have hown : ∀ r, s ≤ r → r < n → source r = r :=
        hsource.resolve_right fun h => hone (h m mem_cons_self)
      have hkept (r : Nat) : stampAt n s m source r = source r := by
        simp [stampAt, hone, show s + m ≠ n by omega]
      rcases Nat.lt_or_ge r (s + m) with hlt | hge
      · rw [stampRound_before _ hlt, hkept, hown r hsr hr]
      · refine ih hpos.2 (by omega) hsteady.2 (.inl fun r hsr hr => ?_) hge
        rw [hkept, hown r (by omega) hr]

/-- After a chunk of one point the later rows have an earlier point, and a longer chunk that is not the last leaves it there. -/
theorem stampRound_stale (hpos : ∀ m ∈ ms, 0 < m) (hsum : s + ms.sum = n) (hsource : ∀ r, s ≤ r → source r < s)
    (hlong : ∃ m ∈ ms.dropLast, m ≠ 1) : ∃ r < n, stampRound (fun _ => n) s ms source r ≠ r := by
  induction ms generalizing s source with
  | nil => simp at hlong
  | cons m ms ih =>
    rw [forall_mem_cons] at hpos
    rw [sum_cons] at hsum
    rcases eq_or_ne ms [] with rfl | hms
    · simp at hlong
    have hmore := List.sum_pos _ hpos.2 hms
    rw [dropLast_cons_of_ne_nil hms, exists_mem_cons_iff] at hlong
    by_cases hone : m = 1
    · subst hone
      have hs : s + 1 < n := by omega
      exact ih hpos.2 (by omega) (fun r hr => stampAt_one_lt hs hr) (hlong.resolve_left fun h => h rfl)
    · refine ⟨s, by omega, ?_⟩
      rw [stampRound, stampRound_before _ (by omega), stampAt, if_pos le_rfl, if_neg (by omega), if_neg hone]
      exact (hsource s le_rfl).ne

theorem stampRound_not_steady (hpos : ∀ m ∈ ms, 0 < m) (hsum : s + ms.sum = n) (hsteady : ¬Steady ms) :
    ∃ r < n, stampRound (fun _ => n) s ms source r ≠ r := by
  induction ms generalizing s source with
  | nil => exact absurd List.Pairwise.nil hsteady
  | cons m ms ih =>
    rw [forall_mem_cons] at hpos
    rw [sum_cons] at hsum
    rcases eq_or_ne ms [] with rfl | hms
    · exact absurd List.Pairwise.nil hsteady
    rw [Steady, dropLast_cons_of_ne_nil hms, pairwise_cons, not_and_or] at hsteady
    rw [stampRound]
    rcases hsteady with hlong | hsteady
    · push Not at hlong
      obtain ⟨m', hm', rfl, hone⟩ := hlong
      have hmore := List.sum_pos _ hpos.2 hms
      exact stampRound_stale hpos.2 (by omega) (fun r hr => stampAt_one_lt (by omega) hr) ⟨m', hm', hone⟩
    · exact ih hpos.2 (by omega) hsteady

theorem sourceOf_steady {rounds : List (List Nat)} (hrounds : ∀ ms ∈ rounds, (∀ m ∈ ms, 0 < m) ∧ ms.sum = n)
    (hsteady : ∀ ms ∈ rounds.tail, Steady ms) (hr : r < n) : sourceOf n rounds r = r := by
  have hfold : ∀ (later : List (List Nat)) (source : Nat → Nat), (∀ r < n, source r = r) →
      (∀ ms ∈ later, ((∀ m ∈ ms, 0 < m) ∧ ms.sum = n) ∧ Steady ms) →
        later.foldl (fun source ms => stampRound (fun _ => n) 0 ms source) source r = r := by
    intro later
    induction later with
    | nil => exact fun source hsource _ => hsource r hr
    | cons ms later ih =>
      intro source hsource hlater
      rw [forall_mem_cons] at hlater
      refine ih _ (fun r hr => ?_) hlater.2
      exact stampRound_steady hlater.1.1.1 (by rw [hlater.1.1.2, Nat.zero_add]) hlater.1.2 (.inl fun r _ hr => hsource r hr)
        (Nat.zero_le r) hr
  exact hfold _ id (fun _ _ => rfl) fun ms hms => ⟨hrounds ms (mem_of_mem_tail hms), hsteady ms hms⟩

theorem sourceOf_not_steady {rounds : List (List Nat)} (hrounds : ∀ ms ∈ rounds, (∀ m ∈ ms, 0 < m) ∧ ms.sum = n)
    {ms : List Nat} (hlast : rounds.tail.getLast? = some ms) (hsteady : ¬Steady ms) : ∃ r < n, sourceOf n rounds r ≠ r := by
  obtain ⟨later, hlater⟩ := getLast?_eq_some_iff.1 hlast
  have hms := hrounds ms (mem_of_mem_tail (hlater ▸ mem_append_right _ mem_cons_self))
  rw [sourceOf, hlater, foldl_append]
  exact stampRound_not_steady hms.1 (by rw [hms.2, Nat.zero_add]) hsteady

end

/-! ## Measurements -/

/-- Answers for `k` rounds over `n` points, in each round for one chunk of points after the other. -/
structure Rounds (n v k : Nat) (answers : List (Answer ℚ)) (rounds : List (List (List (List ℚ)))) : Prop where
  count : rounds.length = k
  gives : List.Forall₂ (Answer.Gives v) answers rounds.flatten
  total : ∀ round ∈ rounds, round.flatten.length = n
  filled : ∀ round ∈ rounds, ∀ c ∈ round, c ≠ []

def lengths (rounds : List (List (List (List ℚ)))) : List (List Nat) := rounds.map fun round => round.map List.length

/-- The means of the values that the rounds gave for a row. -/
def meansAt (v : Nat) (rounds : List (List (List (List ℚ)))) (r : Nat) : List ℚ :=
  (List.range v).map (meanAt (rounds.map fun round => round.flatten.getD r []))

section

variable {p : Points ℚ} {n v k fuel : Nat} {answers : List (Answer ℚ)} {rounds : List (List (List (List ℚ)))}

theorem Rounds.chunk_count (h : Rounds n v k answers rounds) : rounds.flatten.length ≤ n * k := by
  obtain ⟨rfl, -, htotal, hfilled⟩ := h
  clear answers
  induction rounds with
  | nil => exact Nat.zero_le _
  | cons round rounds ih =>
    rw [forall_mem_cons] at htotal hfilled
    have hround : round.length ≤ round.flatten.length := by
      rw [length_flatten, ← length_map List.length]
      exact length_le_sum_of_one_le _ (forall_mem_map.2 fun c hc => length_pos_iff.2 (hfilled.1 c hc))
    have hrest := ih htotal.2 hfilled.2
    rw [flatten_cons, length_append, length_cons, Nat.mul_succ]
    omega

theorem Rounds.lengths_sum (h : Rounds n v k answers rounds) : ∀ ms ∈ lengths rounds, (∀ m ∈ ms, 0 < m) ∧ ms.sum = n := by
  rw [lengths, forall_mem_map]
  refine fun round hround => ⟨?_, ?_⟩
  · rw [forall_mem_map]
    exact fun c hc => length_pos_iff.2 (h.filled round hround c hc)
  · rw [← length_flatten, h.total round hround]

/-- **A hard measurement** ends with the means of all rounds. -/
theorem measureHard_rounds (hn : 0 < p.rows.length) (hk : 0 < k) (h : Rounds p.rows.length v k answers rounds)
    (hp : ∀ round ∈ rounds, ∀ c ∈ round, p.Takes c.length) (hfuel : p.rows.length * k ≤ fuel) :
    ∃ b, (Bench.hard p v k).measureHard fuel (Bench.fresh p.columns v answers) = .ok ((), b) ∧
      b.table = p.recorded v (sourceOf p.rows.length (lengths rounds)) (rounds.map List.flatten) [] := by
  have hrounds : ∀ round ∈ rounds,
      round.flatten.length = p.rows.length ∧ ∀ c ∈ round, 0 < c.length ∧ p.Takes c.length := fun round hround =>
    ⟨h.total round hround, fun c hc => ⟨length_pos_iff.2 (h.filled round hround c hc), hp round hround c hc⟩⟩
  have hcount := h.chunk_count
  obtain ⟨hlength, hgives, -, -⟩ := h
  cases rounds with
  | nil => exact absurd hlength hk.ne
  | cons round rounds =>
    rw [forall_mem_cons] at hrounds
    rw [flatten_cons] at hgives hcount
    rw [length_append] at hcount
    rw [length_cons] at hlength
    have hfresh : (Bench.fresh p.columns v answers).Recorded p v id [] [] := ⟨(Nat.zero_mul _).symm, rfl⟩
    obtain ⟨b, hrun, hrest, hb⟩ := hfresh.chunks (k := k) (take_append_drop round.length answers).symm
      (forall₂_take_append _ _ _ hgives) hrounds.1.2 (by simpa using hrounds.1.1.le) hk (fuel - round.length)
    rw [nil_append, length_nil, show (fun s => rowCount p.rows.length s []) = fun s => s from rfl,
      stampRound_first] at hb
    obtain ⟨b', hrun', hb'⟩ := (hb.finish hrounds.1.1).rounds (k := k) (by simp) (Nat.mul_pos hn hk)
      (hrest ▸ forall₂_drop_append _ _ _ hgives) hrounds.2 (by simp; omega)
      (show rounds.flatten.length ≤ fuel - round.length by omega)
    refine ⟨b', ?_, ?_⟩
    · rw [show fuel = round.length + (fuel - round.length) by omega, hrun, hrun']
    · rw [hb'.table, sourceOf, lengths, map_cons, tail_cons, foldl_map, nil_append, map_cons]
      rfl

theorem recorded_rows (hrounds : rounds ≠ []) (source : Nat → Nat) :
    (p.recorded v source (rounds.map List.flatten) []).rows = (List.range p.rows.length).map fun r =>
      (List.range p.columns).map (entry p.rows (source r)) ++ meansAt v rounds r := by
  obtain ⟨round, rounds, rfl⟩ := exists_cons_of_ne_nil hrounds
  refine map_congr_left fun r _ => ?_
  rw [range_add, map_append, map_map]
  congr 1
  · exact map_congr_left fun c hc => if_pos (mem_range.1 hc)
  · refine map_congr_left fun c _ => (if_neg (Nat.not_lt.2 (Nat.le_add_right _ c))).trans ?_
    rw [Nat.add_sub_cancel_left, seen_of_le (Nat.zero_le r), map_map]
    rfl

/-- A chunk that is taken for a row of coordinates makes the measurement fail. -/
theorem measureHard_fails (hn : 0 < p.rows.length) (hk : 0 < k) (h : Rounds p.rows.length v k answers rounds)
    (hacross : ∀ round ∈ rounds, ∀ c ∈ round, p.across = c.length) (hcolumns : p.columns ≠ 1) (hfuel : 0 < fuel) :
    (Bench.hard p v k).measureHard fuel (Bench.fresh p.columns v answers) = .error (.of .sort) := by
  obtain ⟨hlength, hgives, htotal, -⟩ := h
  obtain ⟨round, rounds, rfl⟩ := exists_cons_of_length_pos (hlength ▸ hk)
  rw [forall_mem_cons] at hacross htotal
  obtain ⟨c, cs, rfl⟩ := exists_cons_of_ne_nil (l := round) (by rintro rfl; exact hn.ne htotal.1)
  obtain ⟨a, rest, ha, -, rfl⟩ := forall₂_cons_right_iff.1 hgives
  obtain ⟨fuel, rfl⟩ := Nat.exists_eq_succ_of_ne_zero hfuel.ne'
  have hchunk (b : Bench) (hpending : b.pending = a :: rest) (hwidth : b.table.width = p.columns + v) :
      (Bench.hard p v k).measureChunk b = .error (.of .sort) := by
    have hvalues (n : Nat) : (b.table.extended n).width - p.columns = v := Nat.sub_eq_of_eq_add' hwidth
    rw [Bench.measureChunk_eq hn hpending ha.count_eq rfl ((hvalues _).symm ▸ ha.chunk_eq), Table.stamp,
      if_pos (hacross.1 c mem_cons_self), if_neg hcolumns]
    rfl
  have hpos := Nat.mul_pos hn hk
  rw [Bench.measureHard_succ hpos]
  exact (if_pos hpos).trans (Bench.bind_eq_error (hchunk _ rfl rfl) _)

end

namespace Points

theorem length_tile (xs ys : List ℚ) : (tile xs ys).length = xs.length * ys.length := by
  induction ys with
  | nil => rfl
  | cons y ys ih =>
    rw [tile, flatMap_cons, length_append, length_map, length_cons, Nat.mul_succ, Nat.add_comm]
    exact congrArg (· + _) ih

theorem getD_tile {xs ys : List ℚ} {r : Nat} (hr : r < xs.length * ys.length) :
    (tile xs ys).getD r [] = [xs.getD (r % xs.length) 0, ys.getD (r / xs.length) 0] := by
  induction ys generalizing r with
  | nil => exact absurd hr (Nat.not_lt_zero r)
  | cons y ys ih =>
    rw [tile, flatMap_cons]
    rw [length_cons, Nat.mul_succ] at hr
    rcases Nat.lt_or_ge r xs.length with hx | hx
    · rw [getD_append _ _ _ _ (by rwa [length_map]), Nat.mod_eq_of_lt hx, Nat.div_eq_of_lt hx,
        getD_eq_getElem _ _ (by rwa [length_map]), getElem_map, getD_eq_getElem _ _ hx]
      rfl
    · obtain ⟨i, rfl⟩ := Nat.exists_eq_add_of_le hx
      have hpos : 0 < xs.length := by
        by_contra h
        simp [Nat.eq_zero_of_not_pos h] at hr
      rw [getD_append_right _ _ _ _ (by rwa [length_map]), length_map, Nat.add_sub_cancel_left]
      refine (ih (by omega)).trans ?_
      rw [Nat.add_mod_left, Nat.add_div_left _ hpos]
      rfl

theorem entry_line (xs : List ℚ) (i : Nat) : entry (line xs).rows i 0 = xs.getD i 0 := by
  cases h : xs[i]? <;> simp [entry, rows, h]

theorem takes_line (xs : List ℚ) (m : Nat) : (line xs).Takes m :=
  ⟨forall_mem_map.2 fun _ _ => rfl, fun h => ⟨rfl, by rw [rows, length_map]; exact h⟩⟩

theorem takes_plane {xs ys : List ℚ} {m : Nat} (hm : m ≠ 2) : (plane 2 (tile xs ys)).Takes m := by
  refine ⟨fun row hrow => ?_, fun h => absurd h.symm hm⟩
  obtain ⟨y, -, hy⟩ := mem_flatMap.1 hrow
  obtain ⟨x, -, rfl⟩ := mem_map.1 hy
  rfl

end Points

/-- **Hard measurements.** A measurement along a line ends, and its table has a row for each point, with the means of what the
detector gave for it in the rounds. The point at row `r` is number `sourceOf … r`: it is `r` for all rows if each round after
the first is steady, and not for all rows if the last of them is not. A measurement over a plane, row of it by row, ends with
the table of its points and means, unless its rows have two points: then it fails. -/
theorem hard_measurement_tables (v k : Nat) (hk : 0 < k) :
    (∀ (xs : List ℚ) (answers : List (Answer ℚ)) (rounds : List (List (List (List ℚ)))) (fuel : Nat),
      0 < xs.length → Rounds xs.length v k answers rounds → xs.length * k ≤ fuel →
      (∃ b, (Bench.hard (.line xs) v k).measureHard fuel (Bench.fresh 1 v answers) = .ok ((), b) ∧
        b.table.rows = (List.range xs.length).map fun r =>
          xs.getD (sourceOf xs.length (lengths rounds) r) 0 :: meansAt v rounds r) ∧
      ((∀ ms ∈ (lengths rounds).tail, Steady ms) → ∀ r < xs.length, sourceOf xs.length (lengths rounds) r = r) ∧
      ∀ ms, (lengths rounds).tail.getLast? = some ms → ¬Steady ms →
        ∃ r < xs.length, sourceOf xs.length (lengths rounds) r ≠ r) ∧
    ∀ (xs ys : List ℚ) (answers : List (Answer ℚ)) (rounds : List (List (List (List ℚ)))) (fuel : Nat),
      0 < xs.length → 0 < ys.length → Rounds (xs.length * ys.length) v k answers rounds →
      (∀ round ∈ rounds, ∀ c ∈ round, c.length = xs.length) → xs.length * ys.length * k ≤ fuel →
      (xs.length ≠ 2 → ∃ b,
        (Bench.hard (.plane 2 (Points.tile xs ys)) v k).measureHard fuel (Bench.fresh 2 v answers) = .ok ((), b) ∧
        b.table.rows = (List.range (xs.length * ys.length)).map fun r =>
          xs.getD (r % xs.length) 0 :: ys.getD (r / xs.length) 0 :: meansAt v rounds r) ∧
      (xs.length = 2 →
        (Bench.hard (.plane 2 (Points.tile xs ys)) v k).measureHard fuel (Bench.fresh 2 v answers) = .error (.of .sort)) := by
  have hrounds {n : Nat} {answers : List (Answer ℚ)} {rounds : List (List (List (List ℚ)))}
      (h : Rounds n v k answers rounds) : rounds ≠ [] := ne_nil_of_length_pos (h.count ▸ hk)
  refine ⟨fun xs answers rounds fuel hn h hfuel => ⟨?_, fun hsteady r hr => ?_, fun ms hlast hsteady => ?_⟩,
    fun xs ys answers rounds fuel hx hy h hrow hfuel => ?_⟩
  · have hlength : (Points.line xs).rows.length = xs.length := length_map _
    rw [← hlength] at hn h hfuel
    obtain ⟨b, hrun, hb⟩ := measureHard_rounds hn hk h (fun _ _ c _ => Points.takes_line xs c.length) hfuel
    refine ⟨b, hrun, ?_⟩
    rw [hb, recorded_rows (hrounds h), hlength]
    refine map_congr_left fun r _ => ?_
    show [entry _ _ 0] ++ _ = _
    rw [Points.entry_line]
    rfl
  · exact sourceOf_steady h.lengths_sum hsteady hr
  · exact sourceOf_not_steady h.lengths_sum hlast hsteady
  · have hlength : (Points.plane 2 (Points.tile xs ys)).rows.length = xs.length * ys.length := Points.length_tile xs ys
    have hn := Nat.mul_pos hx hy
    have hsum := h.lengths_sum
    rw [← hlength] at hn h hfuel
    refine ⟨fun htwo => ?_, fun htwo => ?_⟩
    · have htakes : ∀ round ∈ rounds, ∀ c ∈ round, (Points.plane 2 (Points.tile xs ys)).Takes c.length :=
        fun round hround c hc => Points.takes_plane (by rwa [hrow round hround c hc])
      have hsteady : ∀ ms ∈ (lengths rounds).tail, Steady ms := by
        intro ms hms
        obtain ⟨round, hround, rfl⟩ := mem_map.1 (mem_of_mem_tail hms)
        have hlengths : ∀ m ∈ (round.map List.length).dropLast, m = xs.length := fun m hm => by
          obtain ⟨c, hc, rfl⟩ := mem_map.1 (dropLast_subset _ hm)
          exact hrow round hround c hc
        refine pairwise_of_forall_mem_list fun a ha b hb hone => ?_
        rw [hlengths b hb, ← hlengths a ha, hone]
      obtain ⟨b, hrun, hb⟩ := measureHard_rounds hn hk h htakes hfuel
      refine ⟨b, hrun, ?_⟩
      rw [hb, recorded_rows (hrounds h), hlength]
      refine map_congr_left fun r hr => ?_
      have hr := mem_range.1 hr
      rw [sourceOf_steady hsum hsteady hr]
      show [entry _ r 0, entry _ r 1] ++ _ = _
      simp only [entry, Points.rows, Points.getD_tile hr]
      rfl
    · exact measureHard_fails hn hk h (fun round hround c hc => (hrow round hround c hc ▸ htwo).symm) (by simp [Points.columns])
        ((Nat.mul_pos hn hk).trans_le hfuel)

/-- Two rounds over three points, in chunks of two and one and then one by one, and one round over a plane of three rows with
one point each. -/
theorem hard_measurement_tables_small :
    Rounds 3 1 2 [.list [10, 20], .list [30], .list [12], .list [22], .list [32]]
        [[[[10], [20]], [[30]]], [[[12]], [[22]], [[32]]]] ∧
      (∃ b, (Bench.hard (.line [0, 1, 2]) 1 2).measureHard 6
          (Bench.fresh 1 1 [.list [10, 20], .list [30], .list [12], .list [22], .list [32]]) = .ok ((), b) ∧
        b.table.rows = [[0, 11], [1, 21], [2, 31]]) ∧
      Rounds 3 2 1 [.grid 2 [[1, 2]], .grid 2 [[3, 4]], .grid 2 [[5, 6]]] [[[[1, 2]], [[3, 4]], [[5, 6]]]] ∧
      ∃ b, (Bench.hard (.plane 2 (Points.tile [7] [0, 1, 2])) 2 1).measureHard 3
          (Bench.fresh 2 2 [.grid 2 [[1, 2]], .grid 2 [[3, 4]], .grid 2 [[5, 6]]]) = .ok ((), b) ∧
        b.table.rows = [[7, 0, 1, 2], [7, 1, 3, 4], [7, 2, 5, 6]] := by
  have hline : Rounds 3 1 2 [.list [10, 20], .list [30], .list [12], .list [22], .list [32]]
      [[[[10], [20]], [[30]]], [[[12]], [[22]], [[32]]]] :=
    ⟨rfl, .cons (.list _ rfl) (.cons (.list _ rfl) (.cons (.list _ rfl) (.cons (.list _ rfl) (.cons (.list _ rfl) .nil)))),
      by simp, by simp⟩
  have hplane : Rounds 3 2 1 [.grid 2 [[1, 2]], .grid 2 [[3, 4]], .grid 2 [[5, 6]]] [[[[1, 2]], [[3, 4]], [[5, 6]]]] :=
    ⟨rfl, .cons (.grid _ (by simp)) (.cons (.grid _ (by simp)) (.cons (.grid _ (by simp)) .nil)), by simp, by simp⟩
  obtain ⟨b, hrun, hrows⟩ :=
    ((hard_measurement_tables 1 2 (by decide)).1 [0, 1, 2] _ _ 6 (by decide) hline (by decide)).1
  obtain ⟨b', hrun', hrows'⟩ :=
    ((hard_measurement_tables 2 1 (by decide)).2 [7] [0, 1, 2] _ _ 3 (by decide) (by decide) hplane (by simp) (by decide)).1
      (by decide)
  exact ⟨hline, ⟨b, hrun, hrows.trans (by decide +kernel)⟩, hplane, b', hrun', hrows'.trans (by decide +kernel)⟩

/-- Two rounds over four points in chunks of one, two and one: the second and the third row end with the first point. A
measurement over a plane with rows of two points fails. -/
theorem hard_measurement_misplaced_points :
    (Rounds 4 1 2 [.list [10], .list [20, 30], .list [40], .list [12], .list [22, 32], .list [42]]
        [[[[10]], [[20], [30]], [[40]]], [[[12]], [[22], [32]], [[42]]]] ∧
      ((Bench.hard (.line [0, 1, 2, 3]) 1 2).measureHard 8 (Bench.fresh 1 1
        [.list [10], .list [20, 30], .list [40], .list [12], .list [22, 32], .list [42]])).map (fun x => x.2.table.rows) =
          .ok [[0, 11], [0, 21], [0, 31], [3, 41]]) ∧
    Rounds 2 1 1 [.list [10, 20]] [[[[10], [20]]]] ∧
      (Bench.hard (.plane 2 (Points.tile [0, 1] [5])) 1 1).measureHard 2 (Bench.fresh 2 1 [.list [10, 20]]) =
        .error (.of .sort) := by
  have hplane : Rounds 2 1 1 [.list [10, 20]] [[[[10], [20]]]] := ⟨rfl, .cons (.list _ rfl) .nil, by simp, by simp⟩
  refine ⟨⟨⟨rfl, ?_, by simp, by simp⟩, by decide +kernel⟩, hplane, ?_⟩
  · exact .cons (.list _ rfl) (.cons (.list _ rfl) (.cons (.list _ rfl) (.cons (.list _ rfl) (.cons (.list _ rfl)
      (.cons (.list _ rfl) .nil)))))
  · exact measureHard_fails (p := .plane 2 (Points.tile [0, 1] [5])) (by decide) (by decide) hplane
      (by simp [Points.across]) (by decide) (by decide)

end QubitLab.Recording
