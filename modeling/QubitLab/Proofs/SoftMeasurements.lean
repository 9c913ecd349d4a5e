import Mathlib.Algebra.BigOperators.Group.List.Basic
import Mathlib.Data.List.Forall2
import QubitLab.Proofs.RecordedMeans

/-!
# Soft measurements

`soft_measurement_table`: whenever a soft measurement asks the detector, the parameters have the coordinates of the point it
measures, although a parameter that has its value is not set again; at the end the table has a row for each point, with the
means of the values that were acquired at it.

The invariant of a run (`Bench.Follows`) ties the trace of the devices to the counter, to the last point and to the table.
-/

namespace QubitLab.Recording

open List

/-! ## Answers about one point -/

/-- The answer is a number or a list with a value for each of `v` names. -/
inductive Answer.GivesOne (v : Nat) : Answer ℚ → List ℚ → Prop
  | number (x : ℚ) (h : v = 1) : GivesOne v (.number x) [x]
  | list (xs : List ℚ) (h : xs.length = v) : GivesOne v (.list xs) xs

namespace Answer.GivesOne

variable {v : Nat} {a : Answer ℚ} {xs : List ℚ}

theorem count_eq (h : GivesOne v a xs) : Answer.count v true a.shape = 1 := by
  cases h with
  | number x => rfl
  | list xs hv => rw [shape, Answer.count, if_pos hv]

theorem entries_eq (h : GivesOne v a xs) : a.entries = xs := by cases h <;> rfl

theorem length_eq (h : GivesOne v a xs) : xs.length = v := by
  cases h with
  | number x hv => exact hv.symm
  | list xs hv => exact hv

end Answer.GivesOne

/-! ## Traces -/

/-- The value that a parameter was last set to. -/
def lastSet : (trace : List Event) → Nat → Option ℚ
  | [], _ => none
  | .acquire :: es, i => lastSet es i
  | .set j x :: es, i => if j = i then some x else lastSet es i

/-- In a trace over the points `ps`, with `d` coordinates each, the detector is asked only when the parameters have the
coordinates of the point that is due, and no parameter is set to the value it has. -/
structure Faithful (ps : List (List ℚ)) (d : Nat) (trace : List Event) : Prop where
  settled : ∀ es, (.acquire :: es) <:+ trace → ∀ i < d, lastSet es i = (ps.getD (es.count .acquire % ps.length) [])[i]?
  frugal : ∀ es i x, (.set i x :: es) <:+ trace → lastSet es i ≠ some x

section

variable {ps : List (List ℚ)} {d : Nat} {es : List Event}

theorem Faithful.set (h : Faithful ps d es) {i : Nat} {x : ℚ} (hx : lastSet es i ≠ some x) : Faithful ps d (.set i x :: es) := by
  refine ⟨fun es' hes => ?_, fun es' j y hes => ?_⟩
  · rcases suffix_cons_iff.1 hes with heq | hes
    · cases heq
    · exact h.settled es' hes
  · rcases suffix_cons_iff.1 hes with heq | hes
    · cases heq
      exact hx
    · exact h.frugal es' j y hes

theorem Faithful.acquire (h : Faithful ps d es)
    (hes : ∀ i < d, lastSet es i = (ps.getD (es.count .acquire % ps.length) [])[i]?) : Faithful ps d (.acquire :: es) := by
  refine ⟨fun es' hes' => ?_, fun es' j y hes' => ?_⟩
  · rcases suffix_cons_iff.1 hes' with heq | hes'
    · cases heq
      exact hes
    · exact h.settled es' hes'
  · rcases suffix_cons_iff.1 hes' with heq | hes'
    · cases heq
    · exact h.frugal es' j y hes'

end

namespace Bench

variable {ps : List (List ℚ)} {d v k : Nat} {b : Bench} {done : List (List (List ℚ))} {begun : List (List ℚ)}

/-- Setting a parameter, when `before` is the value it has. -/
theorem setOne_eq (hb : Faithful ps d b.trace) (x : List ℚ) {j : Nat} (y : ℚ) {before : Option ℚ}
    (hbefore : lastSet b.trace j = before) :
    ∃ es, (soft ps d v k).setOne x j y before b = .ok (none, { b with trace := es }) ∧ Faithful ps d es ∧
      es.count .acquire = b.trace.count .acquire ∧
      (∀ i ≠ j, lastSet es i = lastSet b.trace i) ∧ lastSet es j = some y := by
  by_cases hsame : before = some y
  · subst hsame
    refine ⟨b.trace, ?_, hb, rfl, fun _ _ => rfl, hbefore⟩
    rw [SoftApparatus.setOne, bind_eq (show (soft ps d v k).isSame y y b = .ok (true, b) by
      simp only [soft, BEq.rfl]; rfl)]
    rfl
  · refine ⟨.set j y :: b.trace, ?_, hb.set (hbefore ▸ hsame), by simp, fun i hi => if_neg hi.symm, if_pos rfl⟩
    cases before with
    | none => rfl
    | some z =>
      have hne : (y == z) = false := beq_eq_false_iff_ne.2 fun h => hsame (congrArg some h.symm)
      rw [SoftApparatus.setOne, bind_eq (show (soft ps d v k).isSame y z b = .ok (false, b) by
        simp only [soft, hne]; rfl)]
      rfl

/-- Setting the parameters from number `j` on, when `last` are the values they have. -/
theorem setFrom_eq (hb : Faithful ps d b.trace) (x last : List ℚ) {j : Nat} {ys : List ℚ}
    (hlast : ∀ i, j ≤ i → i < j + ys.length → lastSet b.trace i = last[i]?) :
    ∃ es, (soft ps d v k).setFrom x last j ys b = .ok (ys, { b with trace := es }) ∧ Faithful ps d es ∧
      es.count .acquire = b.trace.count .acquire ∧
      (∀ i < j, lastSet es i = lastSet b.trace i) ∧ ∀ i < ys.length, lastSet es (j + i) = ys[i]? := by
  induction ys generalizing j with
  | nil => exact ⟨b.trace, rfl, hb, rfl, fun _ _ => rfl, fun _ h => absurd h (Nat.not_lt_zero _)⟩
  | cons y ys ih =>
    rw [length_cons] at hlast
    obtain ⟨es, hrun, hes, hcount, hbefore, hset⟩ := ih (j := j + 1) fun i hi hlt => hlast i (by omega) (by omega)
    have hj : lastSet es j = last[j]? := (hbefore j (by omega)).trans (hlast j le_rfl (by omega))
    obtain ⟨es', hone, hes', hcount', hother, hy⟩ :=
      setOne_eq (v := v) (k := k) (b := { b with trace := es }) hes x y hj
    refine ⟨es', ?_, hes', hcount'.trans hcount, fun i hi => (hother i (by omega)).trans (hbefore i (by omega)), ?_⟩
    · rw [SoftApparatus.setFrom, bind_eq hrun, bind_eq hone]
      rfl
    · intro i hi
      cases i with
      | zero => exact hy
      | succ i =>
        rw [hother _ (by omega), getElem?_cons_succ, ← hset i (by simpa using hi)]
        congr 1
        omega

/-- The invariant of a soft measurement. -/
structure Follows (b : Bench) (ps : List (List ℚ)) (d v : Nat) (done : List (List (List ℚ))) (begun : List (List ℚ)) :
    Prop where
  acquired : b.acquired = done.length * ps.length + begun.length
  iteration : b.iteration = b.acquired
  asked : b.trace.count .acquire = b.acquired
  settings : ∀ i < d, lastSet b.trace i = (if b.iteration = 0 then [] else b.last)[i]?
  faithful : Faithful ps d b.trace
  table : b.table = .of (d + v) (rowCount ps.length begun.length done) fun r c => meanAt (seen done begun r) c

/-- The step of a soft measurement. -/
theorem Follows.point (h : b.Follows ps d v done begun)
    {x xs : List ℚ} {a : Answer ℚ} {rest : List (Answer ℚ)} (hx : ps[begun.length]? = some x) (hlength : x.length = d)
    (hpending : b.pending = a :: rest) (ha : a.GivesOne v xs) :
    ∃ b', (soft ps d v k).measurePoint x b = .ok ((), b') ∧ b'.pending = rest ∧
      b'.Follows ps d v done (begun ++ [x ++ xs]) := by
  have hbegun : begun.length < ps.length := (List.getElem?_eq_some_iff.1 hx).1
  obtain ⟨hstart, hround⟩ := row_and_round h.acquired hbegun
  obtain ⟨es, hset, hes, hcount, -, hvalues⟩ := setFrom_eq (v := v) (k := k) h.faithful x
    (if b.iteration = 0 then [] else b.last) fun i (_ : 0 ≤ i) (hi : i < 0 + x.length) => h.settings i (by omega)
  have hbefore : (soft ps d v k).before b = .ok (if b.iteration = 0 then [] else b.last, b) := by
    rw [SoftApparatus.before, bind_eq (show (soft ps d v k).iteration.get b = .ok (b.iteration, b) from rfl)]
    split <;> rfl
  have hacquire : (soft ps d v k).acquire { b with trace := es, last := x } = _ := answer_eq hpending
  have hadvance (b : Bench) : (soft ps d v k).advance 1 b = _ := advance_eq (by omega) 1 b
  have hwidth : spread? ((b.table.extended (begun.length + 1)).width) (x ++ a.entries) = some (x ++ xs) := by
    rw [ha.entries_eq, h.table]
    exact spread?_of_length (by rw [length_append, hlength, ha.length_eq]; rfl)
  have hnews : ∀ row ∈ [x ++ xs], 0 + row.length = d + v := by
    rw [forall_mem_singleton, length_append, hlength, ha.length_eq, Nat.zero_add]
  refine ⟨{ b with
    acquired := b.acquired + 1, round := done.length, iteration := b.iteration + 1, last := x, pending := rest,
    trace := .acquire :: es, table := (b.table.extended (begun.length + 1)).average done.length begun.length 0 [x ++ xs] },
    ?_, rfl, ?_, ?_, ?_, ?_, ?_, ?_⟩
  · rw [SoftApparatus.measurePoint, bind_eq (show (soft ps d v k).coordinates x b = .ok (x, b) from rfl), bind_eq hbefore,
      bind_eq hset,
      bind_eq (show (soft ps d v k).last.set x _ = .ok ((), _) from rfl), bind_eq hacquire]
    dsimp only
    rw [bind_eq (show (soft ps d v k).names _ = .ok (v, _) from rfl), bind_eq (show (soft ps d v k).isSoft _ = .ok (true, _) from rfl),
      ha.count_eq, bind_eq (hadvance _)]
    dsimp only
    rw [hstart, bind_eq (show (soft ps d v k).table.get _ = .ok (_, _) from rfl),
      bind_eq (show (soft ps d v k).numbers x _ = .ok (x, _) from rfl), bind_eq (lift_eq (congrArg (orFail .value) hwidth) _),
      bind_eq (show (soft ps d v k).round.get _ = .ok (_, _) from rfl)]
    dsimp only
    rw [hround]
    rfl
  · rw [length_append, ← Nat.add_assoc, ← h.acquired]
    rfl
  · exact congrArg (· + 1) h.iteration
  · rw [count_cons_self, hcount, h.asked]
  · intro i hi
    rw [if_neg (Nat.succ_ne_zero _), ← hvalues i (by omega), Nat.zero_add]
    rfl
  · refine hes.acquire fun i hi => ?_
    have hi' := hvalues i (by omega)
    rw [Nat.zero_add] at hi'
    rw [hi', hcount, h.asked, hstart, getD_eq_getElem?_getD, hx, Option.getD_some]
  · rw [h.table, length_append]
    refine (Table.average_round (fun _ _ _ => rfl) hnews hbegun).trans (Table.of_congr fun r _ c _ => ?_)
    rw [if_pos (Nat.zero_le c), Nat.sub_zero]

/-- The points of a round that are left. -/
theorem Follows.points (h : b.Follows ps d v done begun)
    (hps : ∀ p ∈ ps, p.length = d) {qs values : List (List ℚ)} (hqs : ps.drop begun.length = qs)
    (hlength : values.length = qs.length) {answers later : List (Answer ℚ)} (hpending : b.pending = answers ++ later)
    (hanswers : List.Forall₂ (Answer.GivesOne v) answers values) :
    ∃ b', (qs.forM fun x => discard ((soft ps d v k).measurePoint x)) b = .ok ((), b') ∧ b'.pending = later ∧
      b'.Follows ps d v done (begun ++ List.zipWith (· ++ ·) qs values) := by
  induction qs generalizing b begun values answers with
  | nil =>
    obtain rfl := length_eq_zero_iff.1 hlength
    cases hanswers
    exact ⟨b, rfl, hpending, by simpa using h⟩
  | cons x qs ih =>
    obtain ⟨xs, values, rfl⟩ := exists_cons_of_length_eq_add_one hlength
    obtain ⟨a, answers, ha, htail, rfl⟩ := forall₂_cons_right_iff.1 hanswers
    have hx : ps[begun.length]? = some x := by
      have hhead := congrArg (·[0]?) hqs
      simpa using hhead
    have hrest : ps.drop (begun ++ [x ++ xs]).length = qs := by
      rw [length_append, length_singleton, ← drop_drop, hqs]
      rfl
    obtain ⟨b', hrun, hpending', h'⟩ := h.point (k := k) hx (hps x (mem_of_getElem? hx)) hpending ha
    obtain ⟨b'', hruns, hlater, h''⟩ := ih h' hrest (by simpa using hlength) hpending' htail
    refine ⟨b'', ?_, hlater, ?_⟩
    · rw [forM_eq_forM, forM_cons, bind_eq (discard_eq hrun)]
      exact hruns
    · rw [append_assoc] at h''
      exact h''

/-- A round is done when all points were measured in it. -/
theorem Follows.finish (h : b.Follows ps d v done begun)
    (hbegun : begun.length = ps.length) : b.Follows ps d v (done ++ [begun]) [] := by
  refine ⟨?_, h.iteration, h.asked, h.settings, h.faithful, ?_⟩
  · rw [h.acquired, hbegun, length_append, Nat.add_mul, length_singleton, Nat.one_mul]
    rfl
  · rw [h.table, rowCount_append, rowCount_full hbegun]
    exact Table.of_congr fun r hr c _ => by rw [seen_done (by omega)]

/-- Rounds over all points. -/
theorem Follows.rounds (h : b.Follows ps d v done []) (hps : ∀ p ∈ ps, p.length = d)
    {rounds : List (List (List ℚ))} {rs : List Nat} (hlength : rs.length = rounds.length)
    (hrounds : ∀ round ∈ rounds, round.length = ps.length)
    (hanswers : List.Forall₂ (Answer.GivesOne v) b.pending rounds.flatten) :
    ∃ b', (rs.forM fun r => do
        (soft ps d v k).round.set r
        (← (soft ps d v k).points).forM fun x => discard ((soft ps d v k).measurePoint x)) b = .ok ((), b') ∧
      b'.Follows ps d v (done ++ rounds.map (List.zipWith (· ++ ·) ps)) [] := by
  induction rounds generalizing b done rs with
  | nil =>
    obtain rfl := length_eq_zero_iff.1 hlength
    exact ⟨b, rfl, by simpa using h⟩
  | cons round rounds ih =>
    obtain ⟨r, rs, rfl⟩ := exists_cons_of_length_eq_add_one hlength
    rw [forall_mem_cons] at hrounds
    rw [flatten_cons] at hanswers
    have hround : Follows { b with round := r } ps d v done [] :=
      ⟨h.acquired, h.iteration, h.asked, h.settings, h.faithful, h.table⟩
    obtain ⟨b', hrun, hrest, h'⟩ := hround.points (k := k) hps drop_zero hrounds.1
      (take_append_drop round.length b.pending).symm (forall₂_take_append _ _ _ hanswers)
    obtain ⟨b'', hruns, h''⟩ := ih (h'.finish (by simp [hrounds.1])) (by simpa using hlength) hrounds.2
      (hrest ▸ forall₂_drop_append _ _ _ hanswers)
    have hbody : (do
        (soft ps d v k).round.set r
        (← (soft ps d v k).points).forM fun x => discard ((soft ps d v k).measurePoint x)) b = .ok ((), b') := by
      rw [bind_eq (show (soft ps d v k).round.set r b = .ok ((), _) from rfl),
        bind_eq (show (soft ps d v k).points _ = .ok (ps, _) from rfl)]
      exact hrun
    refine ⟨b'', ?_, ?_⟩
    · rw [forM_eq_forM, forM_cons, bind_eq hbody]
      exact hruns
    · rw [nil_append, append_assoc] at h''
      exact h''

end Bench

theorem mean_replicate {k : Nat} (hk : 0 < k) (x : ℚ) : mean (List.replicate k x) = x := by
  rw [mean, sum_replicate, length_replicate, nsmul_eq_mul, mul_div_cancel_left₀ _ (Nat.cast_ne_zero.2 hk.ne')]

/-- Coordinates are the same in all rounds, so they are their means. -/
theorem means_zipWith {ps : List (List ℚ)} {rounds : List (List (List ℚ))} {d r : Nat} (v : Nat) (hk : 0 < rounds.length)
    (hps : ∀ p ∈ ps, p.length = d) (hrounds : ∀ round ∈ rounds, round.length = ps.length) (hr : r < ps.length) :
    (List.range (d + v)).map (meanAt ((rounds.map (List.zipWith (· ++ ·) ps)).map (·.getD r []))) =
      ps.getD r [] ++ (List.range v).map fun c => mean (rounds.map fun round => (round.getD r []).getD c 0) := by
  have hlength : (ps.getD r []).length = d := by
    rw [getD_eq_getElem _ _ hr]
    exact hps _ (getElem_mem hr)
  have hrow : (rounds.map (List.zipWith (· ++ ·) ps)).map (·.getD r []) =
      rounds.map fun round => ps.getD r [] ++ round.getD r [] := by
    rw [map_map]
    refine map_congr_left fun round hround => ?_
    have hlt : r < round.length := by rwa [hrounds round hround]
    rw [Function.comp_apply, getD_eq_getElem _ _ (by rw [length_zipWith]; omega), getElem_zipWith,
      getD_eq_getElem _ _ hr, getD_eq_getElem _ _ hlt]
  rw [hrow, range_add, map_append, map_map]
  congr 1
  · refine ext_getElem (by rw [length_map, length_range, hlength]) fun c hc _ => ?_
    rw [length_map, length_range] at hc
    have hsame : (·.getD c 0) ∘ (fun round : List (List ℚ) => ps.getD r [] ++ round.getD r []) =
        fun _ => (ps.getD r []).getD c 0 :=
      funext fun round => getD_append _ _ _ _ (by omega)
    rw [getElem_map, getElem_range, meanAt, map_map, hsame, map_const', mean_replicate hk,
      getD_eq_getElem]
  · refine map_congr_left fun c _ => ?_
    rw [Function.comp_apply, meanAt, map_map]
    refine congrArg mean (map_congr_left fun round _ => ?_)
    rw [Function.comp_apply, getD_append_right _ _ _ _ (by omega), hlength, Nat.add_sub_cancel_left]

/-- **Soft measurements.** The measurement ends. Whenever the detector is asked, each parameter was last set to the coordinate of
the point that is due, although no parameter is set to the value it has. The table has a row for each point: its coordinates,
and the means over the rounds of the values that were acquired at it. -/
theorem soft_measurement_table {ps : List (List ℚ)} {d v k : Nat} (hk : 0 < k)
    (hps : ∀ p ∈ ps, p.length = d) {rounds : List (List (List ℚ))} (hcount : rounds.length = k)
    (hrounds : ∀ round ∈ rounds, round.length = ps.length) {answers : List (Answer ℚ)}
    (hanswers : List.Forall₂ (Answer.GivesOne v) answers rounds.flatten) :
    ∃ b, (Bench.soft ps d v k).measureSoft (Bench.fresh d v answers) = .ok ((), b) ∧
      (∀ es, (.acquire :: es) <:+ b.trace → ∀ i < d, lastSet es i = (ps.getD (es.count .acquire % ps.length) [])[i]?) ∧
      (∀ es i x, (.set i x :: es) <:+ b.trace → lastSet es i ≠ some x) ∧
      b.trace.count .acquire = ps.length * k ∧
      b.table.rows = (List.range ps.length).map fun r =>
        ps.getD r [] ++ (List.range v).map fun c => mean (rounds.map fun round => (round.getD r []).getD c 0) := by
  have hfresh : (Bench.fresh d v answers).Follows ps d v [] [] :=
    ⟨(Nat.zero_mul _).symm, rfl, rfl, fun _ _ => rfl, ⟨by simp [Bench.fresh], by simp [Bench.fresh]⟩, rfl⟩
  obtain ⟨b, hrun, hb⟩ := hfresh.rounds (k := k) hps (length_range.trans hcount.symm) hrounds hanswers
  refine ⟨b, ?_, hb.faithful.settled, hb.faithful.frugal, ?_, ?_⟩
  · rw [SoftApparatus.measureSoft, Bench.bind_eq (show (Bench.soft ps d v k).rounds _ = .ok (k, _) from rfl)]
    exact hrun
  · rw [hb.asked, hb.acquired, nil_append, length_map, hcount, Nat.mul_comm]
    rfl
  · obtain ⟨round, later, rfl⟩ := exists_cons_of_length_pos (hcount ▸ hk)
    rw [hb.table]
    refine map_congr_left fun r hr => ?_
    dsimp only
    rw [seen_of_le (Nat.zero_le r), nil_append]
    exact means_zipWith v (hcount ▸ hk) hps hrounds (mem_range.1 hr)

/-- Two rounds over a plane of two by two points, with two values each. -/
theorem soft_measurement_table_plane :
    List.Forall₂ (Answer.GivesOne 2) [.list [1, 10], .list [2, 20], .list [3, 30], .list [4, 40], .list [3, 10],
        .list [4, 20], .list [5, 30], .list [6, 40]]
      [[[1, 10], [2, 20], [3, 30], [4, 40]], [[3, 10], [4, 20], [5, 30], [6, 40]]].flatten ∧
    ∃ b, (Bench.soft (Points.tile [0, 1] [5, 6]) 2 2 2).measureSoft (Bench.fresh 2 2 [.list [1, 10], .list [2, 20],
        .list [3, 30], .list [4, 40], .list [3, 10], .list [4, 20], .list [5, 30], .list [6, 40]]) = .ok ((), b) ∧
      (∀ es, (.acquire :: es) <:+ b.trace → ∀ i < 2,
        lastSet es i = ((Points.tile [0, 1] [5, 6]).getD (es.count .acquire % 4) [])[i]?) ∧
      b.trace.count .acquire = 8 ∧
      b.table.rows = [[0, 5, 2, 10], [1, 5, 3, 20], [0, 6, 4, 30], [1, 6, 5, 40]] := by
  have hanswers : List.Forall₂ (Answer.GivesOne 2) [.list [1, 10], .list [2, 20], .list [3, 30], .list [4, 40],
      .list [3, 10], .list [4, 20], .list [5, 30], .list [6, 40]]
      [[[1, 10], [2, 20], [3, 30], [4, 40]], [[3, 10], [4, 20], [5, 30], [6, 40]]].flatten := by
    repeat' constructor
  obtain ⟨b, hrun, hsettled, -, hcount, hrows⟩ := @soft_measurement_table (Points.tile [0, 1] [5, 6]) 2 2 2 (by decide)
    (by decide) _ rfl (by decide) _ hanswers
  exact ⟨hanswers, b, hrun, hsettled, hcount, hrows.trans (by decide +kernel)⟩

end QubitLab.Recording
