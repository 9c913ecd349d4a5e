import Mathlib.Algebra.Order.Field.Basic
import Mathlib.Data.List.GetD
import Mathlib.Data.Rat.Cast.Order
import Mathlib.Tactic.Linarith
import QubitLab.Recording

/-!
# Means in recorded tables

A table is a function of its rows and columns (`Table.of`), and what a measurement does to it is a change of this function
(`Table.extended_of`, `Table.change_of`). Rounds that are done and a round that is under way say which values were seen at
each row; averaging keeps the means of the values seen (`Table.average_seen`, `Table.average_round`).

`Bench` is an apparatus of lists, on which the measurements run with exact numbers.
-/

namespace QubitLab.Recording

open List

/-! ## Tables as functions -/

variable {n : Nat}

section

variable {α β : Type}

theorem getElem?_change (f : β → α → α) (s : Nat) (xs : List β) (ys : List α) (r : Nat) :
    (change f s xs ys)[r]? = ys[r]?.map fun y => if s ≤ r then (xs[r - s]?).elim y (f · y) else y := by
  fun_induction change f s xs ys generalizing r with
  | case1 => simp
  | case2 xs y ys s ih => cases r <;> simp [ih]
  | case3 => simp
  | case4 x xs y ys ih => cases r <;> simp [ih]

theorem change_map_range (f : β → α → α) (s : Nat) (xs : List β) (n : Nat) (g : Nat → α) :
    change f s xs ((List.range n).map g) =
      (List.range n).map fun r => if s ≤ r then (xs[r - s]?).elim (g r) (f · (g r)) else g r := by
  refine ext_getElem? fun r => ?_
  rw [getElem?_change, getElem?_map, getElem?_map]
  rcases Nat.lt_or_ge r n with hr | hr
  · simp [getElem?_range hr]
  · simp [hr]

theorem spread?_of_length {xs : List β} (h : xs.length = n) : spread? n xs = some xs := by
  subst h
  rcases xs with - | ⟨x, - | ⟨y, xs⟩⟩ <;> simp [spread?]

theorem spread?_eq_none {xs : List β} (h : xs.length ≠ n) (h1 : xs.length ≠ 1) : spread? n xs = none := by
  rcases xs with - | ⟨x, - | ⟨y, xs⟩⟩
  · simpa [spread?] using h
  · exact absurd rfl h1
  · simpa [spread?] using h

end

/-- An entry of a list of rows. -/
def entry (rows : List (List ℚ)) (r c : Nat) : ℚ := (rows.getD r []).getD c 0

namespace Table

/-- The table of a function of the row and the column. -/
def of (w n : Nat) (f : Nat → Nat → ℚ) : Table ℚ := ⟨w, (List.range n).map fun r => (List.range w).map (f r)⟩

theorem of_congr {w n : Nat} {f g : Nat → Nat → ℚ} (h : ∀ r < n, ∀ c < w, f r c = g r c) : of w n f = of w n g := by
  refine congrArg (Table.mk w) (map_congr_left fun r hr => map_congr_left fun c hc => ?_)
  exact h r (mem_range.1 hr) c (mem_range.1 hc)

theorem extended_of (w n m : Nat) (f : Nat → Nat → ℚ) :
    (of w n f).extended m = of w (max n m) fun r c => if r < n then f r c else 0 := by
  have hmax : max n m = n + (m - n) := by omega
  refine congrArg (Table.mk w) ?_
  rw [hmax, range_add, map_append, map_map]
  congr 1
  · exact map_congr_left fun r hr => by simp [mem_range.1 hr]
  · simp [of, Function.comp_def, map_const']

theorem change_of (g : ℚ → ℚ → ℚ) (j s w n : Nat) (news : List (List ℚ)) (f : Nat → Nat → ℚ) :
    change (change g j) s news (of w n f).rows =
      (of w n fun r c => if s ≤ r ∧ r < s + news.length ∧ j ≤ c ∧ c < j + (news.getD (r - s) []).length then
        g (entry news (r - s) (c - j)) (f r c) else f r c).rows := by
  simp only [of, change_map_range]
  refine map_congr_left fun r _ => ?_
  by_cases hr : s ≤ r ∧ r < s + news.length
  · have hrow : news[r - s]? = some (news.getD (r - s) []) := by
      rw [getD_eq_getElem?_getD, getElem?_eq_getElem (by omega), Option.getD_some]
    rw [if_pos hr.1, hrow, Option.elim_some]
    refine map_congr_left fun c _ => ?_
    by_cases hc : j ≤ c ∧ c < j + (news.getD (r - s) []).length
    · rw [if_pos hc.1, if_pos ⟨hr.1, hr.2, hc⟩, entry, getElem?_eq_getElem (by omega), Option.elim_some,
        getD_eq_getElem _ 0 (by omega)]
    · rw [if_neg (fun h : s ≤ r ∧ r < s + news.length ∧ j ≤ c ∧ c < j + _ => hc h.2.2)]
      split
      · rw [getElem?_eq_none (by omega), Option.elim_none]
      · rfl
  · have hsame : (fun c => if s ≤ r ∧ r < s + news.length ∧ j ≤ c ∧ c < j + (news.getD (r - s) []).length then
        g (entry news (r - s) (c - j)) (f r c) else f r c) = f r := by
      funext c
      rw [if_neg fun h => hr ⟨h.1, h.2.1⟩]
    rw [hsame]
    split
    · rw [getElem?_eq_none (by omega), Option.elim_none]
    · rfl

end Table

/-! ## Means -/

def mean (xs : List ℚ) : ℚ := xs.sum / xs.length

theorem averaged_mean (xs : List ℚ) (x : ℚ) : averaged xs.length x (mean xs) = mean (xs ++ [x]) := by
  rcases eq_or_ne xs [] with rfl | hxs
  · simp [averaged, mean]
  · have hlength : (xs.length : ℚ) ≠ 0 := Nat.cast_ne_zero.2 (by simpa using hxs)
    rw [averaged, mean, mean, div_mul_cancel₀ _ hlength, sum_append, length_append, sum_singleton,
      add_comm x]
    rfl

theorem percentDone_lt (acquired : Nat) {points rounds : Nat} (h : 0 < points * rounds) :
    ∃ done : ℚ, percentDone acquired points rounds = .ok done ∧ (done < ((100 : Nat) : ℚ) ↔ acquired < points * rounds) := by
  refine ⟨_, if_neg h.ne', ?_⟩
  have hpos : (0 : ℚ) < ((points * rounds : Nat) : ℚ) := Nat.cast_pos.2 h
  have hhundred : (0 : ℚ) < ((100 : Nat) : ℚ) := by norm_num
  rw [mul_lt_iff_lt_one_left hhundred, div_lt_one hpos, Nat.cast_lt]

/-- The mean of a column. -/
def meanAt (rows : List (List ℚ)) (c : Nat) : ℚ := mean (rows.map (·.getD c 0))

/-- What was seen at a row, in the rounds that are done and in the one that is under way. -/
def seen (done : List (List (List ℚ))) (begun : List (List ℚ)) (r : Nat) : List (List ℚ) :=
  done.map (·.getD r []) ++ (begun[r]?).toList

section

variable {done : List (List (List ℚ))} {begun news : List (List ℚ)} {r : Nat}

theorem seen_of_le (h : begun.length ≤ r) : seen done begun r = done.map (·.getD r []) := by
  rw [seen, getElem?_eq_none h, Option.toList_none, append_nil]

theorem seen_append_of_lt (h : r < begun.length) : seen done (begun ++ news) r = seen done begun r := by
  rw [seen, seen, getElem?_append_left h]

theorem seen_append_new (h : begun.length ≤ r) (hr : r < begun.length + news.length) :
    seen done (begun ++ news) r = seen done begun r ++ [news.getD (r - begun.length) []] := by
  rw [seen_of_le h, seen, getElem?_append_right h, getElem?_eq_getElem (by omega), Option.toList_some,
    getD_eq_getElem]

theorem seen_done (h : r < begun.length) : seen done begun r = seen (done ++ [begun]) [] r := by
  rw [seen, seen, map_append, getElem?_eq_getElem h, map_singleton, getD_eq_getElem _ _ h]
  simp

end

/-- **Averaging keeps means.** The table has, from the column `j` on, the means of what was seen; new rows are averaged with
the weight of the rounds that are done. -/
theorem Table.average_seen {w j : Nat} {f : Nat → Nat → ℚ} {done : List (List (List ℚ))} {begun news : List (List ℚ)}
    (hf : ∀ r < n, ∀ c, j ≤ c → c < w → f r c = meanAt (seen done begun r) (c - j))
    (hnews : ∀ row ∈ news, j + row.length = w) :
    (of w n f).average done.length begun.length j news =
      of w n fun r c => if j ≤ c then meanAt (seen done (begun ++ news) r) (c - j) else f r c := by
  refine (congrArg (Table.mk w) (change_of _ j _ w n news f)).trans (of_congr fun r hr c hc => ?_)
  by_cases hj : j ≤ c
  · rw [if_pos hj, hf r hr c hj hc]
    rcases Nat.lt_or_ge r begun.length with hb | hb
    · rw [if_neg (by omega), seen_append_of_lt hb]
    rcases Nat.lt_or_ge r (begun.length + news.length) with hn | hn
    · have hrow := hnews _ (getElem_mem (show r - begun.length < news.length by omega))
      rw [← getD_eq_getElem _ []] at hrow
      have hlength : done.length = ((seen done begun r).map (·.getD (c - j) 0)).length := by
        rw [seen_of_le hb, length_map, length_map]
      rw [if_pos ⟨hb, hn, hj, by omega⟩, seen_append_new hb hn, meanAt, hlength, averaged_mean, meanAt, map_append]
      rfl
    · rw [if_neg (by omega), seen_of_le hb, seen_of_le (by rw [length_append]; omega)]
  · rw [if_neg hj, if_neg fun h => hj h.2.2.1]

/-- The rows of the table when `s` points of a round are measured. -/
def rowCount (n s : Nat) : (done : List (List (List ℚ))) → Nat
  | [] => s
  | _ :: _ => n

theorem rowCount_append (n s : Nat) (done : List (List (List ℚ))) (round : List (List ℚ)) :
    rowCount n s (done ++ [round]) = n := by cases done <;> rfl

theorem rowCount_full {s : Nat} (h : s = n) (done : List (List (List ℚ))) : rowCount n s done = n := by
  cases done <;> simp [rowCount, h]

/-- New rows of a round: the table is extended in the first round, and holds the means of what was seen. -/
theorem Table.average_round {w j : Nat} {f : Nat → Nat → ℚ} {done : List (List (List ℚ))} {begun news : List (List ℚ)}
    (hf : ∀ r c, j ≤ c → f r c = meanAt (seen done begun r) (c - j)) (hnews : ∀ row ∈ news, j + row.length = w)
    (hfits : begun.length + news.length ≤ n) :
    ((of w (rowCount n begun.length done) f).extended (begun.length + news.length)).average done.length begun.length j
        news =
      of w (rowCount n (begun.length + news.length) done) fun r c =>
        if j ≤ c then meanAt (seen done (begun ++ news) r) (c - j)
        else if r < rowCount n begun.length done then f r c else 0 := by
  have hsize : max (rowCount n begun.length done) (begun.length + news.length) =
      rowCount n (begun.length + news.length) done := by
    cases done <;> simp only [rowCount] <;> omega
  rw [extended_of, hsize, average_seen (fun r hr c hc _ => ?_) hnews]
  split
  · exact hf r c hc
  -- Rows that are not there yet belong to the first round, in which nothing was seen at them.
  · rename_i hnew
    cases done with
    | nil => rw [seen_of_le (by simpa [rowCount] using hnew)]; simp [meanAt, mean]
    | cons round done => exact absurd hr hnew

/-! ## An apparatus of lists -/

/-- What is asked of the devices. -/
inductive Event
  | set (k : Nat) (x : ℚ)
  | acquire
  deriving DecidableEq

/-- What measurement control keeps, the answers that the detector will give, and what was asked of the devices, the newest
first. -/
structure Bench where
  acquired : Nat := 0
  round : Nat := 0
  iteration : Nat := 0
  table : Table ℚ
  last : List ℚ := []
  pending : List (Answer ℚ)
  trace : List Event := []

/-- The bench before a measurement with `d` sweep functions. -/
def Bench.fresh (d v : Nat) (answers : List (Answer ℚ)) : Bench := { table := ⟨d + v, []⟩, pending := answers }

abbrev OnBench := StateT Bench (Except Fault)

namespace Bench

def cell {β : Type} (get : Bench → β) (set : β → Bench → Bench) : Cell OnBench β where
  get b := .ok (get b, b)
  set x b := .ok ((), set x b)

/-- The apparatus for `n` points, `d` sweep functions, `v` value names and `k` rounds. -/
def apparatus (n d v k : Nat) (isSoft : Bool) : Apparatus OnBench ℚ where
  acquired := cell (·.acquired) fun x b => { b with acquired := x }
  round := cell (·.round) fun x b => { b with round := x }
  iteration := cell (·.iteration) fun x b => { b with iteration := x }
  table := cell (·.table) fun x b => { b with table := x }
  isSearch := pure false
  pointCount := pure n
  rounds := pure k
  sweeps := pure d
  names := pure v
  isSoft := pure isSoft
  display := pure ()
  report := pure ()

/-- The next answer of the detector. -/
def answer : OnBench (Unit × Answer ℚ) := fun b =>
  match b.pending with
  | [] => .error (.of .exhausted)
  | a :: rest => .ok (((), a), { b with pending := rest, trace := .acquire :: b.trace })

def hard (p : Points ℚ) (v k : Nat) : HardApparatus OnBench Unit ℚ where
  toApparatus := apparatus p.rows.length p.columns v k false
  points := pure p
  aim _ := pure ()
  values := answer

def soft (ps : List (List ℚ)) (d v k : Nat) : SoftApparatus OnBench Unit (List ℚ) ℚ ℚ where
  toApparatus := apparatus ps.length d v k true
  points := pure ps
  coordinates := pure
  last := cell (·.last) fun x b => { b with last := x }
  isSame x y := pure (x == y)
  set _ k x := fun b => .ok (none, { b with trace := .set k x :: b.trace })
  clipped := id
  numbers := pure
  acquire := answer

variable {α : Type} {b : Bench}

theorem bind_eq {β : Type} {x : OnBench α} {b' : Bench} {a : α} (h : x b = .ok (a, b')) (f : α → OnBench β) :
    (x >>= f) b = f a b' := by
  show (x b >>= fun (a, b) => f a b) = _
  rw [h]
  rfl

theorem bind_eq_error {β : Type} {x : OnBench α} {e : Fault} (h : x b = .error e) (f : α → OnBench β) :
    (x >>= f) b = .error e := by
  show (x b >>= fun (a, b) => f a b) = _
  rw [h]
  rfl

theorem discard_eq {x : OnBench α} {b' : Bench} {a : α} (h : x b = .ok (a, b')) : discard x b = .ok ((), b') := by
  rw [discard, LawfulFunctor.map_const, Function.comp_apply, map_eq_pure_bind, bind_eq h]
  rfl

theorem lift_eq {x : Attempt α} {a : α} (h : x = .ok a) (b : Bench) : (liftM x : OnBench α) b = .ok (a, b) := by
  rw [h]
  rfl

theorem answer_eq {a : Answer ℚ} {rest : List (Answer ℚ)} (h : b.pending = a :: rest) :
    answer b = .ok (((), a), { b with pending := rest, trace := .acquire :: b.trace }) := by
  rw [answer, h]

theorem nextRow_eq {d v k : Nat} {isSoft : Bool} (hn : 0 < n) (b : Bench) :
    (apparatus n d v k isSoft).nextRow b = .ok (b.acquired % n, { b with round := b.acquired / n }) := by
  obtain ⟨n, rfl⟩ := Nat.exists_eq_succ_of_ne_zero hn.ne'
  rfl

theorem advance_eq {d v k : Nat} {isSoft : Bool} (hn : 0 < n) (count : Nat) (b : Bench) :
    (apparatus n d v k isSoft).advance count b =
      .ok (b.acquired % n, { b with acquired := b.acquired + count, round := b.acquired / n }) := by
  obtain ⟨n, rfl⟩ := Nat.exists_eq_succ_of_ne_zero hn.ne'
  rfl

theorem row_and_round {rounds row : Nat} (h : b.acquired = rounds * n + row) (hrow : row < n) :
    b.acquired % n = row ∧ b.acquired / n = rounds := by
  refine ⟨h ▸ Nat.mul_add_mod_of_lt hrow, ?_⟩
  rw [h, Nat.mul_comm, Nat.mul_add_div (by omega), Nat.div_eq_of_lt hrow, Nat.add_zero]

end Bench

end QubitLab.Recording
