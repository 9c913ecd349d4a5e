import Mathlib.Tactic.FieldSimp
import QubitLab.Proofs.FilterModels
import QubitLab.Readout.Butterfly

/-!
# Flat histograms

A flat histogram is `Aligned` if its three lists have an entry for each bin and hold at each place the count and the two
centres of one bin. The counts always do; the centres are repeated as often as there are bins on their own axis and not on
the other one. `aligned_flatHistogram?_iff`: so the lists go together exactly when there are as many x bins as y bins.
-/

namespace QubitLab.Readout

open List Signal

theorem getElem?_flatten_blocks {γ : Type} {n i : Nat} {bs : List (List γ)} (h : ∀ b ∈ bs, b.length = n) (hi : i < n)
    (j : Nat) : bs.flatten[j * n + i]? = bs[j]?.bind (·[i]?) := by
  induction bs generalizing j with
  | nil => simp
  | cons b bs ih =>
    obtain ⟨hb, hbs⟩ := forall_mem_cons.1 h
    rw [flatten_cons]
    cases j with
    | zero =>
      rw [Nat.zero_mul, Nat.zero_add, getElem?_append_left (by omega)]
      rfl
    | succ j =>
      rw [getElem?_append_right (by rw [Nat.succ_mul]; omega), hb, Nat.succ_mul, Nat.add_right_comm, Nat.add_sub_cancel,
        ih hbs]
      rfl

variable {β F : Type} [Field F] {ny : Nat} {rows : List (List β)} {edges xedges yedges : List F}

/-- The centre of a bin between its two edges. -/
def centre? (edges : List F) (i : Nat) : Option F := do return ((← edges[i]?) + (← edges[i + 1]?)) / 2

/-- The three lists have an entry for each bin, and at each place those of the same bin. -/
structure Aligned (ny : Nat) (rows : List (List β)) (xedges yedges : List F) (f : FlatHistogram β F) : Prop where
  lengths : f.counts.length = rows.length * ny ∧ f.xs.length = rows.length * ny ∧ f.ys.length = rows.length * ny
  counts : ∀ i < rows.length, ∀ j < ny, f.counts[j * rows.length + i]? = rows[i]?.bind (·[j]?)
  xs : ∀ i < rows.length, ∀ j < ny, f.xs[j * rows.length + i]? = centre? xedges i
  ys : ∀ i < rows.length, ∀ j < ny, f.ys[j * rows.length + i]? = centre? yedges j

/-- With evenly spaced edges half of the first step behind an edge is the centre of its bin. -/
theorem binCentres?_eq_some [CharZero F] {n : Nat} (hlen : edges.length = n + 1) (hn : 0 < n)
    (heven : ∃ step, edges.IsChain fun a b => b - a = step) :
    ∃ cs, binCentres? 2 edges = some cs ∧ cs.length = n ∧ ∀ i < n, cs[i]? = centre? edges i := by
  obtain ⟨e0, e1, r, rfl⟩ : ∃ e0 e1 r, edges = e0 :: e1 :: r := by
    rcases edges with _ | ⟨e0, _ | ⟨e1, r⟩⟩
    · cases hlen
    · simp at hlen
      omega
    · exact ⟨e0, e1, r, rfl⟩
  obtain ⟨step, heven⟩ := heven
  refine ⟨_, rfl, by simpa using hlen, fun i hi => ?_⟩
  have hstep := isChain_iff_getElem.1 heven i (by omega)
  rw [← (isChain_cons_cons.1 heven).1] at hstep
  rw [getElem?_map, getElem?_dropLast, if_pos (by omega), centre?, getElem?_eq_getElem (by omega),
    getElem?_eq_getElem (by omega), Option.map_some, ← hstep]
  refine congrArg some ?_
  field_simp
  ring

theorem counts_aligned [Zero β] (hrows : ∀ r ∈ rows, r.length = ny) :
    ((range ny).flatMap fun j => rows.map (·.getD j 0)).length = rows.length * ny ∧
      ∀ i < rows.length, ∀ j < ny,
        ((range ny).flatMap fun j => rows.map (·.getD j 0))[j * rows.length + i]? = rows[i]?.bind (·[j]?) := by
  refine ⟨by simp [Nat.mul_comm], fun i hi j hj => ?_⟩
  have hrow : j < rows[i].length := by rwa [hrows _ (getElem_mem hi)]
  rw [flatMap_def, getElem?_flatten_blocks (by simp) hi, getElem?_map, getElem?_range hj, getElem?_eq_getElem hi]
  simp [hi, hrow]

/-- **When a flat histogram is aligned**: the counts always are, but the centres are repeated for as many bins as there are
on their own axis, so all three lists are aligned exactly if both axes have the same number of bins. -/
theorem aligned_flatHistogram?_iff [Zero β] [CharZero F] (hrows : ∀ r ∈ rows, r.length = ny) (hnx : rows ≠ [])
    (hny : 0 < ny) (hx : xedges.length = rows.length + 1) (hy : yedges.length = ny + 1)
    (hxeven : ∃ step, xedges.IsChain fun a b => b - a = step)
    (hyeven : ∃ step, yedges.IsChain fun a b => b - a = step) :
    ∃ f, flatHistogram? 2 ny rows xedges yedges = some f ∧
      (f.counts.length = rows.length * ny ∧
        ∀ i < rows.length, ∀ j < ny, f.counts[j * rows.length + i]? = rows[i]?.bind (·[j]?)) ∧
      f.xs.length = rows.length * rows.length ∧ f.ys.length = ny * ny ∧
      (Aligned ny rows xedges yedges f ↔ rows.length = ny) := by
  have hpos : 0 < rows.length := length_pos_iff.2 hnx
  obtain ⟨cx, hcx, hxlen, hcentre⟩ := binCentres?_eq_some hx hpos hxeven
  obtain ⟨cy, hcy, hylen, hycentre⟩ := binCentres?_eq_some hy hny hyeven
  have hcounts := counts_aligned hrows
  have hxs : (replicate cx.length cx).flatten.length = rows.length * rows.length := by simp [hxlen]
  have hys : (held cy.length cy).length = ny * ny := by rw [length_held, hylen]
  refine ⟨_, by rw [flatHistogram?, hcx, hcy]; rfl, hcounts, hxs, hys, fun h => ?_, fun h => ?_⟩
  · exact Nat.eq_of_mul_eq_mul_left hpos (hxs.symm.trans h.lengths.2.1)
  · refine ⟨⟨hcounts.1, by rw [hxs, h], by rw [hys, h]⟩, hcounts.2, fun i hi j hj => ?_, fun i hi j hj => ?_⟩
    · have hblock : ∀ b ∈ replicate cx.length cx, b.length = rows.length := fun b hb => by
        rw [eq_of_mem_replicate hb, hxlen]
      rw [getElem?_flatten_blocks hblock hi, getElem?_replicate_of_lt (by omega)]
      exact hcentre i hi
    · rw [held_getElem? (by omega), hylen, h, Nat.mul_comm, Nat.mul_add_div hny, Nat.div_eq_of_lt (h ▸ hi), Nat.add_zero]
      exact hycentre j hj

theorem aligned_flatHistogram?_iff_square :
    ∃ f, flatHistogram? 2 2 [[1, 2], [3, (4 : Int)]] [0, 1, 2] [0, 2, (4 : ℚ)] = some f ∧
      Aligned 2 [[1, 2], [3, (4 : Int)]] [0, 1, 2] [0, 2, (4 : ℚ)] f := by
  have hrows : ∀ r ∈ [[1, 2], [3, (4 : Int)]], r.length = 2 := by decide
  have hx : [0, 1, (2 : ℚ)].length = 3 := rfl
  have hy : [0, 2, (4 : ℚ)].length = 3 := rfl
  obtain ⟨f, hf, -, -, -, h⟩ := aligned_flatHistogram?_iff hrows (by decide) (by decide) hx hy ⟨1, by norm_num⟩ ⟨2, by norm_num⟩
  exact ⟨f, hf, h.2 rfl⟩

/-- One x bin and two y bins: the x centre stands once, each y centre twice. -/
theorem two_bins_not_aligned :
    ∃ f, flatHistogram? 2 2 [[1, (2 : Int)]] [0, 1] [0, 1, (2 : ℚ)] = some f ∧ f.xs.length = 1 ∧ f.ys.length = 4 ∧
      ¬ Aligned 2 [[1, (2 : Int)]] [0, 1] [0, 1, (2 : ℚ)] f :=
  ⟨_, rfl, rfl, rfl, fun h => absurd h.lengths.2.1 (by decide)⟩

end QubitLab.Readout
