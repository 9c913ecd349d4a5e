import QubitLab.Console.Experiment
import QubitLab.Proofs.GateProducts

/-!
# Benchmarking programs as texts

The text of a benchmarking program of one qubit is a declaration and then one segment of lines for each place of each
row. `IsSegment` says what the lines of a segment are: those of a data segment are gates without idle ones, and their
transfer matrices multiply to that of a Clifford. `benchmarkBlocks_segments` holds for every source of closed
sequences, `benchmarkingOf_segments` for the drawn ones.
-/

namespace QubitLab.Experiment

open Clifford

/-! ## Gate lines -/

/-- The lines are gates on a qubit, none of them idle, that perform a Clifford. -/
def LinesPerform (q : String) (w : Nat) (lines : List String) : Prop :=
  ∃ rs : List Rotation, .I ∉ rs ∧ lines = rs.map (fun r => gateLine r.name q) ∧
    (rs.map Rotation.matrix).reverse.prod = (Single.action w).transfer 4

/-- The sequence is made of Cliffords of one qubit and performs a Clifford. -/
def Closes (w : Nat) (ns : List Nat) : Prop :=
  (∀ n ∈ ns, n < Single.size) ∧ Action.inTurn 4 (ns.map Single.action) = Single.action w

theorem matrix_idle : Rotation.matrix .I = 1 := Action.transfer_identity

theorem prod_filter_idle (rs : List Rotation) :
    ((rs.filter (· != .I)).map Rotation.matrix).reverse.prod = (rs.map Rotation.matrix).reverse.prod := by
  induction rs with
  | nil => rfl
  | cons r rs ih =>
    by_cases hr : r = .I
    · simp [hr, ih, matrix_idle]
    · simp [hr, ih]

theorem linesPerform_cliffordLines (q : String) {w : Nat} {ns : List Nat} (h : Closes w ns) :
    LinesPerform q w (cliffordLines q ns) := by
  refine ⟨_, by simp, rfl, ?_⟩
  rw [prod_filter_idle, Rotation.prod_flatMap h.1, h.2]

/-! ## Segments -/

/-- The number of data places in a row of `n`. -/
def dataPlaces (calibrate : Bool) (n : Nat) : Nat := if calibrate then n - 4 else n

theorem role_eq_data_iff {calibrate : Bool} {n j : Nat} (hj : j < n) :
    role calibrate n j = .data ↔ j < dataPlaces calibrate n := by
  cases calibrate with
  | false => simp [role, dataPlaces, hj]
  | true =>
    simp only [role, dataPlaces, Bool.true_and, Bool.or_eq_true, beq_iff_eq, if_true]
    split
    · simp; omega
    · split
      · simp; omega
      · simp; omega

/-- The lines are those of place `j` in a row of `n`: a start, a preparation of the state or a sequence that performs the
Clifford `w`, and a readout. -/
def IsSegment (q : String) (calibrate restless : Bool) (n j w : Nat) (lines : List String) : Prop :=
  ∃ body, lines = (if restless then [] else ["init_all  \n"]) ++ body ++ [readoutLine q] ∧
    match role calibrate n j with
    | .ground => body = []
    | .excited => body = [spacedGateLine "X180" q]
    | .data => LinesPerform q w body

section

variable {σ : Type} (q : String) (calibrate restless : Bool) {draw : Nat → Int → σ → Attempt (List Nat × σ)}
  {net : Nat → Nat} (hdraw : ∀ k length s, 0 ≤ length → ∃ ns s', draw k length s = .ok (ns, s') ∧ Closes (net k) ns)

include hdraw

/-- A place makes one segment; `min j (dataPlaces calibrate n)` data places of the row come before it. -/
theorem benchmarkBlock_segment {n j : Nat} {length : Int} (hj : j < n)
    (hlength : j < dataPlaces calibrate n → 0 ≤ length) (k : Nat) (s : σ) :
    ∃ lines s', benchmarkBlock q calibrate restless draw n length j (k + min j (dataPlaces calibrate n)) s =
        .ok (lines, k + min (j + 1) (dataPlaces calibrate n), s') ∧
      IsSegment q calibrate restless n j (net (k + j)) lines := by
  have hrole : role calibrate n j = .data ↔ j < dataPlaces calibrate n := role_eq_data_iff hj
  -- A calibration place lies behind all data places, so the count stays.
  have hcount : role calibrate n j ≠ .data → min (j + 1) (dataPlaces calibrate n) = min j (dataPlaces calibrate n) := by
    rw [Ne, hrole]
    omega
  unfold benchmarkBlock IsSegment
  cases hr : role calibrate n j with
  | ground => exact ⟨_, s, by rw [hcount (by simp [hr])], [], by simp, rfl⟩
  | excited => exact ⟨_, s, by rw [hcount (by simp [hr])], [spacedGateLine "X180" q], by simp, rfl⟩
  | data =>
    have hdata := hrole.1 hr
    rw [min_eq_left hdata.le, min_eq_left (Nat.succ_le_of_lt hdata)]
    obtain ⟨ns, s', hns, hcloses⟩ := hdraw (k + j) length s (hlength hdata)
    exact ⟨_, s', bind_eq_ok.2 ⟨(ns, s'), hns, rfl⟩, cliffordLines q ns, rfl, linesPerform_cliffordLines q hcloses⟩

/-- The places of a row make one segment each, the last of them from place `i` on. -/
theorem benchmarkRow_segments {n : Nat} (k : Nat) (lengths : List Int) : ∀ (i : Nat) (s : σ), i + lengths.length = n →
    (∀ x ∈ lengths.zipIdx i, x.2 < dataPlaces calibrate n → 0 ≤ x.1) →
    ∃ row s', benchmarkRow q calibrate restless draw n (lengths.zipIdx i) (k + min i (dataPlaces calibrate n)) s =
        .ok (row, k + dataPlaces calibrate n, s') ∧
      List.Forall₂ (fun j => IsSegment q calibrate restless n j (net (k + j))) (List.range' i lengths.length) row := by
  induction lengths with
  | nil =>
    intro i s hn _
    have hle : dataPlaces calibrate n ≤ i := by cases calibrate <;> simp [dataPlaces] at hn ⊢ <;> omega
    exact ⟨[], s, by rw [min_eq_right hle]; rfl, .nil⟩
  | cons length lengths ih =>
    intro i s hn hlengths
    rw [List.length_cons] at hn
    rw [List.zipIdx_cons] at hlengths ⊢
    obtain ⟨lines, s₁, hblock, hlines⟩ := benchmarkBlock_segment q calibrate restless hdraw (show i < n by omega)
      (hlengths _ List.mem_cons_self) k s
    obtain ⟨row, s₂, hrow, hrows⟩ := ih (i + 1) s₁ (by omega) fun x hx => hlengths x (List.mem_cons_of_mem _ hx)
    exact ⟨lines :: row, s₂, bind_eq_ok.2 ⟨_, hblock, bind_eq_ok.2 ⟨_, hrow, rfl⟩⟩, .cons hlines hrows⟩

/-- All rows from row `r` on make their segments, if a source gives closed sequences. -/
theorem benchmarkBlocks_segments {lengths : List Int} (seeds : Nat)
    (hlengths : 0 < seeds → ∀ x ∈ lengths.zipIdx, x.2 < dataPlaces calibrate lengths.length → 0 ≤ x.1) :
    ∀ (r : Nat) (s : σ), ∃ blocks s', benchmarkBlocks q calibrate restless draw lengths seeds
        (r * dataPlaces calibrate lengths.length) s = .ok (blocks, (r + seeds) * dataPlaces calibrate lengths.length, s') ∧
      List.Forall₂ (fun x => IsSegment q calibrate restless lengths.length x.2
          (net (x.1 * dataPlaces calibrate lengths.length + x.2)))
        (List.range' r seeds ×ˢ List.range lengths.length) blocks := by
  induction seeds with
  | zero => exact fun r s => ⟨[], s, rfl, .nil⟩
  | succ seeds ih =>
    intro r s
    have hlengths := hlengths seeds.succ_pos
    obtain ⟨row, s₁, hrow, hsegments⟩ := benchmarkRow_segments q calibrate restless hdraw
      (r * dataPlaces calibrate lengths.length) lengths 0 s (Nat.zero_add _) hlengths
    obtain ⟨blocks, s₂, hblocks, hrest⟩ := ih (fun _ => hlengths) (r + 1) s₁
    rw [← Nat.succ_mul] at hrow
    refine ⟨row ++ blocks, s₂, bind_eq_ok.2 ⟨_, hrow, bind_eq_ok.2 ⟨_, hblocks, ?_⟩⟩, ?_⟩
    · rw [Nat.succ_add]; rfl
    · rw [List.range'_succ, List.product_cons]
      refine List.rel_append (List.forall₂_map_left_iff.2 ?_) hrest
      rwa [List.range_eq_range']

end

end QubitLab.Experiment

/-! ## Drawn sequences -/

namespace QubitLab.Console

open Clifford Experiment

/-- The net Clifford of data segment `k`: a given one, or the identity and a flip by turns. -/
def netNumber (double : Bool) (w k : Nat) : Nat := if double then (if k % 2 = 0 then 0 else 3) else w

theorem benchmarkingSequence_closes {count w : Int} (hcount : 0 ≤ count) (h0 : 0 ≤ w) (hw : w < 24) (m : Random.Mersenne) :
    ∃ ns m', benchmarkingSequence (.int count) (.int w) .single 11520 .null m = .ok (ns, m') ∧
      Closes w.toNat (ns.map Int.toNat) := by
  obtain ⟨ns, m', hdraw, hns⟩ := drawSequence_eq (g := .single) (by decide : (1 : Int) ≤ 11520) hcount none m
  have hvalid := hns.natAbs_lt none (by simp)
  obtain ⟨r, hr, hrecovery, hact⟩ := recoveryOf_eq hvalid (w := w.toNat) (show _ < 24 by omega)
  rw [← cliffordArg_int (g := .single) h0 hw] at hrecovery
  have hnat : ns.map Int.toNat = ns.map Int.natAbs := List.map_congr_left fun n hn => by have := hns.2 n hn; omega
  refine ⟨ns ++ [(r : Int)], m', benchmarkingSequence_eq none hdraw hrecovery, ?_, ?_⟩
  · intro n hn
    rw [List.map_append, hnat, List.mem_append] at hn
    rcases hn with hn | hn
    · obtain ⟨k, hk, rfl⟩ := List.mem_map.1 hn
      exact hvalid k hk
    · exact List.mem_singleton.1 hn ▸ hr
  · rw [List.map_append, hnat, List.map_append, List.map_map, List.map_singleton, List.map_singleton,
      Action.inTurn_concat]
    exact hact

theorem benchmarkDraw_closes {a : Arguments} {w : Int} (hw : a "net_clifford" = .int w) (h0 : 0 ≤ w) (hw' : w < 24)
    (k : Nat) (count : Int) (m : Random.Mersenne) (hcount : 0 ≤ count) :
    ∃ ns m', benchmarkDraw a k count m = .ok (ns, m') ∧ Closes (netNumber (a "double_curves").truth w.toNat k) ns := by
  obtain ⟨v, hv, hv0, hv', hnet⟩ : ∃ v : Int, (if (a "double_curves").truth then Value.int (if k % 2 = 0 then 0 else 3)
      else a "net_clifford") = .int v ∧ 0 ≤ v ∧ v < 24 ∧ v.toNat = netNumber (a "double_curves").truth w.toNat k := by
    unfold netNumber
    split
    · exact ⟨_, rfl, by split <;> decide, by split <;> decide, by split <;> rfl⟩
    · exact ⟨w, hw, h0, hw', rfl⟩
  obtain ⟨ns, m', hns, hcloses⟩ := benchmarkingSequence_closes hcount hv0 hv' m
  exact ⟨_, m', bind_eq_ok.2 ⟨(ns, m'), by rw [hv, hns], rfl⟩, hnet ▸ hcloses⟩

/-- The lengths of data places are read if there are rows. -/
theorem exists_lengths {items : List Value} {calibrate : Bool} (seeds : Nat)
    (h : ∀ x ∈ items.zipIdx, role calibrate items.length x.2 = .data → ∃ n, readInt x.1 = .ok n ∧ 0 ≤ n) :
    ∃ lengths : List Int, (items.zipIdx.mapM fun (v, i) =>
        if seeds > 0 && role calibrate items.length i == Role.data then readInt v else .ok (v.int?.getD 0)) = .ok lengths ∧
      lengths.length = items.length ∧
      (0 < seeds → ∀ x ∈ lengths.zipIdx, x.2 < dataPlaces calibrate items.length → 0 ≤ x.1) := by
  have hone : ∀ x ∈ items.zipIdx, ∃ n : Int, (if seeds > 0 && role calibrate items.length x.2 == .data then readInt x.1
      else .ok (x.1.int?.getD 0)) = .ok n ∧ (0 < seeds → role calibrate items.length x.2 = .data → 0 ≤ n) := by
    intro x hx
    split
    · rename_i hdata
      obtain ⟨n, hn, h0⟩ := h x hx (by simpa using (Bool.and_eq_true_iff.1 hdata).2)
      exact ⟨n, hn, fun _ _ => h0⟩
    · rename_i hdata
      refine ⟨_, rfl, fun hseeds hrole => absurd ?_ hdata⟩
      simp [hseeds, hrole]
  obtain ⟨lengths, hlengths, hread⟩ := exists_mapM_ok hone
  have hlen : lengths.length = items.length := by rw [← hread.length_eq, List.length_zipIdx]
  refine ⟨lengths, hlengths, hlen, fun hseeds x hx hplace => ?_⟩
  obtain ⟨hlt, hx⟩ := List.getElem?_eq_some_iff.1 (List.mem_zipIdx_iff_getElem?.1 hx)
  have hj : x.2 < items.length := hlen ▸ hlt
  have hdata := hread.get (by rwa [List.length_zipIdx]) hlt hseeds
  simp only [List.get_eq_getElem, List.getElem_zipIdx, Nat.zero_add, hx] at hdata
  exact hdata ((role_eq_data_iff hj).2 hplace)

/-- A benchmarking program is written for all numbers of Cliffords and from every state of the generator. It has one
segment for each place of each row, and each data segment performs its net Clifford. -/
theorem benchmarkingOf_segments (a : Arguments) (items : List Value) (seeds : Nat) (label : String) (w : Int)
    (hitems : itemsArg (a "nr_cliffords") = .ok items) (hseeds : rangeArg (a "nr_seeds") = .ok seeds)
    (hlabel : textArg (a "label") = .ok label) (hw : a "net_clifford" = .int w) (h0 : 0 ≤ w) (hw' : w < 24)
    (hlengths : ∀ x ∈ items.zipIdx, role (a "cal_points").truth items.length x.2 = .data →
      ∃ n, readInt x.1 = .ok n ∧ 0 ≤ n) (m : Random.Mersenne) :
    ∃ p, benchmarkingOf m a = .ok p ∧
      p.text = declare (a "qubit_name").display ++ String.join (p.blocks.map String.join) ∧
      List.Forall₂ (fun x => IsSegment (a "qubit_name").display (a "cal_points").truth (a "restless").truth items.length x.2
          (netNumber (a "double_curves").truth w.toNat (x.1 * dataPlaces (a "cal_points").truth items.length + x.2)))
        (List.range seeds ×ˢ List.range items.length) p.blocks := by
  obtain ⟨lengths, hread, hlen, hlengths⟩ := exists_lengths seeds hlengths
  rw [← hlen] at hlengths
  obtain ⟨blocks, m', hblocks, hsegments⟩ := benchmarkBlocks_segments (a "qubit_name").display (a "cal_points").truth
    (a "restless").truth (benchmarkDraw_closes hw h0 hw') seeds hlengths 0 m
  rw [Nat.zero_mul] at hblocks
  refine ⟨{ onQubit (label ++ ".qasm") (a "qubit_name").display blocks with name := Text.lastPart (label ++ ".qasm") },
    bind_eq_ok.2 ⟨items, hitems, bind_eq_ok.2 ⟨seeds, hseeds, bind_eq_ok.2 ⟨lengths, hread, bind_eq_ok.2 ⟨label, hlabel,
      bind_eq_ok.2 ⟨_, bind_eq_ok.2 ⟨_, hblocks, rfl⟩, rfl⟩⟩⟩⟩⟩, rfl, ?_⟩
  rw [List.range_eq_range', ← hlen]
  exact hsegments

/-- Two rows of three data places, whose net Cliffords alternate through both rows. -/
theorem benchmarkingOf_segments_alternate :
    ∃ p, benchmarkingOf (Random.Mersenne.seeded 5) (fun
        | "qubit_name" => .text "q0"
        | "nr_cliffords" => .list ([2, 4, 8, 9, 9, 9, 9].map .int)
        | "nr_seeds" => .int 2
        | "net_clifford" => .int 0
        | "label" => .text "decay"
        | "cal_points" => .bool true
        | "double_curves" => .bool true
        | _ => .bool false) = .ok p ∧
      p.text = declare "q0" ++ String.join (p.blocks.map String.join) ∧
      List.Forall₂ (fun x => IsSegment "q0" true false 7 x.2 (netNumber true 0 (x.1 * 3 + x.2)))
        (List.range 2 ×ˢ List.range 7) p.blocks := by
  refine benchmarkingOf_segments _ ([2, 4, 8, 9, 9, 9, 9].map .int) 2 "decay" 0 rfl rfl rfl rfl (by decide) (by decide)
    (fun x hx _ => ?_) _
  obtain ⟨n, hn, hx⟩ := List.mem_map.1 (List.fst_mem_of_mem_zipIdx hx)
  exact ⟨n, by rw [← hx]; rfl, (by decide : ∀ n ∈ ([2, 4, 8, 9, 9, 9, 9] : List Int), 0 ≤ n) n hn⟩

end QubitLab.Console
