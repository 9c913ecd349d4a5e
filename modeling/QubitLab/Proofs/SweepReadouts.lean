import QubitLab.Proofs.BenchmarkTexts

/-!
# Readouts of sweeps

The program of a sweep on one qubit has one block for each point, in the order of the points: a start line (none in a
restless sweep), the gates of the point, and a readout. So the lines that start or read out are, point after point, a start
and a readout. `sweeps_measureEach` says this of every sweep and of all rows of a benchmarking program, and counts the
readouts of the sweep over derivative weights, whose calibration points are read out twice.
-/

namespace QubitLab.Experiment

open List

/-! ## Lines -/

/-- All lines of a program, in order. -/
def Program.lines (p : Program) : List String := p.header :: p.blocks.flatten

def isReadout (line : String) : Bool := Text.startsWith "RO " line

def isStart (line : String) : Bool := Text.startsWith "init_all" line || Text.startsWith "\ninit_all" line

/-- The line starts a point or reads it out. -/
def isMark (line : String) : Bool := isStart line || isReadout line

theorem join_lines (p : Program) : String.join p.lines = p.text := by
  have hblocks : ∀ blocks : List (List String), String.join blocks.flatten = String.join (blocks.map String.join) := by
    intro blocks
    induction blocks with
    | nil => rfl
    | cons b blocks ih => simp [ih]
  rw [Program.lines, Program.text, String.join_cons, hblocks]

/-- The gates start nothing and read nothing out. -/
def Unmarked (gates : List String) : Prop := ∀ g ∈ gates, isMark g = false

theorem isMark_eq (line : String) : isMark line = (((Chars.afterStart? "init_all".toList line.toList).isSome ||
    (Chars.afterStart? "\ninit_all".toList line.toList).isSome) || (Chars.afterStart? "RO ".toList line.toList).isSome) := rfl

/-- The lines start a point and read nothing out. -/
def Starts (lines : List String) : Prop := ∀ l ∈ lines, isMark l = true ∧ isReadout l = false

/-! ## Programs that measure each point once -/

/-- The program has one block for each list of gates, in order: a start, the gates and a readout. It reads out once for
each, and the lines that start or read out are a start and a readout for each and no others. -/
structure MeasuresEach (q : String) (start : List String) (gates : List (List String)) (p : Program) : Prop where
  text : p.text = String.join p.lines
  blocks : p.blocks = gates.map fun gs => start ++ gs ++ [readoutLine q]
  readouts : p.lines.filter isReadout = List.replicate gates.length (readoutLine q)
  marks : p.lines.filter isMark = (List.replicate gates.length (start ++ [readoutLine q])).flatten

theorem isReadout_readoutLine (q : String) : isReadout (readoutLine q) = true := by
  simp [readoutLine, isReadout, Text.startsWith, Chars.startsWith, Chars.afterStart?]

theorem filter_isReadout_marks (lines : List String) : (lines.filter isMark).filter isReadout = lines.filter isReadout := by
  rw [filter_filter]
  exact filter_congr fun l _ => by cases h : isReadout l <;> simp [isMark, h]

variable {start : List String} {gates : List (List String)}

theorem filter_isMark_block (q : String) {gates : List String} (hstart : Starts start) (hgates : Unmarked gates) :
    (start ++ gates ++ [readoutLine q]).filter isMark = start ++ [readoutLine q] := by
  rw [filter_append, filter_append, filter_eq_self.2 fun l hl => (hstart l hl).1,
    filter_eq_nil_iff.2 fun g hg => by simp [hgates g hg], append_nil]
  simp [isMark, isReadout_readoutLine]

theorem measuresEach_onQubit (name q : String) (hstart : Starts start) (hgates : ∀ gs ∈ gates, Unmarked gs) :
    MeasuresEach q start gates (onQubit name q (gates.map fun gs => start ++ gs ++ [readoutLine q])) := by
  have hheader : isMark (declare q) = false := by simp [declare, isMark_eq, Chars.afterStart?]
  have hblocks := map_congr_left fun gs hgs => filter_isMark_block q hstart (hgates gs hgs)
  have hmarks : (onQubit name q (gates.map fun gs => start ++ gs ++ [readoutLine q])).lines.filter isMark =
      (List.replicate gates.length (start ++ [readoutLine q])).flatten := by
    rw [Program.lines, onQubit, filter_cons_of_neg (by simpa using hheader), filter_flatten, map_map,
      ← map_const', ← hblocks]
    rfl
  refine ⟨(join_lines _).symm, rfl, ?_, hmarks⟩
  -- Readouts are among the marks, and of these every second one is a readout.
  have hreadout : (start ++ [readoutLine q]).filter isReadout = [readoutLine q] := by
    rw [filter_append, filter_eq_nil_iff.2 fun l hl => by simp [(hstart l hl).2]]
    simp [isReadout_readoutLine]
  rw [← filter_isReadout_marks, hmarks, filter_flatten, map_replicate, hreadout,
    flatten_replicate_singleton]

/-! ## Sweeps -/

/-- A sweep over `n` points writes a program if the gates of all points can be written, and the program measures each
point once, in the order of the points. -/
def Sweeps (q : String) (start : List String) (n : Nat) (gates? : Attempt (List (List String)))
    (result : Attempt Program) : Prop :=
  (∀ gates, gates? = .ok gates → gates.length = n ∧ ∃ p, result = .ok p ∧ MeasuresEach q start gates p) ∧
  ∀ e, gates? = .error e → result = .error e

section

variable {α : Type} {q : String} {calibrate : Bool} {data : Nat → α → Attempt (List String)} {points : List α}

theorem sweepGates_length {flip : List String}
    (h : sweepGates calibrate flip data points = .ok gates) : gates.length = points.length := by
  rw [← (mapM_eq_ok.1 h).length_eq, length_zipIdx]

theorem sweepGates_unmarked (hdata : ∀ i x gs, data i x = .ok gs → Unmarked gs)
    (h : sweepGates calibrate [spacedGateLine "X180" q] data points = .ok gates) : ∀ gs ∈ gates, Unmarked gs := by
  intro gs hgs
  obtain ⟨⟨x, i⟩, -, hx⟩ := mapM_ok_of_mem h hgs
  dsimp only at hx
  split at hx
  · cases hx
    simp [Unmarked]
  · cases hx
    simp [Unmarked, spacedGateLine, isMark_eq, Chars.afterStart?]
  · exact hdata _ _ _ hx

variable (q calibrate points)

/-- The sweeps of which `sweepBlocks` makes the blocks. -/
theorem sweeps_onQubit (name : String) (hstart : Starts start) (hdata : ∀ i x gs, data i x = .ok gs → Unmarked gs) :
    Sweeps q start points.length (sweepGates calibrate [spacedGateLine "X180" q] data points) (do
      return onQubit name q (← sweepBlocks calibrate start [spacedGateLine "X180" q] [readoutLine q] data points)) := by
  constructor
  · intro gates hgates
    exact ⟨sweepGates_length hgates, _, by rw [sweepBlocks, hgates]; rfl,
      measuresEach_onQubit name q hstart (sweepGates_unmarked hdata hgates)⟩
  · intro e he
    rw [sweepBlocks, he]
    rfl

end

theorem starts_unless (restless : Bool) {line : String} (hline : isMark line = true ∧ isReadout line = false) :
    Starts (if restless then [] else [line]) := by
  cases restless <;> simp [Starts, hline]

theorem isMark_initLine : isMark initLine = true ∧ isReadout initLine = false := by decide +kernel

/-! ## Gates of data points -/

theorem relaxationGates_unmarked (q : String) (cycle : Float) (i : Nat) (t : Float) (gs : List String)
    (h : relaxationGates q cycle i t = .ok gs) : Unmarked gs := by
  obtain ⟨n, -, h⟩ := bind_eq_ok.1 h
  cases h
  simp [Unmarked, idleLine, isMark_eq, Chars.afterStart?]

theorem flippingGates_unmarked (q : String) (equator : Bool) (i : Nat) (n : Attempt Int) (gs : List String)
    (h : flippingGates q equator i n = .ok gs) : Unmarked gs := by
  obtain ⟨n, -, h⟩ := bind_eq_ok.1 h
  cases h
  cases equator <;>
    simp [Unmarked, spacedGateLine, isMark_eq, Chars.afterStart?, or_imp, forall_and]

theorem rabiGates_unmarked (q : String) (n : Nat) (amp : String) : Unmarked (rabiGates q n amp) := by
  simp [Unmarked, rabiGates, isMark_eq, Chars.afterStart?]

theorem lastPulse_unmarked {q : String} {d : Detuning} {phase : Attempt Float} {line : String}
    (h : lastPulse q d phase = .ok line) : isMark line = false := by
  unfold lastPulse at h
  split at h
  · cases h
    simp [isMark_eq, Chars.afterStart?]
  · obtain ⟨x, -, h⟩ := bind_eq_ok.1 h
    cases h
    simp [isMark_eq, Chars.afterStart?]

theorem decayGates_unmarked (q : String) (cycle : Float) (d : Detuning) (phase : Nat → Float → Attempt Float)
    {idle : Int → List String} (hidle : ∀ n, Unmarked (idle n)) (i : Nat) (t : Float) (gs : List String)
    (h : decayGates q cycle d phase idle i t = .ok gs) : Unmarked gs := by
  obtain ⟨n, -, h⟩ := bind_eq_ok.1 h
  obtain ⟨last, hlast, h⟩ := bind_eq_ok.1 h
  cases h
  intro g hg
  simp only [mem_append, mem_singleton] at hg
  rcases hg with (rfl | hg) | rfl
  · simp [isMark_eq, Chars.afterStart?]
  · exact hidle n g hg
  · exact lastPulse_unmarked hlast

theorem fluxEchoGates_unmarked (q : String) (i : Nat) : Unmarked (fluxEchoGates q i) := by
  simp [Unmarked, fluxEchoGates, gateLine, isMark_eq, Chars.afterStart?]

theorem fluxTimingGates_unmarked (q : String) (between : Attempt Int) (cycle : Float) (i : Nat) (t : Float)
    (gs : List String) (h : fluxTimingGates q between cycle i t = .ok gs) : Unmarked gs := by
  obtain ⟨n, -, h⟩ := bind_eq_ok.1 h
  obtain ⟨m, -, h⟩ := bind_eq_ok.1 h
  cases h
  simp [Unmarked, gateLine, waitLine, isMark_eq, Chars.afterStart?]

theorem derivativeGates_unmarked (q : String) (i : Nat) (w : String) : Unmarked (derivativeGates q i w) := by
  unfold derivativeGates
  split <;> simp [Unmarked, isMark_eq, Chars.afterStart?]

theorem LinesPerform.unmarked {q : String} {w : Nat} {lines : List String} (h : LinesPerform q w lines) :
    Unmarked lines := by
  obtain ⟨rs, -, rfl, -⟩ := h
  intro g hg
  obtain ⟨r, -, rfl⟩ := mem_map.1 hg
  cases r <;> simp [Clifford.Rotation.name, gateLine, isMark_eq, Chars.afterStart?]

/-! ## Benchmarking -/

/-- The start of a block of a benchmarking program. -/
def benchmarkStart (restless : Bool) : List String := if restless then [] else ["init_all  \n"]

theorem IsSegment.unmarked {q : String} {calibrate restless : Bool} {n j w : Nat} {lines : List String}
    (h : IsSegment q calibrate restless n j w lines) :
    ∃ gates, Unmarked gates ∧ lines = benchmarkStart restless ++ gates ++ [readoutLine q] := by
  obtain ⟨gates, rfl, hgates⟩ := h
  refine ⟨gates, ?_, rfl⟩
  generalize role calibrate n j = r at hgates
  cases r with
  | ground => simp [show gates = [] from hgates, Unmarked]
  | excited =>
    simp [show gates = [spacedGateLine "X180" q] from hgates, Unmarked, spacedGateLine, isMark_eq,
      Chars.afterStart?]
  | data => exact LinesPerform.unmarked hgates

/-- Segments one after the other measure each of their places. -/
theorem measuresEach_segments {α : Type} (name q : String) {calibrate restless : Bool} {n : Nat} {place net : α → Nat}
    {places : List α} {blocks : List (List String)}
    (h : List.Forall₂ (fun x => IsSegment q calibrate restless n (place x) (net x)) places blocks) :
    ∃ gates, gates.length = places.length ∧
      MeasuresEach q (benchmarkStart restless) gates (onQubit name q blocks) := by
  have hgates : ∃ gates : List (List String), gates.length = places.length ∧ (∀ gs ∈ gates, Unmarked gs) ∧
      blocks = gates.map fun gs => benchmarkStart restless ++ gs ++ [readoutLine q] := by
    induction h with
    | nil => exact ⟨[], rfl, by simp, rfl⟩
    | cons hx _ ih =>
      obtain ⟨gs, hgs, rfl⟩ := hx.unmarked
      obtain ⟨gates, hlength, hgates, rfl⟩ := ih
      exact ⟨gs :: gates, by simp [hlength], forall_mem_cons.2 ⟨hgs, hgates⟩, rfl⟩
  obtain ⟨gates, hlength, hgates, rfl⟩ := hgates
  exact ⟨gates, hlength, measuresEach_onQubit name q (starts_unless restless (by decide +kernel)) hgates⟩

/-! ## Weights of the derivative -/

theorem countP_role (calibrate : Bool) (n : Nat) :
    (List.range n).countP (fun i => role calibrate n i ≠ .data) = if calibrate then min 4 n else 0 := by
  have hcount : ∀ k n : Nat, (List.range n).countP (k ≤ ·) = n - k := by
    intro k n
    induction n with
    | zero => simp
    | succ n ih =>
      rw [range_succ, countP_append, ih, countP_singleton]
      split <;> simp_all <;> omega
  have hplaces : (List.range n).countP (fun i => role calibrate n i ≠ .data) =
      (List.range n).countP (dataPlaces calibrate n ≤ ·) := by
    refine countP_congr fun i hi => ?_
    simp [role_eq_data_iff (mem_range.1 hi)]
  rw [hplaces, hcount, dataPlaces]
  split <;> omega

theorem filter_isReadout_gates {gates : List String} (hgates : Unmarked gates) : gates.filter isReadout = [] := by
  rw [← filter_isReadout_marks, (filter_eq_nil_iff (p := isMark)).2 fun g hg => by simp [hgates g hg]]
  rfl

/-- A calibration point is read out twice. -/
theorem length_readouts_derivativeSweep (q : String) (weights : List String) (calibrate : Bool) :
    ((derivativeSweep q weights calibrate).lines.filter isReadout).length =
      weights.length + if calibrate then min 4 weights.length else 0 := by
  have hheader : isReadout (declare q) = false := by
    simp [declare, isReadout, Text.startsWith, Chars.startsWith, Chars.afterStart?]
  have hflip : isReadout (spacedGateLine "X180" q) = false := by
    simp [spacedGateLine, isReadout, Text.startsWith, Chars.startsWith, Chars.afterStart?]
  have hplaces : weights.zipIdx.countP (fun x => role calibrate weights.length x.2 ≠ .data) =
      if calibrate then min 4 weights.length else 0 := by
    rw [← countP_role, range_eq_range', ← zipIdx_map_snd, countP_map]
    rfl
  have hblocks : ∀ (n : Nat) (xs : List (String × Nat)), ((xs.map fun x => [initLine] ++ derivativeCalibration q
      (role calibrate n x.2) ++ derivativeGates q x.2 x.1 ++ [readoutLine q]).flatten.filter isReadout).length =
        xs.length + xs.countP fun x => role calibrate n x.2 ≠ .data := by
    intro n xs
    induction xs with
    | nil => rfl
    | cons x xs ih =>
      rw [map_cons, flatten_cons, filter_append, length_append, ih, countP_cons, length_cons]
      have hpulses := filter_isReadout_gates (derivativeGates_unmarked q x.2 x.1)
      generalize role calibrate n x.2 = r
      cases r <;> simp [derivativeCalibration, hpulses, hflip, isMark_initLine.2, isReadout_readoutLine] <;> omega
  rw [Program.lines, derivativeSweep, onQubit, filter_cons_of_neg (by simpa using hheader), hblocks, hplaces,
    length_zipIdx]

theorem derivativeSweep_measuresEach (q : String) (weights : List String) :
    MeasuresEach q [initLine] (weights.zipIdx.map fun x => derivativeGates q x.2 x.1) (derivativeSweep q weights false) := by
  have hgates : ∀ gs ∈ weights.zipIdx.map fun x => derivativeGates q x.2 x.1, Unmarked gs := by
    intro gs hgs
    obtain ⟨x, -, rfl⟩ := mem_map.1 hgs
    exact derivativeGates_unmarked q x.2 x.1
  have h := measuresEach_onQubit "Motzoi_XY.qasm" q (starts_unless false isMark_initLine) hgates
  rw [map_map] at h
  exact h

/-- Only a sweep without calibration points reads every point out once. -/
theorem derivativeSweep_measuresEach_iff (q : String) (weights : List String) (calibrate : Bool) :
    (∃ gates, gates.length = weights.length ∧ MeasuresEach q [initLine] gates (derivativeSweep q weights calibrate)) ↔
      calibrate = false ∨ weights = [] := by
  constructor
  · rintro ⟨gates, hlength, h⟩
    have hcount := length_readouts_derivativeSweep q weights calibrate
    rw [h.readouts, length_replicate, hlength] at hcount
    cases calibrate with
    | false => exact .inl rfl
    | true => exact .inr (length_eq_zero_iff.1 (by rw [if_pos rfl] at hcount; omega))
  · rintro (rfl | rfl)
    · exact ⟨_, by simp, derivativeSweep_measuresEach q weights⟩
    · exact ⟨[], rfl, derivativeSweep_measuresEach q []⟩

/-! ## All sweeps -/

/-- **Every point of a sweep is read out once**, after a start of its own unless the sweep is restless, in the order of the
points: relaxation, flips, Rabi oscillations, Ramsey and echo decay, flux echo, flux timing and benchmarking. The sweep over
derivative weights does so exactly if it has no calibration points. -/
theorem sweeps_measureEach (q : String) :
    (∀ times cycle calibrate, Sweeps q [initLine] times.length
      (sweepGates calibrate [spacedGateLine "X180" q] (relaxationGates q cycle) times)
      (relaxation q times cycle calibrate)) ∧
    (∀ flips equator calibrate restless, Sweeps q (if restless then [] else [initLine]) flips.length
      (sweepGates calibrate [spacedGateLine "X180" q] (flippingGates q equator) flips)
      (flipping q flips equator calibrate restless)) ∧
    (∀ amps n label, MeasuresEach q [initLine] (amps.map (rabiGates q n)) (rabi q amps n label)) ∧
    (∀ times cycle d calibrate calibration, Sweeps q [initLine] times.length
      (sweepGates calibrate [spacedGateLine "X180" q]
        (decayGates q cycle d (d.phase times.length calibration) fun n => [idleLine n]) times)
      (ramsey q times cycle d calibrate calibration)) ∧
    (∀ times cycle d calibrate calibration, Sweeps q [initLine] times.length
      (sweepGates calibrate [spacedGateLine "X180" q]
        (decayGates q cycle d (d.phase times.length calibration) (refocused q)) times)
      (echo q times cycle d calibrate calibration)) ∧
    (∀ n calibrate, Sweeps q [initLine] n
      (sweepGates calibrate [spacedGateLine "X180" q] (fun i _ => .ok (fluxEchoGates q i)) (List.range n))
      (fluxPhaseEcho q n calibrate)) ∧
    (∀ delays between cycle calibrate, Sweeps q [initLine] delays.length
      (sweepGates calibrate [spacedGateLine "X180" q] (fluxTimingGates q between cycle) delays)
      (fluxTiming q delays between cycle calibrate)) ∧
    (∀ (a : Arguments) (w : Int), a "net_clifford" = .int w → 0 ≤ w → w < 24 →
      ∀ calibrate restless label (lengths : List Int) seeds m,
      (∀ x ∈ lengths.zipIdx, x.2 < dataPlaces calibrate lengths.length → 0 ≤ x.1) → ∃ p gates,
        benchmarking q calibrate restless (Console.benchmarkDraw a) label lengths seeds m = .ok p ∧
        List.Forall₂ (fun x => IsSegment q calibrate restless lengths.length x.2 (Console.netNumber (a "double_curves").truth
          w.toNat (x.1 * dataPlaces calibrate lengths.length + x.2))) (List.range seeds ×ˢ List.range lengths.length)
          p.blocks ∧
        gates.length = seeds * lengths.length ∧ MeasuresEach q (benchmarkStart restless) gates p) ∧
    ∀ weights calibrate,
      ((∃ gates, gates.length = weights.length ∧ MeasuresEach q [initLine] gates (derivativeSweep q weights calibrate)) ↔
        calibrate = false ∨ weights = []) ∧
      (calibrate = false → MeasuresEach q [initLine] (weights.zipIdx.map fun x => derivativeGates q x.2 x.1)
        (derivativeSweep q weights calibrate)) ∧
      ((derivativeSweep q weights calibrate).lines.filter isReadout).length =
        weights.length + if calibrate then min 4 weights.length else 0 := by
  have hstart : Starts [initLine] := starts_unless false isMark_initLine
  refine ⟨fun times cycle calibrate => sweeps_onQubit q calibrate times _ hstart (relaxationGates_unmarked q cycle),
    fun flips equator calibrate restless =>
      sweeps_onQubit q calibrate flips _ (starts_unless restless isMark_initLine) (flippingGates_unmarked q equator),
    fun amps n label => ?_,
    fun times cycle d calibrate calibration =>
      sweeps_onQubit q calibrate times _ hstart (decayGates_unmarked q cycle d _ fun n => ?_),
    fun times cycle d calibrate calibration =>
      sweeps_onQubit q calibrate times _ hstart (decayGates_unmarked q cycle d _ fun n => ?_),
    fun n calibrate => ?_,
    fun delays between cycle calibrate => sweeps_onQubit q calibrate delays _ hstart (fluxTimingGates_unmarked q between cycle),
    fun a w hw h0 hw' calibrate restless label lengths seeds m hlengths => ?_,
    fun weights calibrate => ⟨derivativeSweep_measuresEach_iff q weights calibrate, ?_,
      length_readouts_derivativeSweep q weights calibrate⟩⟩
  · have hgates : ∀ gs ∈ amps.map (rabiGates q n), Unmarked gs := by simp [rabiGates_unmarked]
    have h := measuresEach_onQubit ("Rabi_" ++ label ++ ".qasm") q hstart hgates
    rw [map_map] at h
    exact h
  · simp [Unmarked, idleLine, isMark_eq, Chars.afterStart?]
  · simp [Unmarked, refocused, idleLine, isMark_eq, Chars.afterStart?]
  · have hgates : ∀ (i _x : Nat) gs, Except.ok (ε := Fault) (fluxEchoGates q i) = .ok gs → Unmarked gs := by
      rintro i - _ ⟨⟩
      exact fluxEchoGates_unmarked q i
    have h := sweeps_onQubit q calibrate (List.range n) "Ram_Z_echo.qasm" hstart hgates
    rw [length_range] at h
    exact h
  · obtain ⟨blocks, m', hblocks, hsegments⟩ := benchmarkBlocks_segments q calibrate restless
      (Console.benchmarkDraw_closes hw h0 hw') seeds (fun _ => hlengths) 0 m
    rw [Nat.zero_mul] at hblocks
    rw [← range_eq_range'] at hsegments
    obtain ⟨gates, hlength, h⟩ := measuresEach_segments (label ++ ".qasm") q hsegments
    exact ⟨_, gates, bind_eq_ok.2 ⟨_, hblocks, rfl⟩, hsegments, by
      rw [hlength, length_product, length_range, length_range], h⟩
  · rintro rfl
    exact derivativeSweep_measuresEach q weights

/-- One weight with calibration: its point is read out after a flip, and again after the pulse pair. -/
theorem derivativeSweep_readTwice :
    (derivativeSweep "q0" ["0.1"] true).lines = ["qubit q0 \n", "\ninit_all\n", "X180 q0 \n", "RO q0  \n",
      "X90_Motz q0 0.1 \n", "Y180_Motz q0 0.1 \n", "RO q0  \n"] ∧
    ((derivativeSweep "q0" ["0.1"] true).lines.filter isReadout).length ≠ ["0.1"].length := by
  decide +kernel

end QubitLab.Experiment
