import QubitLab.Proofs.EmittedLines
import QubitLab.Proofs.TriggerStages

/-!
# Time order of the hardware grid

The points of a hardware grid are in time order up to its end point. The end point stands where the program ends, and
a trigger that is cut later makes a point behind it (`compileWith_endBeforePoint`), which shows as a negative wait.
`compileWith_ordered_iff`: the grid is in order exactly when no point lies behind the end, and exactly when all waits
are positive; it is in order when no line has a negative length and no trigger outlasts the program.
-/

namespace QubitLab.Qasm

theorem ordered_concat {front : Grid HwEvent} {e : TimePoint HwEvent} (hs : front.Pairwise fun p q => p.time < q.time) :
    Ordered (front ++ [e]) ↔ ∀ p ∈ front, p.time ≤ e.time := by
  rw [Ordered, List.pairwise_append]
  constructor
  · rintro ⟨-, -, h⟩ p hp
    exact h p hp e (List.mem_singleton_self e)
  · intro h
    refine ⟨hs.imp Int.le_of_lt, List.pairwise_singleton _ e, fun p hp q hq => ?_⟩
    rw [List.mem_singleton.1 hq]
    exact h p hp

theorem ordered_shiftBy {g : Grid HwEvent} (d : Int) : Ordered (shiftBy d g) ↔ Ordered g := by
  rw [Ordered, shiftBy, List.pairwise_map]
  exact ⟨fun h => h.imp fun hpq => by simpa using hpq, fun h => h.imp fun hpq => by simpa using hpq⟩

/-- Behind the shift no point of a grid that is sorted up to its end comes before time zero, the end apart. -/
theorem shiftBy_nonneg {front : Grid HwEvent} {e : TimePoint HwEvent} (hs : front.Pairwise fun p q => p.time < q.time) :
    ∀ p ∈ shiftBy (shiftOf (front ++ [e])) front, 0 ≤ p.time := by
  intro p hp
  cases front with
  | nil => cases hp
  | cons q r =>
    have hshift : shiftOf (q :: r ++ [e]) = shiftOf (q :: r) := rfl
    rw [hshift] at hp
    exact (shiftOf_spec (hs.imp Int.le_of_lt)).2 p hp

/-- **No event behind the end.** Where no trigger outlasts the program, the hardware grid is in order. -/
theorem Stages.divided_ordered {cfg : Config} {loop : Bool} {lines : List (List SourceOp)} {c : Compilation}
    (hst : Stages cfg loop lines c) (hd : ∀ l ∈ lines, ∀ op ∈ l, op.declares = false)
    (ha : ∀ l ∈ lines, ∀ op ∈ l, op.kind.isAlone = true → l = [op]) (hw : ∀ l ∈ lines, 0 ≤ lineLength cfg l)
    (hT : ∀ x ∈ hwEvents cfg c.names.map lines, x.1 + x.2.lastStage ≤ programLength cfg lines) : Ordered c.divided := by
  have hplan := (hst.converted_plan hd ha hw).1
  obtain ⟨D, hD⟩ := exists_stageBound (hwEvents cfg c.names.map lines)
  have hB : ∀ x ∈ hwEvents cfg c.names.map lines,
      x.1 ≤ programLength cfg lines ∧ x.1 + x.2.lastStage ≤ programLength cfg lines :=
    fun x hx => ⟨hplan.time_le x hx, hT x hx⟩
  obtain ⟨front, e, Q, hdiv, het, -, hbuilt, hdivision⟩ := hst.division hd ha hw hB hD
  have hraw : ∀ x ∈ hwEvents cfg c.names.map lines, x.2.duration = 0 := by
    intro x hx
    obtain ⟨s, hs, rfl⟩ := List.mem_map.1 hx
    exact (hwEventOf_raw ((hst.converted_plan hd ha hw).2 s hs)).1
  rw [hdiv, ordered_concat hbuilt.sorted]
  intro p hp
  -- each point has an event, and each event comes from the program or is a trigger that was cut in time
  obtain ⟨x, hx⟩ := List.exists_mem_of_ne_nil _ (hbuilt.filled p hp)
  have hmem : (p.time, x) ∈ Q := hbuilt.events.mem_iff.1 (mem_timed.2 ⟨p, hp, rfl, hx⟩)
  rw [het]
  rcases hdivision.made _ hmem with ⟨hn, hcoded⟩ | ⟨_, _, -, -, -, -, hle⟩
  · exact (codedEvents_bounds hraw hB hD _ hcoded).2 hn
  · exact hle

/-- **Time order of a compiled program.** The points before the end are in strict order; the whole grid is in order
exactly when none of them lies behind the end, and exactly when every wait of the program is positive. It is when
no line has a negative length and no trigger outlasts the program. -/
theorem compileWith_ordered_iff {s : Session} {cfg : Config} {loop : Bool} {text : String} {c : Compilation}
    (h : (s.compileWith cfg loop text).2 = .ok c) :
    (∃ front e, c.final = front ++ [e] ∧ (front.Pairwise fun p q => p.time < q.time) ∧ (∀ p ∈ front, 0 ≤ p.time) ∧
      (Ordered c.final ↔ ∀ p ∈ front, p.time ≤ e.time)) ∧
    (Ordered c.final ↔ ∀ l ∈ c.assembly, PositiveWait (lineItem l)) ∧
    ((∀ l ∈ playedLines c.parsed, 0 ≤ lineLength cfg l) →
      (∀ x ∈ hwEvents cfg c.names.map (playedLines c.parsed),
        x.1 + x.2.lastStage ≤ programLength cfg (playedLines c.parsed)) → Ordered c.final) := by
  obtain ⟨hst, halone⟩ := compileWith_stages h
  obtain ⟨front, e, Q, hdiv, hbuilt, -, -⟩ := hst.divided_built
  have hfinal : c.final = shiftBy (shiftOf c.divided) front ++ shiftBy (shiftOf c.divided) [e] := by
    rw [hst.final, hdiv, shiftBy, List.map_append]
    rfl
  have hsorted : (shiftBy (shiftOf c.divided) front).Pairwise fun p q => p.time < q.time :=
    List.pairwise_map.2 (hbuilt.sorted.imp fun hpq => by simpa using hpq)
  refine ⟨⟨_, _, hfinal, hsorted, ?_, ?_⟩, ?_, fun hw hT => ?_⟩
  · rw [hdiv]
    exact shiftBy_nonneg hbuilt.sorted
  · rw [hfinal]
    exact ordered_concat hsorted
  · rw [emit_waits_iff hst.assembly, ← hst.final]
    refine ⟨fun ho => ⟨ho, ?_⟩, And.left⟩
    rw [hst.final, ordered_shiftBy] at ho
    rw [hst.final]
    exact (shiftOf_spec ho).2
  · rw [hst.final, ordered_shiftBy]
    exact hst.divided_ordered (fun _ => playedLines_declares) halone hw hT

/-! ## Readout by triggers -/

/-- A trigger channel on a bit. -/
def triggerChannel (bit : Int) (format : List Int) : Channel :=
  { latency := 0, format := .ok format, instruction := .ok "trigger", awg := .error .keyMissing, table := .error .keyMissing
    triggerBit := .ok bit, codewordBits := none }

/-- Two qubits that are read out by triggers of given stages; the readout takes `d` clocks. -/
def triggeredReadout (first second : List Int) (d : Int) : Config :=
  { twoChannels 3 4 with
    qubits := [[("rf", pulseChannel 0 0), ("measurement", triggerChannel 1 first)],
      [("rf", pulseChannel 3 1), ("measurement", triggerChannel 2 second)]]
    operations := [("x", ⟨.rf, .ok ⟨"1", some 1⟩, 4, []⟩), ("ro", ⟨.measurement, .ok ⟨"1", some 1⟩, d, []⟩)] }

theorem compileWith_ordered_iff_readout :
    ∃ c, (Session.compileWith {} (triggeredReadout [5] [2, 10] 40) true "x a | x b\nro a | ro b").2 = .ok c ∧
      Ordered c.final ∧ (∀ l ∈ c.assembly, PositiveWait (lineItem l)) ∧
      c.final.map (·.time) = [0, 3, 7, 12, 47] := by
  have hrun : (Session.compileWith {} (triggeredReadout [5] [2, 10] 40) true "x a | x b\nro a | ro b").2.map (fun c =>
      ((playedLines c.parsed).map (lineLength (triggeredReadout [5] [2, 10] 40)),
        (hwEvents (triggeredReadout [5] [2, 10] 40) c.names.map (playedLines c.parsed)).map (fun x => x.1 + x.2.lastStage),
        c.final.map (·.time))) = .ok ([4, 40], [0, -3, 9, 14], [0, 3, 7, 12, 47]) := by
    decide +kernel
  obtain ⟨c, hc, hshown⟩ := map_eq_ok.1 hrun
  obtain ⟨hlines, hshown⟩ := Prod.mk.inj hshown
  obtain ⟨hends, htimes⟩ := Prod.mk.inj hshown
  obtain ⟨-, hiff, hordered⟩ := compileWith_ordered_iff hc
  have ho : Ordered c.final := by
    refine hordered (fun l hl => ?_) fun x hx => ?_
    · have := List.mem_map_of_mem (f := lineLength (triggeredReadout [5] [2, 10] 40)) hl
      rw [hlines] at this
      simp only [List.mem_cons, List.not_mem_nil, or_false] at this
      omega
    · have := List.mem_map_of_mem (f := fun x : Int × HwEvent => x.1 + x.2.lastStage) hx
      rw [hends] at this
      rw [programLength, hlines]
      simp only [List.mem_cons, List.not_mem_nil, or_false] at this
      simp only [total]
      omega
  exact ⟨c, hc, ho, hiff.1 ho, htimes⟩

/-- Two triggers that outlast a short readout: the second is cut where the first ends, behind the end of the program. -/
theorem compileWith_endBeforePoint :
    (Session.compileWith {} (triggeredReadout [5] [10] 2) true "ro a | ro b").2.map (fun c =>
      (c.final.map (·.time), c.assembly)) = .ok ([0, 5, 2], ["wait 1"] ++ loopHead ++
        ["trigger 1100000, 5", "wait 5", "trigger 0100000, 5", "wait -3"] ++ loopTail) := by
  decide +kernel

end QubitLab.Qasm
