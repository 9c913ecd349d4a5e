import Mathlib
import QubitLab.Proofs.Numeral
import QubitLab.Proofs.SweepReadouts

/-!
# Blocks of a chevron

Each block of `chevronBlocks` takes the pulse that excites the other qubit off the wait that the block before it left, so
the delay behind the trigger gets shorter from block to block (`chevronWaits_eq`); and no calibration block is written.
`chevronBlocks_laidOut_iff` says when the program is nevertheless the intended one.
-/

namespace QubitLab.Experiment

open List

/-- The whole clock cycles of a time. -/
def exactCycles (cycle t : ℚ) : Attempt Int := if cycle = 0 then fail .zeroDivision else .ok ⌊t / cycle⌋

/-- The wait of block `i`. -/
def blockWait (excite : Bool) (pulse wait : ℚ) (i : Nat) : ℚ := if excite then wait - (i + 1) * pulse else wait

theorem chevronWaits_eq (excite : Bool) (pulse : ℚ) : ∀ (n : Nat) (wait : ℚ),
    chevronWaits excite pulse n wait = (range n).map (blockWait excite pulse wait)
  | 0, _ => rfl
  | n + 1, wait => by
    have hnext (i : Nat) : blockWait excite pulse (if excite then wait - pulse else wait) i =
        blockWait excite pulse wait (i + 1) := by
      cases excite
      · rfl
      · simp only [blockWait, if_true]
        push_cast
        ring
    rw [chevronWaits, chevronWaits_eq excite pulse n, range_succ_eq_map, map_cons, map_map]
    exact congrArg₂ cons (by simp [blockWait]) (map_congr_left fun i _ => hnext i)

/-- The block goes from its start to its only readout. -/
def MeasuresOnce (block : List String) : Prop :=
  ∃ gates ro, block = initLine :: gates ++ [ro] ∧ Unmarked gates ∧ isReadout ro = true

section

variable (a b target : String) (n : Nat) (excite calibrate : Bool) (wait pulse flux cycle : ℚ)

theorem chevronBlock_measuresOnce (i : Nat) (w f : Int) : MeasuresOnce (chevronBlock a b target excite i w f) := by
  refine ⟨["QWG trigger " ++ Decimal.natText i ++ "\n", waitLine w, gateLine "X180" a] ++
    (if excite then [gateLine "X180" b] else []) ++ [waitLine f] ++ (if excite then [gateLine "X180" a] else []),
    "RO " ++ target ++ " \n", ?_, ?_, ?_⟩
  · simp [chevronBlock]
  · cases excite <;> simp [Unmarked, waitLine, gateLine, isMark_eq, Chars.afterStart?]
  · simp [isReadout, Text.startsWith, Chars.startsWith, Chars.afterStart?]

variable {a b target excite} in
theorem chevronBlock_wait_inj {i : Nat} {w w' f : Int}
    (h : chevronBlock a b target excite i w f = chevronBlock a b target excite i w' f) : w = w' := by
  have hline : waitLine w = waitLine w' := by simpa [chevronBlock] using h
  have htext : Decimal.intText w = Decimal.intText w' := by simpa [waitLine] using hline
  have hread := Decimal.readInt?_intText w
  rw [htext, Decimal.readInt?_intText, Option.some_inj] at hread
  exact hread.symm

/-- A block for each trigger, with given waits before the first pulse. -/
def triggerBlocks (waits : Nat → ℚ) : List (List String) :=
  (range n).map fun i => chevronBlock a b target excite i ⌊waits i / cycle⌋ ⌊flux / cycle⌋

/-- The program has `n` blocks that differ in their triggers only, with the first pulse `wait` behind the trigger (one pulse
less if the other qubit is excited), and then, if asked for, a block that is read out for each calibration point. -/
def LaidOut (p : Program) : Prop :=
  ∃ calibration, p.blocks =
      triggerBlocks a b target n excite flux cycle (fun _ => if excite then wait - pulse else wait) ++ calibration ∧
    calibration.length = (if calibrate then (pairCalibration a b).length else 0) ∧ ∀ block ∈ p.blocks, MeasuresOnce block

/-- Every block is written, with the wait that the blocks before it have left. -/
theorem chevronBlocks_eq (hcycle : cycle ≠ 0) :
    chevronBlocks a b target n excite wait pulse (exactCycles cycle) (exactCycles cycle flux) calibrate (.ok target) =
      .ok (onPair "chevron_block_seq.qasm" a b
        (triggerBlocks a b target n excite flux cycle (blockWait excite pulse wait))) := by
  have hindex : (chevronWaits excite pulse n wait).zipIdx = (range n).map fun i => (blockWait excite pulse wait i, i) := by
    rw [chevronWaits_eq]
    exact ext_getElem (by simp) fun i hi _ => by simp
  refine bind_eq_ok.2 ⟨triggerBlocks a b target n excite flux cycle (blockWait excite pulse wait), mapM_eq_ok.2 ?_, ?_⟩
  · rw [hindex, triggerBlocks, forall₂_map_left_iff, forall₂_map_right_iff, forall₂_same]
    intro i _
    simp only [exactCycles, if_neg hcycle]
    rfl
  · cases calibrate <;> rfl

/-- The blocks of a chevron are written, each with its own trigger and readout, and are laid out as intended exactly when
the pulses that are taken off add up to no clock cycle and no calibration is asked for. -/
theorem chevronBlocks_laidOut_iff (hcycle : cycle ≠ 0) : ∃ p,
    chevronBlocks a b target n excite wait pulse (exactCycles cycle) (exactCycles cycle flux) calibrate (.ok target) = .ok p ∧
    p.blocks = triggerBlocks a b target n excite flux cycle (blockWait excite pulse wait) ∧
    (∀ block ∈ p.blocks, MeasuresOnce block) ∧
    (LaidOut a b target n excite calibrate wait pulse flux cycle p ↔ calibrate = false ∧
      (excite = true → ∀ i < n, ⌊(wait - (i + 1) * pulse) / cycle⌋ = ⌊(wait - pulse) / cycle⌋)) := by
  have hmeasure : ∀ block ∈ triggerBlocks a b target n excite flux cycle (blockWait excite pulse wait), MeasuresOnce block := by
    intro block hblock
    obtain ⟨i, -, rfl⟩ := mem_map.1 hblock
    exact chevronBlock_measuresOnce ..
  refine ⟨_, chevronBlocks_eq a b target n excite calibrate wait pulse flux cycle hcycle, rfl, hmeasure, ?_⟩
  constructor
  · rintro ⟨calibration, heq, hlength, -⟩
    obtain rfl : calibration = [] := by
      simpa [onPair, triggerBlocks] using congrArg length heq
    rw [append_nil] at heq
    refine ⟨by simpa [pairCalibration] using hlength, ?_⟩
    rintro rfl i hi
    exact chevronBlock_wait_inj (map_inj_left.1 heq i (mem_range.2 hi))
  · rintro ⟨rfl, hsame⟩
    refine ⟨[], ?_, rfl, hmeasure⟩
    rw [append_nil]
    refine map_congr_left fun i hi => ?_
    cases excite with
    | false => rfl
    | true =>
      simp only [blockWait, if_true]
      rw [hsame rfl i (mem_range.1 hi)]

end

/-- The second block waits 60 and not 80. -/
theorem chevronBlocks_laidOut_iff_excited : ∃ p,
    chevronBlocks "q0" "q1" "all" 2 true 100 20 (exactCycles 1) (exactCycles 1 400) false (.ok "all") = .ok p ∧
    ¬ LaidOut "q0" "q1" "all" 2 true false 100 20 400 1 p := by
  obtain ⟨p, hp, -, -, hiff⟩ := chevronBlocks_laidOut_iff "q0" "q1" "all" 2 true false 100 20 400 1 one_ne_zero
  refine ⟨p, hp, fun h => ?_⟩
  have hsame := (hiff.1 h).2 rfl 1 (by decide)
  norm_num at hsame

/-- No calibration block is behind the only block. -/
theorem chevronBlocks_uncalibrated : ∃ p,
    chevronBlocks "q0" "q1" "all" 1 false 100 20 (exactCycles 1) (exactCycles 1 400) true (.ok "all") = .ok p ∧
    ¬ LaidOut "q0" "q1" "all" 1 false true 100 20 400 1 p := by
  refine ⟨_, chevronBlocks_eq "q0" "q1" "all" 1 false true 100 20 400 1 one_ne_zero, ?_⟩
  rintro ⟨calibration, heq, hlength, -⟩
  have hblocks := congrArg length heq
  rw [length_append, hlength] at hblocks
  simp [onPair, triggerBlocks, pairCalibration] at hblocks

end QubitLab.Experiment
