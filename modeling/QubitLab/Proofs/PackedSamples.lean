import QubitLab.Generator.Program
import QubitLab.Proofs.PulseReferences

/-!
# Packed samples

A word of a generator holds a sample in 14 bits and its two markers in a bit each. The three are added, not joined bit by
bit, so that a sample must not reach into the bit above it. `Reads w x a b`: what is read from the word `w` are the
markers `a` and `b`, and the sample `x` up to half a step. `pack_reads`: this holds of every word that is made, and
samples outside of -1 to 1 or other markers are refused. Samples are rational numbers here.
-/

namespace QubitLab

/-! ## Nearest whole numbers -/

theorem abs_nearestWhole_sub_le (x : ℚ) : |(nearestWhole x : ℚ) - x| ≤ 1 / 2 := by
  have hsplit := Int.floor_add_fract x
  have hnonneg := Int.fract_nonneg x
  have hlt := Int.fract_lt_one x
  unfold nearestWhole
  rw [abs_le]
  split
  · constructor <;> linarith
  · split
    · push_cast
      constructor <;> linarith
    · split
      · constructor <;> linarith
      · push_cast
        constructor <;> linarith

/-- Rounding does not leave a range that ends at whole numbers. -/
theorem abs_nearestWhole_le {x : ℚ} {n : ℤ} (h : |x| ≤ n) : |nearestWhole x| ≤ n := by
  have hnear := abs_le.1 (abs_nearestWhole_sub_le x)
  rw [abs_le] at h ⊢
  have hupper : (nearestWhole x : ℚ) < (n + 1 : ℤ) := by push_cast; linarith
  have hlower : ((-n - 1 : ℤ) : ℚ) < nearestWhole x := by push_cast; linarith
  rw [Int.cast_lt] at hupper hlower
  omega

theorem truncate?_intCast (n : ℤ) : Scalar.truncate? (n : ℚ) = some n := by
  change some (if (0 : ℚ) ≤ (n : ℚ) then _ else _) = _
  rw [Int.floor_intCast, Int.ceil_intCast, ite_self]

theorem round_zero (x : ℚ) : (Scalar.round 0 x : ℚ) = nearestWhole x := by
  change (nearestWhole (x * (Nat.pow 10 0 : ℕ)) : ℚ) / (Nat.pow 10 0 : ℕ) = _
  simp

namespace Generator

/-! ## Words -/

theorem steps?_eq (x : ℚ) : steps? x = some (nearestWhole (x * 8191)) := by
  rw [steps?, round_zero, truncate?_intCast]
  rfl

/-- A value that a marker may have. -/
def IsBit (m : ℚ) : Prop := m = 0 ∨ m = 1

/-- What is read from a word: the two markers, and the sample up to half a step. -/
structure Reads (w : ℤ) (x a b : ℚ) : Prop where
  nonneg : 0 ≤ w
  lt : w < 65536
  first : (w / 16384 % 2 : ℤ) = a
  second : (w / 32768 % 2 : ℤ) = b
  sample : |(((w.toNat &&& 16383 : ℕ) : ℚ) - 8191) / 8191 - x| ≤ 1 / (2 * 8191)

theorem IsBit.floor {m : ℚ} (h : IsBit m) : (⌊m⌋ = 0 ∨ ⌊m⌋ = 1) ∧ (⌊m⌋ : ℚ) = m := by
  rcases h with rfl | rfl <;> simp

/-- The part of a word below the markers is the sample, counted from the lowest one. -/
theorem and_word {s m n : ℤ} (hs : |s| ≤ 8191) (hm : m = 0 ∨ m = 1) (hn : n = 0 ∨ n = 1) :
    (((word s m n).toNat &&& 16383 : ℕ) : ℤ) = s + 8191 := by
  rw [abs_le] at hs
  rw [show (16383 : ℕ) = 2 ^ 14 - 1 by rfl, Nat.and_two_pow_sub_one_eq_mod]
  unfold word fullScale
  omega

theorem word_reads {x a b : ℚ} (hx : |x| ≤ 1) (ha : IsBit a) (hb : IsBit b) :
    Reads (word (nearestWhole (x * 8191)) ⌊a⌋ ⌊b⌋) x a b := by
  obtain ⟨hm, ha⟩ := ha.floor
  obtain ⟨hn, hb⟩ := hb.floor
  have hs : |nearestWhole (x * 8191)| ≤ 8191 := by
    apply abs_nearestWhole_le
    rw [abs_mul, abs_of_nonneg (by norm_num : (0 : ℚ) ≤ 8191)]
    push_cast
    linarith
  have hand := and_word hs hm hn
  have hnear := abs_nearestWhole_sub_le (x * 8191)
  generalize nearestWhole (x * 8191) = s at hs hand hnear ⊢
  have hbounds := abs_le.1 hs
  have hfirst : word s ⌊a⌋ ⌊b⌋ / 16384 % 2 = ⌊a⌋ := by unfold word fullScale; omega
  have hsecond : word s ⌊a⌋ ⌊b⌋ / 32768 % 2 = ⌊b⌋ := by unfold word fullScale; omega
  refine ⟨by unfold word fullScale; omega, by unfold word fullScale; omega, by rw [hfirst, ha], by rw [hsecond, hb], ?_⟩
  have hlevel : (((word s ⌊a⌋ ⌊b⌋).toNat &&& 16383 : ℕ) : ℚ) = s + 8191 := by exact_mod_cast hand
  calc |(((word s ⌊a⌋ ⌊b⌋).toNat &&& 16383 : ℕ) - 8191 : ℚ) / 8191 - x|
      = |s - x * 8191| / 8191 := by
        rw [hlevel, ← abs_of_nonneg (by norm_num : (0 : ℚ) ≤ 8191), ← abs_div, abs_of_nonneg (by norm_num : (0 : ℚ) ≤ 8191)]
        congr 1
        ring
    _ ≤ 1 / (2 * 8191) := by linarith

/-! ## Rows of words -/

theorem bit?_eq (x : ℚ) : bit? x = if x = 0 then some 0 else if x = 1 then some 1 else none := by
  have hsame (y : ℚ) : (!(Scalar.below x y || Scalar.below y x)) = decide (x = y) := by
    rw [Bool.eq_iff_iff, Bool.not_eq_true', Bool.or_eq_false_iff, Bool.eq_false_iff, Bool.eq_false_iff, ne_eq, ne_eq,
      below_iff, below_iff, decide_eq_true_eq, not_lt, not_lt, and_comm, le_antisymm_iff]
  unfold bit?
  change (if (!(Scalar.below x 0 || Scalar.below 0 x)) = true then _ else
    if (!(Scalar.below x 1 || Scalar.below 1 x)) = true then _ else _) = _
  simp only [hsame, decide_eq_true_eq]

theorem bit?_eq_some_iff {m : ℚ} {n : ℤ} : bit? m = some n ↔ IsBit m ∧ n = ⌊m⌋ := by
  rw [bit?_eq, IsBit]
  split
  · next h => simp [h, eq_comm]
  · split
    · next h => simp [h, eq_comm]
    · next h₀ h₁ => simp [h₀, h₁]

theorem mapM_bit?_eq_some {ms : List ℚ} (h : ∀ m ∈ ms, IsBit m) : ms.mapM bit? = some (ms.map Int.floor) := by
  induction ms with
  | nil => rfl
  | cons m ms ih =>
    rw [List.forall_mem_cons] at h
    simp [List.mapM_cons, bit?_eq_some_iff.2 ⟨h.1, rfl⟩, ih h.2]

theorem mapM_bit?_eq_none {ms : List ℚ} (h : ¬ ∀ m ∈ ms, IsBit m) : ms.mapM bit? = none := by
  induction ms with
  | nil => simp at h
  | cons m ms ih =>
    rw [List.mapM_cons]
    cases hm : bit? m with
    | none => rfl
    | some n =>
      rw [List.forall_mem_cons, and_iff_right (bit?_eq_some_iff.1 hm).1] at h
      simp [ih h]

/-- What can be packed: samples within the range, and markers that are set or not. -/
structure Packable (wave first second : List ℚ) : Prop where
  nonempty : wave ≠ []
  samples : ∀ x ∈ wave, |x| ≤ 1
  first : ∀ m ∈ first, IsBit m
  second : ∀ m ∈ second, IsBit m

theorem any_outside_iff (wave : List ℚ) :
    (wave.any fun x => Scalar.below x (Scalar.ofInt (-1)) || Scalar.below (Scalar.ofInt 1) x) = true ↔
      ¬ ∀ x ∈ wave, |x| ≤ 1 := by
  have hends : (Scalar.ofInt (-1) : ℚ) = -1 ∧ (Scalar.ofInt 1 : ℚ) = 1 := ⟨rfl, rfl⟩
  simp only [List.any_eq_true, Bool.or_eq_true, below_iff, hends, abs_le, not_forall, not_and_or, not_le, exists_prop]

section

variable {wave first second : List ℚ} (hfirst : first.length = wave.length) (hsecond : second.length = wave.length)

include hfirst hsecond

theorem Packable.exists_words (h : Packable wave first second) : ∃ words, pack wave first second = .ok words ∧
    words.length = wave.length ∧ ∀ (i : ℕ) (w : ℤ) (x a b : ℚ), words[i]? = some w → wave[i]? = some x →
      first[i]? = some a → second[i]? = some b → w = word (nearestWhole (x * 8191)) ⌊a⌋ ⌊b⌋ := by
  have hinside := (any_outside_iff wave).not.2 (not_not.2 h.samples)
  have hsteps : wave.mapM (fun x => orFail .value (steps? x)) = .ok (wave.map fun x => nearestWhole (x * 8191)) :=
    mapM_eq_map fun x _ => by rw [steps?_eq]; rfl
  unfold pack
  rw [if_neg (by omega), if_neg (by simpa using h.nonempty), if_neg hinside, mapM_bit?_eq_some h.first,
    mapM_bit?_eq_some h.second, hsteps]
  refine ⟨_, rfl, by simp [hfirst, hsecond], ?_⟩
  intro i w x a b hw hx ha hb
  rw [List.getElem?_map, Option.map_eq_some_iff] at hw
  obtain ⟨⟨⟨s, m⟩, n⟩, hzip, rfl⟩ := hw
  rw [List.getElem?_zip_eq_some, List.getElem?_zip_eq_some, List.getElem?_map, List.getElem?_map, List.getElem?_map, hx,
    ha, hb] at hzip
  obtain ⟨⟨hs, hm⟩, hn⟩ := hzip
  cases hs
  cases hm
  cases hn
  rfl

theorem exists_fault (h : ¬ Packable wave first second) : ∃ fault, pack wave first second = .error fault := by
  unfold pack
  rw [if_neg (by omega)]
  by_cases hempty : wave.isEmpty = true
  · rw [if_pos hempty]
    exact ⟨_, rfl⟩
  rw [if_neg hempty]
  by_cases hsamples : ∀ x ∈ wave, |x| ≤ 1
  · rw [if_neg ((any_outside_iff wave).not.2 (not_not.2 hsamples))]
    by_cases hbits : ∀ m ∈ first, IsBit m
    · rw [mapM_bit?_eq_some hbits,
        mapM_bit?_eq_none fun hbits' => h ⟨by simpa using hempty, hsamples, hbits, hbits'⟩]
      exact ⟨_, rfl⟩
    · rw [mapM_bit?_eq_none hbits]
      exact ⟨_, rfl⟩
  · rw [if_pos ((any_outside_iff wave).2 hsamples)]
    exact ⟨_, rfl⟩

end

/-- **Packed samples are read back.** Samples from -1 to 1 with markers of 0 and 1 are packed into words of 16 bits, from
which the markers are read as they were and the samples up to half a step; all other rows of one length are refused. -/
theorem pack_reads {wave first second : List ℚ} (hfirst : first.length = wave.length)
    (hsecond : second.length = wave.length) :
    (Packable wave first second → ∃ words, pack wave first second = .ok words ∧ words.length = wave.length ∧
      ∀ (i : ℕ) (w : ℤ) (x a b : ℚ), words[i]? = some w → wave[i]? = some x → first[i]? = some a →
        second[i]? = some b → Reads w x a b) ∧
    (¬ Packable wave first second → ∃ fault, pack wave first second = .error fault) := by
  refine ⟨fun h => ?_, exists_fault hfirst hsecond⟩
  obtain ⟨words, hwords, hlength, hword⟩ := h.exists_words hfirst hsecond
  refine ⟨words, hwords, hlength, ?_⟩
  intro i w x a b hw hx ha hb
  rw [hword i w x a b hw hx ha hb]
  exact word_reads (h.samples x (List.mem_of_getElem? hx)) (h.first a (List.mem_of_getElem? ha))
    (h.second b (List.mem_of_getElem? hb))

/-- The two ends of the range and a sample half way between two steps, with all markers. -/
theorem pack_reads_ends : Packable [-1, 1, 1 / 16382, 3 / 16382] [0, 1, 0, 1] [0, 0, 1, 1] ∧
    ∃ words, pack [-1, 1, 1 / 16382, (3 / 16382 : ℚ)] [0, 1, 0, 1] [0, 0, 1, 1] = .ok words ∧
      ∀ w, words[1]? = some w → Reads w 1 1 0 := by
  have h : Packable [-1, 1, 1 / 16382, 3 / 16382] [0, 1, 0, 1] [0, 0, 1, 1] := by
    constructor <;> simp [IsBit, abs_le]; norm_num
  obtain ⟨words, hwords, -, hreads⟩ := (pack_reads (by rfl) (by rfl)).1 h
  exact ⟨h, words, hwords, fun w hw => hreads 1 w 1 1 0 hw rfl rfl rfl⟩

end Generator

end QubitLab
