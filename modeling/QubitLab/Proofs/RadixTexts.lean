import Mathlib
import QubitLab.Proofs.Numeral
import QubitLab.Proofs.Outcome

/-!
# Numbers that are written in a base are read back

`radixText` takes each quotient as the nearest double, cut toward zero. The quotient gets smaller at every step
(`quotient?_lt`), so the digits end. Below `2 ^ 53` it is the quotient of the naturals (`quotient?_eq_div`); above it may be
off, and the digits spell a number that has drifted from the given one by what each quotient of the run (`DigitRun`) was off,
in the place of the digits that follow it. `radixText_exact_iff`: the text reads back as the number exactly when these add
up to nothing.
-/

namespace QubitLab.Decimal

section

variable {b x q : Nat}

/-! ## Quotients -/

/-- A rounded quotient is off by at most one half. -/
theorem roundDiv_bounds (num den : Nat) (h : 0 < den) :
    num / den ≤ roundDiv num den ∧ 2 * (roundDiv num den * den) ≤ 2 * num + den := by
  have hdiv := Nat.div_add_mod num den
  have hmul : (num / den + 1) * den = den * (num / den) + den := by ring
  have hmul' : num / den * den = den * (num / den) := Nat.mul_comm ..
  simp only [roundDiv]
  split_ifs <;> constructor <;> omega

theorem bitLength_le (x k : Nat) : bitLength x ≤ k ↔ x < 2 ^ k := by
  rw [bitLength]
  split
  case isTrue hx => simp [hx]
  case isFalse hx => exact Nat.log2_lt hx

/-- What is left of `m * 2 ^ e` when the places behind the point are cut. -/
theorem cut_half (m : Nat) (e : Int) :
    m * 2 ^ (e + 1).toNat / 2 ^ (-(e + 1)).toNat = 2 * m * 2 ^ e.toNat / 2 ^ (-e).toNat := by
  rcases le_or_gt 0 e with he | he
  · rw [show (e + 1).toNat = e.toNat + 1 by omega, show (-(e + 1)).toNat = (-e).toNat by omega, pow_succ]
    congr 1
    ring
  · rw [show (e + 1).toNat = e.toNat by omega, show (-e).toNat = (-(e + 1)).toNat + 1 by omega, pow_succ,
      show 2 * m * 2 ^ e.toNat = m * 2 ^ e.toNat * 2 by ring, Nat.mul_div_mul_right _ _ (by decide)]

theorem quotient?_cases (b : Nat) {e : Int} (hx : 0 < x) (he : lastPlace x b = e) :
    (quotient? x b = none ∧ 970 < e) ∨
      quotient? x b = some (roundDiv (x * 2 ^ (-e).toNat) (b * 2 ^ e.toNat) * 2 ^ e.toNat / 2 ^ (-e).toNat) := by
  simp only [quotient?, nearestRatio?, if_neg hx.ne', he, Nat.pow_eq]
  generalize roundDiv (x * 2 ^ (-e).toNat) (b * 2 ^ e.toNat) = m
  by_cases hm : m = 2 ^ 53
  · -- one place more than a double has: the last one is a zero
    have hhalf : (2 : Nat) ^ 52 * 2 ^ (e + 1).toNat / 2 ^ (-(e + 1)).toNat = m * 2 ^ e.toNat / 2 ^ (-e).toNat := by
      rw [cut_half, hm, show (2 : Nat) ^ 53 = 2 * 2 ^ 52 by decide]
    rw [if_pos hm]
    split
    case isTrue hlarge =>
      have hexp : e + 1 > 971 := hlarge.2
      exact .inl ⟨rfl, by omega⟩
    case isFalse => exact .inr (congrArg some hhalf)
  · rw [if_neg hm]
    split
    case isTrue hlarge =>
      have hexp : e > 971 := hlarge.2
      exact .inl ⟨rfl, by omega⟩
    case isFalse => exact .inr rfl

variable (hb : 2 ≤ b) (hb' : b ≤ 36)
include hb hb'

/-- A quotient is at least `2 ^ 52` in units of its last place. -/
theorem lastPlace_spec (hx : 0 < x) : lastPlace x b + 54 ≤ bitLength x ∧
    b * 2 ^ (lastPlace x b).toNat * 2 ^ 52 ≤ x * 2 ^ (-lastPlace x b).toNat := by
  have hxpos := bitLength_le x 0
  have hxlow := bitLength_le x (bitLength x - 1)
  have hblow := bitLength_le b 1
  have hbup := bitLength_le b 6
  obtain ⟨e, hdef⟩ : ∃ e : Int, e = bitLength x - bitLength b - 53 := ⟨_, rfl⟩
  have hplace : lastPlace x b = max (if x * 2 ^ (-e).toNat < b * 2 ^ e.toNat * 2 ^ 53 then e else e + 1) (-1074) := by
    rw [hdef]
    rfl
  split at hplace
  case isTrue =>
    rw [show lastPlace x b = e by omega]
    refine ⟨by omega, ?_⟩
    calc b * 2 ^ e.toNat * 2 ^ 52 ≤ 2 ^ bitLength b * 2 ^ e.toNat * 2 ^ 52 := by
          gcongr
          exact ((bitLength_le b _).1 le_rfl).le
      _ = 2 ^ (bitLength x - 1) * 2 ^ (-e).toNat := by
        simp only [← pow_add]
        congr 1
        omega
      _ ≤ x * 2 ^ (-e).toNat := by
        gcongr
        omega
  case isFalse hnot =>
    rw [show lastPlace x b = e + 1 by omega]
    refine ⟨by omega, ?_⟩
    rcases le_or_gt 0 e with hsign | hsign
    · rw [show (e + 1).toNat = e.toNat + 1 by omega, show (-(e + 1)).toNat = (-e).toNat by omega, pow_succ]
      linarith
    · rw [show (-e).toNat = (-(e + 1)).toNat + 1 by omega, pow_succ, show e.toNat = (e + 1).toNat by omega] at hnot
      linarith

/-- A quotient is taken in units of `p / t`, of which it is at least `2 ^ 52`; below `2 ^ 53` these are no whole numbers. -/
theorem quotient?_spec (hx : 0 < x) : ∃ p t : Nat, 0 < p ∧ 0 < t ∧ b * p * 2 ^ 52 ≤ x * t ∧ (x < 2 ^ 53 → p = 1) ∧
    (quotient? x b = none ∧ 2 ^ 53 ≤ x ∨ quotient? x b = some (roundDiv (x * t) (b * p) * p / t)) := by
  obtain ⟨hlast, hlow⟩ := lastPlace_spec hb hb' hx
  have hlength := bitLength_le x 53
  refine ⟨2 ^ (lastPlace x b).toNat, 2 ^ (-lastPlace x b).toNat, by positivity, by positivity, hlow, fun hlt => ?_, ?_⟩
  · rw [Int.toNat_of_nonpos (by omega), pow_zero]
  · rcases quotient?_cases b hx rfl with ⟨hnone, hlarge⟩ | hsome
    · exact .inl ⟨hnone, by omega⟩
    · exact .inr hsome

theorem quotient?_lt (hx : 0 < x) (h : quotient? x b = some q) : q < x := by
  obtain ⟨p, t, hp, ht, hlow, -, ⟨hnone, -⟩ | hsome⟩ := quotient?_spec hb hb' hx
  · rw [hnone] at h
    cases h
  rw [hsome, Option.some_inj] at h
  subst h
  have hunit : p < x * t := by
    have hmul : 2 * p ≤ b * p := Nat.mul_le_mul_right p hb
    omega
  obtain ⟨-, hupper⟩ := roundDiv_bounds (x * t) (b * p) (by positivity)
  refine Nat.div_lt_of_lt_mul ?_
  by_contra hle
  nlinarith

/-- Below `2 ^ 53` the next whole number is too far for a quotient to be rounded to it. -/
theorem quotient?_eq_div (hx : 0 < x) (hlt : x < 2 ^ 53) : quotient? x b = some (x / b) := by
  obtain ⟨p, t, -, ht, hlow, hone, ⟨-, hlarge⟩ | hsome⟩ := quotient?_spec hb hb' hx
  · omega
  obtain rfl := hone hlt
  rw [mul_one] at hlow
  rw [hsome, mul_one, mul_one, Option.some_inj]
  obtain ⟨hlower, hupper⟩ := roundDiv_bounds (x * t) b (by omega)
  apply Nat.le_antisymm
  · by_contra hnext
    have hround : (x / b + 1) * t ≤ roundDiv (x * t) b := (Nat.le_div_iff_mul_le ht).1 (by omega)
    have hpast : x < b * (x / b + 1) := Nat.lt_mul_div_succ x (by omega)
    have hshort : 2 * t ≤ b := by nlinarith
    nlinarith
  · rw [Nat.le_div_iff_mul_le ht]
    refine le_trans ((Nat.le_div_iff_mul_le (by omega)).2 ?_) hlower
    calc x / b * t * b = x / b * b * t := by ring
      _ ≤ x * t := Nat.mul_le_mul_right t (Nat.div_mul_le_self x b)

end

/-! ## Digits -/

def radixChar (d : Nat) : Char := radixDigits.getD d '0'

def signText (neg : Bool) : List Char := if neg then ['-'] else []

/-- The text of digits, lowest first. -/
def digitText (neg : Bool) (width : Option Int) (ds : List Nat) : String :=
  String.ofList (zeroFill (width.getD 0).toNat (signText neg ++ ds.reverse.map radixChar))

section

variable {b : Nat} {ds : List Nat}

theorem radixDigit_of_lt {d : Nat} (h : d < 36) : radixDigit d = .ok (radixChar d) := by
  have hlength : d < radixDigits.length := h.trans (by decide)
  simp only [radixDigit, radixChar, if_neg (show ¬(d : Int) < 0 by omega), Int.toNat_natCast,
    List.getElem?_eq_getElem hlength, List.getD_eq_getElem _ _ hlength]
  rfl

/-- The character of a digit is no blank, and is read as the digit. -/
theorem radixChar_of_lt {d : Nat} (h : d < 36) :
    digitValue? (radixChar d) = some d ∧ Chars.isBlank (radixChar d) = false := by
  have hall : ∀ d < 36, digitValue? (radixChar d) = some d ∧ Chars.isBlank (radixChar d) = false := by decide
  exact hall d h

variable (hb : b ≤ 36) (hds : ∀ d ∈ ds, d < b)
include hb hds

theorem readDigits?_radixChar {n : Nat} {prev : Bool} (hprev : ds = [] → prev = true) :
    readDigits? b n prev (ds.map radixChar) = some (ds.foldl (fun a d => a * b + d) n) := by
  induction ds generalizing n prev with
  | nil => rw [List.map_nil, readDigits?, if_pos (hprev rfl), List.foldl_nil]
  | cons d ds ih =>
    obtain ⟨hd, hds⟩ := List.forall_mem_cons.1 hds
    rw [List.map_cons, readDigits?_cons (radixChar_of_lt (hd.trans_le hb)).1 hd, ih hds fun _ => rfl, List.foldl_cons]

theorem digitValue?_of_mem {c : Char} (hc : c ∈ ds.map radixChar) :
    (digitValue? c).isSome = true ∧ (digitValue? c).getD 0 < b ∧ Chars.isBlank c = false := by
  obtain ⟨d, hd, rfl⟩ := List.mem_map.1 hc
  obtain ⟨hvalue, hblank⟩ := radixChar_of_lt ((hds d hd).trans_le hb)
  rw [hvalue]
  exact ⟨rfl, hds d hd, hblank⟩

/-- The letter of a base mark is no digit of its base. -/
theorem dropBaseMark_radixChar : dropBaseMark b (ds.map radixChar) = ds.map radixChar := by
  have hmark : ∀ c ∈ ds.map radixChar, ((b = 16 && (c == 'x' || c == 'X')) || (b = 8 && (c == 'o' || c == 'O')) ||
      (b = 2 && (c == 'b' || c == 'B'))) = false := by
    intro c hc
    obtain ⟨-, hlt, -⟩ := digitValue?_of_mem hb hds hc
    by_contra hmark
    simp only [Bool.not_eq_false, Bool.or_eq_true, Bool.and_eq_true, decide_eq_true_eq, beq_iff_eq] at hmark
    rcases hmark with (⟨rfl, rfl | rfl⟩ | ⟨rfl, rfl | rfl⟩) | ⟨rfl, rfl | rfl⟩ <;> exact absurd hlt (by decide)
  unfold dropBaseMark
  split
  case h_1 c r heq =>
    have hc : c ∈ ds.map radixChar := by simp [heq]
    rw [hmark c hc]
    rfl
  case h_2 => rfl

theorem radixChar_not_sign (r : List Char) : ds.map radixChar ≠ '-' :: r ∧ ds.map radixChar ≠ '+' :: r := by
  have hsome (c : Char) (hc : c ∈ ds.map radixChar) := (digitValue?_of_mem hb hds hc).1
  constructor <;> intro h <;> rw [h] at hsome <;> exact absurd (hsome _ List.mem_cons_self) (by decide)

/-- Digits behind a sign are read as the number they spell. -/
theorem readInt?_radixChar (neg : Bool) (hne : ds ≠ []) : readInt? b (signText neg ++ ds.map radixChar) =
    some ((if neg then (-1 : Int) else 1) * (ds.foldl (fun a d => a * b + d) 0 : Nat)) := by
  have hblank : ∀ c ∈ signText neg ++ ds.map radixChar, Chars.isBlank c = false := by
    intro c hc
    rcases List.mem_append.1 hc with hc | hc
    · cases neg
      · cases hc
      · rw [List.mem_singleton.1 hc]
        decide
    · exact (digitValue?_of_mem hb hds hc).2.2
  have htrim : Chars.trim (signText neg ++ ds.map radixChar) = signText neg ++ ds.map radixChar :=
    trimBy_eq_self (fun c hc => hblank c (List.mem_of_mem_head? hc)) fun c hc => hblank c (List.mem_of_mem_getLast? hc)
  have hsign : takeSign (signText neg ++ ds.map radixChar) = (neg, ds.map radixChar) := by
    cases neg
    · change takeSign (ds.map radixChar) = _
      rw [takeSign]
      · exact fun r => (radixChar_not_sign hb hds r).1
      · exact fun r => (radixChar_not_sign hb hds r).2
    · rfl
  simp only [readInt?, htrim, hsign, dropBaseMark_radixChar hb hds]
  rw [readDigits?_radixChar hb hds fun h => absurd h hne]
  cases neg <;> simp

theorem zeroFill_radixChar (neg : Bool) (w : Nat) : ∃ k,
    zeroFill w (signText neg ++ ds.map radixChar) = signText neg ++ (List.replicate k 0 ++ ds).map radixChar ∧
      w ≤ (signText neg).length + k + ds.length := by
  have hpad (w : Nat) : zeroPad w (ds.map radixChar) = (List.replicate (w - ds.length) 0 ++ ds).map radixChar := by
    rw [zeroPad, List.map_append, List.map_replicate, List.length_map]
    rfl
  cases neg
  · have hfill : zeroFill w (ds.map radixChar) = zeroPad w (ds.map radixChar) := by
      rw [zeroFill]
      · exact fun r => (radixChar_not_sign hb hds r).1
      · exact fun r => (radixChar_not_sign hb hds r).2
    exact ⟨w - ds.length, hfill.trans (hpad w), by omega⟩
  · exact ⟨w - 1 - ds.length, congrArg ('-' :: ·) (hpad (w - 1)), by rw [signText, if_pos rfl, List.length_singleton]; omega⟩

/-- Digits, lowest first, that are written behind a sign and zeros are read as the number they spell. -/
theorem digitText_spec (neg : Bool) (width : Option Int) (hne : ds ≠ []) :
    readInt? b (digitText neg width ds).toList = some ((if neg then (-1 : Int) else 1) * (Nat.ofDigits b ds : Nat)) ∧
      ∀ w ∈ width, w ≤ (digitText neg width ds).length := by
  obtain ⟨k, hfill, hlength⟩ := zeroFill_radixChar hb (fun d hd => hds d (List.mem_reverse.1 hd)) neg (width.getD 0).toNat
  have hzeros : (List.replicate k 0 ++ ds.reverse).foldl (fun a d => a * b + d) 0 = Nat.ofDigits b ds := by
    rw [← List.reverse_replicate, ← List.reverse_append, List.foldl_reverse,
      ← Nat.ofDigits_append_replicate_zero (k := k), Nat.ofDigits_eq_foldr]
    simp [Nat.add_comm, Nat.mul_comm]
  have hfilled : ∀ d ∈ List.replicate k 0 ++ ds.reverse, d < b := by
    intro d hd
    rcases List.mem_append.1 hd with hd | hd
    · rw [List.eq_of_mem_replicate hd]
      exact (hds _ (List.head_mem hne)).pos
    · exact hds d (List.mem_reverse.1 hd)
  rw [digitText, hfill, String.toList_ofList, readInt?_radixChar hb hfilled neg (by simp [hne]), hzeros]
  refine ⟨rfl, ?_⟩
  rintro w rfl
  rw [String.length_ofList, List.length_append, List.length_map, List.length_append, List.length_replicate]
  exact Int.toNat_le.1 (hlength.trans (Nat.add_assoc ..).le)

end

/-! ## Runs -/

/-- The digits that a run of divisions of a number writes, lowest first, and how far they have drifted from the number: what
each quotient was off, in the place of the digits that follow it. -/
inductive DigitRun (b : Nat) : Nat → List Nat → Int → Prop
  | done : DigitRun b 0 [] 0
  | step {x q : Nat} {ds : List Nat} {drift : Int} (hx : 0 < x) (hq : quotient? x b = some q)
      (h : DigitRun b q ds drift) : DigitRun b x (x % b :: ds) (b * ((q : Int) - (x / b : Nat) + drift))

/-- The text of a number in a base is read back as the number, and is as wide as asked for. -/
def WrittenExactly (x : Int) (b : Nat) (width : Option Int) : Prop :=
  ∃ s, radixText (.int x) (.int b) width = .ok s ∧ readInt? b s.toList = some x ∧ ∀ w ∈ width, w ≤ s.length

section

variable {b : Nat} {ds : List Nat} {drift : Int}

theorem DigitRun.spec {x : Nat} (hb : 0 < b) (h : DigitRun b x ds drift) :
    (x ≠ 0 → ds ≠ []) ∧ (∀ d ∈ ds, d < b) ∧ ((Nat.ofDigits b ds : Nat) : Int) = x + drift := by
  induction h with
  | done => simp
  | @step x q ds drift hx hq h ih =>
    have hdiv : (b : Int) * (x / b : Nat) + (x % b : Nat) = x := mod_cast Nat.div_add_mod x b
    refine ⟨fun _ => List.cons_ne_nil _ _, List.forall_mem_cons.2 ⟨Nat.mod_lt x hb, ih.2.1⟩, ?_⟩
    rw [Nat.ofDigits_cons, Nat.cast_add, Nat.cast_mul, ih.2.2]
    linarith

variable (hb : 2 ≤ b) (hb' : b ≤ 36)
include hb hb'

theorem exists_digitRun {x : Nat} (hlt : x < 2 ^ 53) : ∃ ds, DigitRun b x ds 0 := by
  induction x using Nat.strongRecOn with
  | ind x ih =>
    rcases Nat.eq_zero_or_pos x with rfl | hx
    · exact ⟨[], .done⟩
    · have hless := Nat.div_lt_self hx hb
      obtain ⟨ds, hds⟩ := ih (x / b) hless (hless.trans hlt)
      have hstep := DigitRun.step hx (quotient?_eq_div hb hb' hx hlt) hds
      rw [sub_self, add_zero, mul_zero] at hstep
      exact ⟨_, hstep⟩

theorem radixStep_int (x : Nat) :
    radixStep (.int b) (.int x) = orFail .overflow (quotient? x b) >>= fun q => .ok (radixChar (x % b), (q : Int)) := by
  have hmod : Number.mod (.int x) (.int b) = .ok (.int (x % b : Nat)) := by
    rw [Number.mod, if_neg (by omega), Int.fmod_eq_emod_of_nonneg _ (by omega)]
    rfl
  have hdigit : radixDigit (x % b : Nat) = .ok (radixChar (x % b)) :=
    radixDigit_of_lt ((Nat.mod_lt x (by omega)).trans_le hb')
  rw [radixStep, hmod]
  change (radixDigit (x % b : Nat) >>= fun d => _) = _
  rw [hdigit]
  cases hq : quotient? x b <;> simp only [Int.natAbs_natCast, hq] <;> rfl

/-- The characters of a number are those of the digits of a run. -/
theorem radixSteps_eq_ok {x fuel : Nat} {cs : List Char} (hfuel : x ≤ fuel) :
    radixSteps (.int b) fuel (.int x) = .ok cs ↔ ∃ ds drift, DigitRun b x ds drift ∧ ds.map radixChar = cs := by
  induction fuel generalizing x cs with
  | zero =>
    obtain rfl : x = 0 := by omega
    constructor
    · intro h
      exact ⟨[], 0, .done, Except.ok.inj h⟩
    · rintro ⟨ds, drift, hrun, rfl⟩
      cases hrun with
      | done => rfl
      | step hx => omega
  | succ fuel ih =>
    rcases Nat.eq_zero_or_pos x with rfl | hx
    · have hnil (fuel : Nat) : radixSteps (.int b) fuel (.int (0 : Nat)) = .ok [] := by cases fuel <;> rfl
      rw [hnil, ← hnil fuel]
      exact ih (Nat.zero_le fuel)
    have hzero : Number.eq (.int x) (.int 0) = false := by simp [Number.eq, hx.ne']
    have hnext {q : Nat} (hq : quotient? x b = some q) : q ≤ fuel := by
      have := quotient?_lt hb hb' hx hq
      omega
    have hsteps : radixSteps (.int b) (fuel + 1) (.int x) = orFail .overflow (quotient? x b) >>= fun q =>
        radixSteps (.int b) fuel (.int q) >>= fun cs => .ok (radixChar (x % b) :: cs) := by
      simp only [radixSteps, hzero, radixStep_int hb hb']
      cases quotient? x b <;> rfl
    rw [hsteps, bind_eq_ok]
    constructor
    · rintro ⟨q, hq, h⟩
      rw [orFail_eq_ok] at hq
      obtain ⟨cs, hcs, h⟩ := bind_eq_ok.1 h
      obtain ⟨ds, drift, hrun, rfl⟩ := (ih (hnext hq)).1 hcs
      exact ⟨_, _, .step hx hq hrun, Except.ok.inj h⟩
    · rintro ⟨ds, drift, hrun, rfl⟩
      cases hrun with
      | done => omega
      | @step _ q ds drift _ hq hrun =>
        exact ⟨q, orFail_eq_ok.2 hq, bind_eq_ok.2 ⟨_, (ih (hnext hq)).2 ⟨ds, drift, hrun, rfl⟩, rfl⟩⟩

theorem radixText_eq_ok {x : Int} (hx : x ≠ 0) {width : Option Int} {s : String} :
    radixText (.int x) (.int b) width = .ok s ↔
      ∃ ds drift, DigitRun b x.natAbs ds drift ∧ digitText (decide (x < 0)) width ds = s := by
  have hzero : Number.eq (.int x) (.int 0) = false := by simp [Number.eq, hx]
  have htext : radixText (.int x) (.int b) width = radixSteps (.int b) x.natAbs (.int x.natAbs) >>= fun cs =>
      .ok (String.ofList (zeroFill (width.getD 0).toNat (signText (decide (x < 0)) ++ cs.reverse))) := by
    simp only [radixText, hzero]
    rfl
  rw [htext, bind_eq_ok]
  constructor
  · rintro ⟨cs, hcs, h⟩
    obtain ⟨ds, drift, hrun, rfl⟩ := (radixSteps_eq_ok hb hb' le_rfl).1 hcs
    exact ⟨ds, drift, hrun, by rw [digitText, List.map_reverse]; exact Except.ok.inj h⟩
  · rintro ⟨ds, drift, hrun, rfl⟩
    exact ⟨_, (radixSteps_eq_ok hb hb' le_rfl).2 ⟨ds, drift, hrun, rfl⟩, by rw [digitText, List.map_reverse]⟩

/-- A text is exact exactly when the quotients of its run are off by nothing in total; below `2 ^ 53` none is off. -/
theorem radixText_exact_iff (x : Int) (width : Option Int) :
    (WrittenExactly x b width ↔ ∃ ds, DigitRun b x.natAbs ds 0) ∧ (x.natAbs < 2 ^ 53 → WrittenExactly x b width) := by
  have hiff : WrittenExactly x b width ↔ ∃ ds, DigitRun b x.natAbs ds 0 := by
    by_cases hx : x = 0
    · subst hx
      have hdigit : ∀ d ∈ [0], d < b := fun d hd => by rw [List.mem_singleton.1 hd]; omega
      obtain ⟨hread, hwidth⟩ := digitText_spec hb' hdigit false width (List.cons_ne_nil _ _)
      have htext : radixText (.int 0) (.int b) width = .ok (digitText false width [0]) := by
        rw [digitText, List.reverse_singleton, List.map_singleton, show radixChar 0 = '0' by decide]
        rfl
      exact iff_of_true ⟨_, htext, by simpa using hread, hwidth⟩ ⟨[], .done⟩
    have hreads {ds : List Nat} {drift : Int} (hrun : DigitRun b x.natAbs ds drift) :
        (readInt? b (digitText (decide (x < 0)) width ds).toList = some x ↔ drift = 0) ∧
          ∀ w ∈ width, w ≤ (digitText (decide (x < 0)) width ds).length := by
      obtain ⟨hne, hds, hvalue⟩ := hrun.spec (by omega)
      obtain ⟨hread, hwidth⟩ := digitText_spec hb' hds (decide (x < 0)) width (hne (by omega))
      refine ⟨?_, hwidth⟩
      rw [hread, hvalue, Option.some_inj]
      by_cases hneg : x < 0
      · simp only [hneg, decide_true, if_true]
        omega
      · simp only [hneg, decide_false, Bool.false_eq_true, if_false]
        omega
    constructor
    · rintro ⟨s, hs, hread, -⟩
      obtain ⟨ds, drift, hrun, rfl⟩ := (radixText_eq_ok hb hb' hx).1 hs
      rw [(hreads hrun).1.1 hread] at hrun
      exact ⟨ds, hrun⟩
    · rintro ⟨ds, hrun⟩
      exact ⟨_, (radixText_eq_ok hb hb' hx).2 ⟨ds, 0, hrun, rfl⟩, (hreads hrun).1.2 rfl, (hreads hrun).2⟩
  exact ⟨hiff, fun hlt => hiff.2 (exists_digitRun hb hb' hlt)⟩

end

theorem radixText_exact_iff_hex : WrittenExactly (-255) 16 (some 6) :=
  (radixText_exact_iff (by decide) (by decide) (-255) (some 6)).2 (by decide)

/-- The first quotient of `2 ^ 54 - 1` is rounded up to `2 ^ 53`, so the text is that of `2 ^ 54 + 1`. -/
theorem radixText_roundedUp : ¬ WrittenExactly (2 ^ 54 - 1) 2 none := by
  rintro ⟨s, hs, hread, -⟩
  have htext : radixText (.int (2 ^ 54 - 1)) (.int (2 : Nat)) none =
      .ok "1000000000000000000000000000000000000000000000000000001" := by decide +kernel
  obtain rfl := Except.ok.inj (htext.symm.trans hs)
  exact absurd hread (by decide +kernel)

end QubitLab.Decimal
