import QubitLab.Element.Waveform
import QubitLab.Proofs.PulseReferences

/-!
# Samples of a pulse

Where the pulses of an element lie on the grid of samples of a channel, with rational times. `position` is the exact
start in samples, `first` the sample at which a pulse starts and `count` how many it has; `startSample_eq` and
`pulseSamples_eq` say that the element computes these, and `samples_isLeast` that a wave is as long as it has to be.
Rounding goes toward zero after half a sample was added, so that it finds the nearest sample only from half a sample
before zero on (`truncated_nearest_iff`).
-/

namespace QubitLab.Element

variable {π : Type} {e : Element ℚ π} {rack : Rack ℚ} {p : Placed ℚ π} {c : String}

/-! ## Rounding -/

/-- The whole number next to a rational one toward zero. -/
def truncated (x : ℚ) : ℤ := if 0 ≤ x then ⌊x⌋ else ⌈x⌉

theorem truncated_nonneg {x : ℚ} (h : 0 ≤ x) : 0 ≤ truncated x := by
  rw [truncated, if_pos h]
  exact Int.floor_nonneg.2 h

theorem truncated_neg_iff {x : ℚ} : truncated x < 0 ↔ x ≤ -1 := by
  rw [truncated]
  split
  · next h => exact iff_of_false (not_lt.2 (Int.floor_nonneg.2 h)) (by linarith)
  · rw [show ⌈x⌉ < 0 ↔ ⌈x⌉ ≤ -1 by omega, Int.ceil_le]
    norm_num

/-- Adding a half and cutting off finds the nearest whole number of all numbers from `-1 / 2` on, and below that only of
those half way between two. -/
theorem truncated_nearest_iff {x : ℚ} :
    |(truncated (x + 1 / 2) : ℚ) - x| ≤ 1 / 2 ↔ -(1 / 2) ≤ x ∨ ∃ n : ℤ, x = n - 1 / 2 := by
  rw [truncated, abs_le]
  split
  · next h =>
    refine iff_of_true ⟨?_, ?_⟩ (.inl (by linarith))
    · linarith [Int.lt_floor_add_one (x + 1 / 2)]
    · linarith [Int.floor_le (x + 1 / 2)]
  · next h =>
    have hle := Int.le_ceil (x + 1 / 2)
    constructor
    · rintro ⟨-, hup⟩
      exact .inr ⟨⌈x + 1 / 2⌉, by linarith⟩
    · rintro (hx | ⟨n, hn⟩)
      · exact absurd (by linarith) h
      · rw [show x + 1 / 2 = n by linarith, Int.ceil_intCast]
        constructor <;> linarith

/-! ## Places of pulses -/

def delayOn (e : Element ℚ π) (rack : Rack ℚ) (c : String) : ℚ :=
  if e.ignoreDelays then 0 else ((rack.channels.lookup c).map (·.delay)).getD 0

def rateOn (rack : Rack ℚ) (c : String) : ℚ := (rack.clock c).toOption.getD 0

def offsetOn (e : Element ℚ π) (rack : Rack ℚ) : ℚ := (e.offset rack).toOption.getD 0

/-- The exact start of a pulse on a channel, in samples. -/
def position (e : Element ℚ π) (rack : Rack ℚ) (p : Placed ℚ π) (c : String) : ℚ :=
  (p.t0 - e.delayOn rack c - e.offsetOn rack) * rateOn rack c

/-- The first sample of a pulse on a channel. -/
def first (e : Element ℚ π) (rack : Rack ℚ) (p : Placed ℚ π) (c : String) : ℤ := truncated (e.position rack p c + 1 / 2)

/-- The number of samples of a pulse on a channel. -/
def count (rack : Rack ℚ) (p : Placed ℚ π) (c : String) : ℕ :=
  (truncated (p.pulse.length?.getD 0 * rateOn rack c + 1 / 2)).toNat

variable {f : ℚ}

theorem rateOn_eq (h : rack.clock c = .ok f) : rateOn rack c = f := by rw [rateOn, h]; rfl

theorem delay_eq (h : rack.clock c = .ok f) : e.delay rack c = .ok (e.delayOn rack c) := by
  obtain ⟨ch, hch, -⟩ := bind_eq_ok.1 h
  rw [Rack.channel, orFail_eq_ok] at hch
  rw [delay, delayOn]
  split
  · rfl
  · rw [Rack.channel, hch]
    rfl

theorem sampleOf_eq (h : rack.clock c = .ok f) (t : ℚ) :
    sampleOf rack c t = .ok (truncated (t * rateOn rack c + 1 / 2)) := by
  rw [sampleOf, h, rateOn_eq h]
  rfl

theorem startSample_eq {o : ℚ} (h : rack.clock c = .ok f) (ho : e.offset rack = .ok o) :
    e.startSample rack p c = .ok (e.first rack p c) := by
  have hoffset : e.offsetOn rack = o := by rw [offsetOn, ho]; rfl
  rw [startSample, startTime, delay_eq h, ho, first, position, hoffset]
  exact sampleOf_eq h _

theorem offset_of_isAbsolute (h : e.isAbsolute = true) : e.offset rack = .ok 0 := by
  rw [offset, if_pos h]
  rfl

/-! ## Elements that can be played -/

/-- The channels of all pulses are known, once each, channels have positive rates and pulses lengths that are not
negative. -/
structure Ready (e : Element ℚ π) (rack : Rack ℚ) : Prop where
  names : (rack.channels.map (·.1)).Nodup
  rates : ∀ c ∈ rack.channels.map (·.1), ∃ f, rack.clock c = .ok f ∧ 0 < f
  known : ∀ x ∈ e.pulses, ∀ c ∈ x.2.pulse.channels, c ∈ rack.channels.map (·.1)
  once : ∀ x ∈ e.pulses, x.2.pulse.channels.Nodup
  lengths : ∀ x ∈ e.pulses, ∃ l, x.2.pulse.length? = some l ∧ 0 ≤ l
  granular : 1 ≤ e.granularity
  least : 0 ≤ e.minSamples

/-- The exact starts of all pulses on their channels. -/
def starts (e : Element ℚ π) (rack : Rack ℚ) : List ℚ :=
  e.pulses.flatMap fun x => x.2.pulse.channels.map fun c => x.2.t0 - e.delayOn rack c

theorem least?_eq_min? (l : List ℚ) : Scalar.least? l = l.min? := by
  cases l with
  | nil => rfl
  | cons x l =>
    have hmin : (fun a b : ℚ => if Scalar.below b a then b else a) = min := by
      funext a b
      rw [min_comm, min_def_lt]
      exact if_congr decide_eq_true_iff rfl rfl
    rw [Scalar.least?, hmin, List.min?_cons']

theorem Ready.offset_eq (h : e.Ready rack) (habs : e.isAbsolute = false) :
    e.offset rack = orFail .value (e.starts rack).min? := by
  have hstarts : e.starts rack = (e.pulses.flatMap fun x => x.2.pulse.channels.map fun c => (x.2.t0, c)).map
      fun y => y.1 - e.delayOn rack y.2 := by
    rw [starts, List.map_flatMap]
    simp only [List.map_map]
    rfl
  rw [offset, if_neg (by simp [habs]), ← least?_eq_min?, hstarts]
  refine congrArg (· >>= fun s => orFail .value (Scalar.least? s)) (mapM_eq_map fun y hy => ?_)
  obtain ⟨x, hx, hy⟩ := List.mem_flatMap.1 hy
  obtain ⟨c, hc, rfl⟩ := List.mem_map.1 hy
  obtain ⟨f, hf, -⟩ := h.rates c (h.known x hx c hc)
  exact bind_eq_ok.2 ⟨_, delay_eq hf, rfl⟩

section
variable (h : e.Ready rack) {x : String × Placed ℚ π} (hx : x ∈ e.pulses) (hc : c ∈ x.2.pulse.channels)
include hx hc

theorem mem_starts : x.2.t0 - e.delayOn rack c ∈ e.starts rack :=
  List.mem_flatMap.2 ⟨x, hx, List.mem_map.2 ⟨c, hc, rfl⟩⟩

include h

theorem Ready.offset_isLeast (habs : e.isAbsolute = false) :
    ∃ o, e.offset rack = .ok o ∧ IsLeast {t | t ∈ e.starts rack} o := by
  have hne : e.starts rack ≠ [] := List.ne_nil_of_mem (mem_starts hx hc)
  obtain ⟨o, ho⟩ := Option.isSome_iff_exists.1 (List.isSome_min?_of_ne_nil hne)
  exact ⟨o, by rw [h.offset_eq habs, ho]; rfl, List.min?_eq_some_iff.1 ho⟩

theorem Ready.offset_ok : ∃ o, e.offset rack = .ok o := by
  cases habs : e.isAbsolute with
  | true => exact ⟨0, offset_of_isAbsolute habs⟩
  | false =>
    obtain ⟨o, ho, -⟩ := h.offset_isLeast hx hc habs
    exact ⟨o, ho⟩

theorem Ready.first_nonneg (habs : e.isAbsolute = false) : 0 ≤ e.first rack x.2 c := by
  obtain ⟨o, ho, -, hleast⟩ := h.offset_isLeast hx hc habs
  obtain ⟨f, hf, hpos⟩ := h.rates c (h.known x hx c hc)
  have hstart : 0 ≤ x.2.t0 - e.delayOn rack c - e.offsetOn rack := by
    rw [offsetOn, ho]
    exact sub_nonneg.2 (hleast (mem_starts hx hc))
  have hposition : 0 ≤ e.position rack x.2 c := mul_nonneg hstart (rateOn_eq hf ▸ hpos.le)
  exact truncated_nonneg (by linarith)

theorem Ready.startSample_eq : e.startSample rack x.2 c = .ok (e.first rack x.2 c) := by
  obtain ⟨f, hf, -⟩ := h.rates c (h.known x hx c hc)
  obtain ⟨o, ho⟩ := h.offset_ok hx hc
  exact Element.startSample_eq hf ho

theorem Ready.pulseSamples_eq : pulseSamples rack x.2 c = .ok (count rack x.2 c) := by
  obtain ⟨f, hf, hpos⟩ := h.rates c (h.known x hx c hc)
  obtain ⟨l, hl, hl0⟩ := h.lengths x hx
  have hlength : 0 ≤ l * rateOn rack c + 1 / 2 := by
    have := mul_nonneg hl0 (rateOn_eq hf ▸ hpos.le)
    linarith
  rw [pulseSamples, Pulse.length, hl, count, hl, Option.getD_some, Int.toNat_of_nonneg (truncated_nonneg hlength)]
  exact sampleOf_eq hf l

theorem Ready.endSample_eq : e.endSample rack x.2 c = .ok (e.first rack x.2 c + count rack x.2 c - 1) := by
  rw [endSample, h.startSample_eq hx hc, h.pulseSamples_eq hx hc]
  rfl

end

/-! ## Lengths of waves -/

theorem roundUp_isLeast {g : ℤ} (hg : 1 ≤ g) (m : ℤ) : IsLeast {n | g ∣ n ∧ m ≤ n} (roundUp g m) := by
  have habs : (g.natAbs : ℤ) = g := Int.natAbs_of_nonneg (by omega)
  have hnonneg := Int.emod_nonneg (-m) (by omega : g ≠ 0)
  rw [roundUp, habs]
  refine ⟨⟨?_, by omega⟩, ?_⟩
  · rw [Int.emod_def]
    exact ⟨-(-m / g), by ring⟩
  · rintro n ⟨⟨k, rfl⟩, hn⟩
    have hk : -m / g ≥ -k := by
      rw [ge_iff_le, Int.le_ediv_iff_mul_le (by omega)]
      linarith [mul_comm g k]
    rw [Int.emod_def]
    nlinarith

/-- What the length of a wave has to be: whole multiples of the granularity that are not below the least length and hold
all pulses of the channel. -/
def sizes (e : Element ℚ π) (rack : Rack ℚ) (c : String) : Set ℤ :=
  {n | e.granularity ∣ n ∧ e.minSamples ≤ n ∧
    ∀ x ∈ e.pulses, c ∈ x.2.pulse.channels → e.first rack x.2 c + count rack x.2 c ≤ n}

theorem Ready.samples_isLeast (h : e.Ready rack) {x : String × Placed ℚ π} (hx : x ∈ e.pulses)
    (hc : c ∈ x.2.pulse.channels) : ∃ n, e.samples rack c = .ok n ∧ IsLeast (e.sizes rack c) n := by
  have hends : (e.pulses.filter fun x => x.2.pulse.channels.contains c).mapM (fun x => e.endSample rack x.2 c) =
      .ok ((e.pulses.filter fun x => x.2.pulse.channels.contains c).map
        fun x => e.first rack x.2 c + count rack x.2 c - 1) := by
    refine mapM_eq_map fun y hy => ?_
    rw [List.mem_filter, List.contains_iff_mem] at hy
    exact h.endSample_eq hy.1 hy.2
  generalize hl : (e.pulses.filter fun x => x.2.pulse.channels.contains c).map
    (fun x => e.first rack x.2 c + count rack x.2 c - 1) = ends at hends
  have hmem : ∀ t, t ∈ ends ↔
      ∃ x ∈ e.pulses, c ∈ x.2.pulse.channels ∧ e.first rack x.2 c + count rack x.2 c - 1 = t := by
    simp [← hl, and_assoc]
  obtain ⟨y, r, rfl⟩ := List.exists_cons_of_ne_nil (List.ne_nil_of_mem ((hmem _).2 ⟨x, hx, hc, rfl⟩))
  have hmax := List.max?_eq_some_iff.1 (List.max?_cons' : (y :: r).max? = some (r.foldl max y))
  refine ⟨roundUp e.granularity (max (r.foldl max y + 1) e.minSamples), ?_, ?_⟩
  · have hg : ¬ e.granularity = 0 := by have := h.granular; omega
    rw [samples]
    refine bind_eq_ok.2 ⟨_, hends, ?_⟩
    simp only [if_neg hg]
    rfl
  -- the last end bounds all of them, so the set is that of the multiples from one number on
  · have hset : e.sizes rack c = {n | e.granularity ∣ n ∧ max (r.foldl max y + 1) e.minSamples ≤ n} := by
      ext n
      refine and_congr_right fun _ => ?_
      rw [max_le_iff, and_comm]
      refine and_congr_left fun _ => ⟨fun hall => ?_, fun hn x hx hc => ?_⟩
      · obtain ⟨x, hx, hc, heq⟩ := (hmem _).1 hmax.1
        have := hall x hx hc
        omega
      · have := hmax.2 _ ((hmem _).2 ⟨x, hx, hc, rfl⟩)
        omega
    exact hset ▸ roundUp_isLeast h.granular _

theorem samples_of_unused (h : ∀ x ∈ e.pulses, c ∉ x.2.pulse.channels) : e.samples rack c = .ok 0 := by
  have hnone : (e.pulses.filter fun x => x.2.pulse.channels.contains c) = [] := by
    simpa [List.filter_eq_nil_iff] using fun n p hx => h (n, p) hx
  rw [samples]
  exact bind_eq_ok.2 ⟨[], (congrArg (List.mapM _) hnone).trans rfl, rfl⟩

/-! ## Orders of pulses -/

section
variable {l : List (String × Placed ℚ π)} (hperm : l.Perm e.pulses)
include hperm

theorem Ready.perm (h : e.Ready rack) : Ready { e with pulses := l } rack where
  names := h.names
  rates := h.rates
  known x hx := h.known x (hperm.mem_iff.1 hx)
  once x hx := h.once x (hperm.mem_iff.1 hx)
  lengths x hx := h.lengths x (hperm.mem_iff.1 hx)
  granular := h.granular
  least := h.least

theorem Ready.offset_perm (h : e.Ready rack) : offset { e with pulses := l } rack = e.offset rack := by
  rcases Bool.eq_false_or_eq_true e.isAbsolute with habs | habs
  · have hl : offset { e with pulses := l } rack = .ok 0 := offset_of_isAbsolute habs
    rw [hl, offset_of_isAbsolute habs]
  · have hstarts : (starts { e with pulses := l } rack).Perm (e.starts rack) := hperm.flatMap_right _
    rw [h.offset_eq habs, (h.perm hperm).offset_eq habs]
    congr 1
    exact Option.ext fun t => by simp only [List.min?_eq_some_iff, hstarts.mem_iff]

theorem Ready.first_perm (h : e.Ready rack) : first { e with pulses := l } rack = e.first rack := by
  funext p c
  rw [first, first, position, position, offsetOn, offsetOn, h.offset_perm hperm]
  rfl

theorem Ready.samples_perm (h : e.Ready rack) : samples { e with pulses := l } rack c = e.samples rack c := by
  by_cases hused : ∃ x ∈ e.pulses, c ∈ x.2.pulse.channels
  · obtain ⟨x, hx, hc⟩ := hused
    obtain ⟨n, hn, hleast⟩ := h.samples_isLeast hx hc
    obtain ⟨n', hn', hleast'⟩ := (h.perm hperm).samples_isLeast (hperm.mem_iff.2 hx) hc
    have hsizes : sizes { e with pulses := l } rack c = e.sizes rack c := by
      simp only [sizes, h.first_perm hperm, hperm.mem_iff]
    rw [hn, hn', hleast'.unique (hsizes ▸ hleast)]
  · have hunused : ∀ x ∈ e.pulses, c ∉ x.2.pulse.channels := fun x hx hc => hused ⟨x, hx, hc⟩
    rw [samples_of_unused hunused, samples_of_unused fun x hx => hunused x (hperm.mem_iff.1 hx)]

end

end QubitLab.Element
