import Mathlib
import QubitLab.Element.Arrangement
import QubitLab.Proofs.Superposition

/-!
# Bounds of channels

The last steps from the sum of all pulses to what a channel is given. `normalized_levels` says which sample becomes
what: analog ones are cut to the bounds and scaled, and markers become 0 or 1, where a marker whose low level is 1 or
more is always 0. `distort_isDistortion_iff` is about elements whose waves shall be distorted: that works for no channel at all.
-/

namespace QubitLab.Element

variable {π : Type} {play : Player π} {e : Element ℚ π} {rack : Rack ℚ}

/-! ## Single samples -/

theorem limit_analog (low high x : ℚ) : limit .analog low high x = max low (min x high) := by
  simp only [limit, below_iff]
  rw [show (if high < x then high else x) = min x high by rw [min_comm, min_def_lt], max_comm, max_def_lt]

variable {low high : ℚ}

theorem limit_marker (h : low < high) (x : ℚ) : limit .marker low high x = if low < x then high else low := by
  simp only [limit, below_iff]
  split
  · rw [if_neg h.not_gt]
  · next hx =>
    split
    · rfl
    · next hlow => exact le_antisymm (not_lt.1 hx) (not_lt.1 hlow)

theorem normalize_analog_bounds {v : ℚ} (h : low < high) (hlow : low ≤ v) (hhigh : v ≤ high) :
    -1 ≤ normalize .analog low high v ∧ normalize .analog low high v ≤ 1 := by
  have hpos : 0 < high - low := sub_pos.2 h
  change -1 ≤ (2 * v - high - low) / (high - low) ∧ (2 * v - high - low) / (high - low) ≤ 1
  rw [le_div_iff₀ hpos, div_le_iff₀ hpos]
  constructor <;> linarith

theorem normalize_limit_marker (h : low < high) (x : ℚ) :
    normalize .marker low high (limit .marker low high x) = if low < x ∧ low < 1 then 1 else 0 := by
  have hone : (Scalar.ofInt 1 : ℚ) = 1 := Int.cast_one
  have hzero : (Scalar.ofInt 0 : ℚ) = 0 := Int.cast_zero
  rw [limit_marker h]
  simp only [normalize, below_iff, hone, hzero]
  by_cases hx : low < x
  · by_cases hlow : low < 1 <;> simp [hx, h, hlow]
  · simp [hx]

/-! ## Waves -/

/-- What is done with the samples of a channel; unknown channels keep theirs. -/
def onChannel (rack : Rack ℚ) (f : ChannelKind → ℚ → ℚ → ℚ → ℚ) (name : String) (x : ℚ) : ℚ :=
  ((rack.channels.lookup name).map fun c => f c.kind c.low c.high x).getD x

theorem mapSamples_eq (f : ChannelKind → ℚ → ℚ → ℚ → ℚ) (waves : Waveforms ℚ) :
    mapSamples id rack f waves = waves.map fun w => (w.1, w.2.map (onChannel rack f w.1)) := by
  refine List.map_congr_left fun w _ => ?_
  cases hc : rack.channels.lookup w.1 with
  | some c =>
    have hf : onChannel rack f w.1 = f c.kind c.low c.high := by funext x; rw [onChannel, hc]; rfl
    simp only [hc, hf, id]
  | none =>
    have hf : onChannel rack f w.1 = id := by funext x; rw [onChannel, hc]; rfl
    simp only [hc, hf, Array.map_id]

theorem limited_eq : e.limited id play [] rack =
    (e.ideal id play rack).map (·.map fun w => (w.1, w.2.map (onChannel rack limit w.1))) := by
  rw [limited]
  cases e.ideal id play rack with
  | error err => rfl
  | ok waves => simp [bind, Except.bind, Except.map, pure, Except.pure, mapSamples_eq]

theorem normalized_eq : e.normalized id play [] rack = (e.ideal id play rack).map
    (·.map fun w => (w.1, w.2.map fun x => onChannel rack normalize w.1 (onChannel rack limit w.1 x))) := by
  rw [normalized, limited_eq]
  cases e.ideal id play rack with
  | error err => rfl
  | ok waves => simp [bind, Except.bind, Except.map, pure, Except.pure, mapSamples_eq, Function.comp_def]

/-- The normalised waves are those of the element sample by sample: on an analog channel the sample cut to the bounds and
scaled to `[-1, 1]`, and on a marker 1 if it is above a low level that is itself below 1, and otherwise 0. -/
theorem normalized_levels (e : Element ℚ π) (rack : Rack ℚ) :
    (∀ err, e.ideal id play rack = .error err → e.normalized id play [] rack = .error err) ∧
    ∀ waves, e.ideal id play rack = .ok waves → ∃ out, e.normalized id play [] rack = .ok out ∧
      List.Forall₂ (fun w o => o.1 = w.1 ∧ o.2.size = w.2.size ∧
        ∀ c, rack.channels.lookup w.1 = some c → c.low < c.high → ∀ (k : ℕ) (x : ℚ), w.2[k]? = some x →
          ∃ y, o.2[k]? = some y ∧
            (c.kind = .analog → y = (2 * max c.low (min x c.high) - c.high - c.low) / (c.high - c.low) ∧ -1 ≤ y ∧ y ≤ 1) ∧
            (c.kind = .marker → y = (if c.low < x ∧ c.low < 1 then 1 else 0) ∧
              (y = (if c.low < x then 1 else 0) ↔ x ≤ c.low ∨ c.low < 1))) waves out := by
  refine ⟨fun err herr => by rw [normalized_eq, herr]; rfl, fun waves hwaves => ?_⟩
  refine ⟨_, by rw [normalized_eq, hwaves]; rfl, ?_⟩
  rw [List.forall₂_map_right_iff, List.forall₂_same]
  refine fun w _ => ⟨rfl, Array.size_map, fun c hc hlt k x hx => ⟨_, by rw [Array.getElem?_map, hx]; rfl, ?_, ?_⟩⟩
  · intro hkind
    simp only [onChannel, hc, Option.map_some, Option.getD_some, hkind, limit_analog]
    exact ⟨rfl, normalize_analog_bounds hlt (le_max_left _ _) (max_le hlt.le (min_le_right _ _))⟩
  · intro hkind
    simp only [onChannel, hc, Option.map_some, Option.getD_some, hkind, normalize_limit_marker hlt]
    by_cases hlow : c.low < 1
    · simp [hlow]
    · by_cases hx : c.low < x
      · simp [hlow, hx, hx.not_ge]
      · simp [hx, not_lt.1 hx]

theorem normalized_levels_clipped :
    (squares false [0]).ideal id constant (oneChannel .analog (-1) 1) = .ok [("ch1", #[3 / 2, 3 / 2, 3 / 2, 1 / 2])] ∧
    ∃ out, (squares false [0]).normalized id constant [] (oneChannel .analog (-1) 1) = .ok out ∧
      ∃ o ∈ out, o.1 = "ch1" ∧ o.2.size = 4 := by
  have hideal : (squares false [0]).ideal id constant (oneChannel .analog (-1) 1) =
      .ok [("ch1", #[3 / 2, 3 / 2, 3 / 2, 1 / 2])] := by decide +kernel
  obtain ⟨out, hout, hall⟩ := (normalized_levels (squares false [0]) (oneChannel .analog (-1) 1)).2 _ hideal
  cases hall with
  | cons h _ => exact ⟨hideal, _, hout, _, List.mem_cons_self, h.1, h.2.1⟩

/-- A marker between 1 and 2 volts never shows the pulse. -/
theorem high_marker_silent :
    (squares false [0]).ideal id constant (oneChannel .marker 1 2) = .ok [("ch1", #[3 / 2, 3 / 2, 3 / 2, 1 / 2])] ∧
    (squares false [0]).normalized id constant [] (oneChannel .marker 1 2) = .ok [("ch1", #[0, 0, 0, 0])] :=
  ⟨by decide +kernel, by decide +kernel⟩

/-! ## Distortion -/

/-- Sample `k` of the convolution of a wave with a kernel. -/
def convolved (wave : Array ℚ) (kernel : List ℚ) (k : ℕ) : ℚ :=
  ((List.range (k + 1)).map fun i => kernel.getD i 0 * wave.getD (k - i) 0).sum

/-- Waves with some channels distorted: convolved with the kernel of the channel, cut to the same length and within the
bounds of the channel, where all other channels are as before. -/
structure IsDistortion (rack : Rack ℚ) (kernels : List (String × List ℚ)) (before after : Waveforms ℚ) : Prop where
  named : ∀ x ∈ kernels, ∀ wave, before.lookup x.1 = some wave →
    after.lookup x.1 = some (Array.ofFn fun k : Fin wave.size => onChannel rack limit x.1 (convolved wave x.2 k))
  others : ∀ c, c ∉ kernels.map (·.1) → after.lookup c = before.lookup c

/-- An element is distorted if and only if there is nothing to distort; with any kernel it fails, for want of a place
where to put the waves. -/
theorem distort_isDistortion_iff (e : Element ℚ π) (rack : Rack ℚ) (kernels : List (String × List ℚ)) :
    ((∃ before e' after, e.limited id play [] rack = .ok before ∧
        distort (e.limited id play [] rack) (kernels.map (·.1)) e = .ok e' ∧
        e'.limited id play [] rack = .ok after ∧ IsDistortion rack kernels before after) ↔
      kernels = [] ∧ ∃ before, e.limited id play [] rack = .ok before) ∧
    (∀ err, distort (e.limited id play [] rack) (kernels.map (·.1)) e = .error err ↔
      e.limited id play [] rack = .error err ∨
        kernels ≠ [] ∧ (∃ before, e.limited id play [] rack = .ok before) ∧ err = .of .member) := by
  cases hlimited : e.limited id play [] rack with
  | error err => simp [distort, bind, Except.bind]
  | ok before =>
    cases kernels with
    | nil =>
      have hdistort : distort (.ok before : Attempt (Waveforms ℚ)) [] e = .ok e := rfl
      have hsame : IsDistortion rack [] before before := ⟨fun _ hx => absurd hx List.not_mem_nil, fun _ _ => rfl⟩
      refine ⟨iff_of_true ⟨before, e, before, rfl, hdistort, hlimited, hsame⟩ ⟨rfl, before, rfl⟩, fun err => ?_⟩
      simp [hdistort]
    | cons x kernels =>
      have hdistort : distort (.ok before : Attempt (Waveforms ℚ)) ((x :: kernels).map (·.1)) e =
          .error (.of .member) := rfl
      refine ⟨iff_of_false ?_ fun h => List.cons_ne_nil _ _ h.1, fun err => ?_⟩
      · rintro ⟨_, e', _, _, he', -⟩
        cases hdistort.symm.trans he'
      · rw [hdistort]
        simp [eq_comm]

theorem distort_isDistortion_iff_none : ∃ before e' after,
    (squares false [0]).limited id constant [] (oneChannel .analog (-1) 1) = .ok before ∧
    distort ((squares false [0]).limited id constant [] (oneChannel .analog (-1) 1)) [] (squares false [0]) = .ok e' ∧
    e'.limited id constant [] (oneChannel .analog (-1) 1) = .ok after ∧
    IsDistortion (oneChannel .analog (-1) 1) [] before after := by
  have hlimited : (squares false [0]).limited id constant [] (oneChannel .analog (-1) 1) =
      .ok [("ch1", #[1, 1, 1, 1 / 2])] := by decide +kernel
  exact (distort_isDistortion_iff (squares false [0]) (oneChannel .analog (-1) 1) []).1.2 ⟨rfl, _, hlimited⟩

/-- A kernel that changes nothing makes the element fail. -/
theorem identity_kernel_fails : IsDistortion (oneChannel .analog (-1) 1) [("ch1", [1])]
      [("ch1", #[1, 1, 1, 1 / 2])] [("ch1", #[1, 1, 1, 1 / 2])] ∧
    (squares false [0]).limited id constant [] (oneChannel .analog (-1) 1) = .ok [("ch1", #[1, 1, 1, 1 / 2])] ∧
    ∀ e', distort ((squares false [0]).limited id constant [] (oneChannel .analog (-1) 1)) ["ch1"] (squares false [0]) ≠
      .ok e' := by
  have hlimited : (squares false [0]).limited id constant [] (oneChannel .analog (-1) 1) =
      .ok [("ch1", #[1, 1, 1, 1 / 2])] := by decide +kernel
  refine ⟨⟨fun x hx wave hwave => ?_, fun c hc => ?_⟩, hlimited, fun e' he' => ?_⟩
  · obtain rfl := List.mem_singleton.1 hx
    obtain rfl : #[1, 1, 1, 1 / 2] = wave := Option.some.inj hwave
    decide +kernel
  · rfl
  · rw [hlimited] at he'
    cases he'

end QubitLab.Element
