import Mathlib
import QubitLab.Proofs.SampleTimes

/-!
# Superposition of pulses

With exact times, `Element.ideal` plays each pulse from its first sample on and adds it to what the channel has there:
the wave of a channel is its level at rest and the sum of the contributions of all pulses (`ideal_of_nonneg`), in any
order. A pulse whose first sample is negative makes the whole element fail (`ideal_of_neg`), which happens only with
absolute times.

`Layer e rack v` is the state of the run: waves of the lengths that the element has, with `v c k` as sample `k` of
channel `c`. `playPulse_layer` is the step, `foldlM_playPulse` the run.
-/

namespace QubitLab.Element

open List

/-- What shapes play on a channel at given times. -/
abbrev Player (π : Type) := π → String → List ℚ → Attempt (List ℚ)

variable {π : Type} {e : Element ℚ π} {rack : Rack ℚ} {play : Player π}

/-! ## What a pulse adds -/

/-- The times at which a pulse is played on a channel, one for each of its samples. -/
def times (e : Element ℚ π) (rack : Rack ℚ) (p : Placed ℚ π) (c : String) : List ℚ :=
  (List.range (count rack p c)).map fun j =>
    Scalar.round 11 (Scalar.ofInt ((e.first rack p c).toNat + j : ℕ) / rateOn rack c + e.delayOn rack c + e.timeOffset)

def played (play : Player π) (e : Element ℚ π) (rack : Rack ℚ) (p : Placed ℚ π) (c : String) : List ℚ :=
  (play p.pulse.shape c (e.times rack p c)).toOption.getD []

/-- What a pulse adds to sample `k` of a channel: the value played there, if its samples contain `k`. -/
def contribution (play : Player π) (e : Element ℚ π) (rack : Rack ℚ) (p : Placed ℚ π) (c : String) (k : ℕ) : ℚ :=
  if c ∈ p.pulse.channels ∧ e.first rack p c ≤ k ∧ (k : ℤ) < e.first rack p c + count rack p c then
    (e.played play rack p c).getD (k - e.first rack p c).toNat 0
  else 0

/-- Shapes play one value for each time. -/
def Answers (play : Player π) (e : Element ℚ π) : Prop :=
  ∀ x ∈ e.pulses, ∀ c ∈ x.2.pulse.channels, ∀ ts, ∃ xs, play x.2.pulse.shape c ts = .ok xs ∧ xs.length = ts.length

/-- What is reported of a pulse that starts before sample 0. -/
def negativeStart (e : Element ℚ π) (name c : String) : Fault :=
  .because .general ("Pulse " ++ name ++ " on channel " ++ c ++ " in element " ++ e.name ++
    " starts at a negative time. Please increase the RO_fixpoint.")

def restOn (rack : Rack ℚ) (c : String) : ℚ := ((rack.channels.lookup c).map (·.offset)).getD 0

def sizeOn (e : Element ℚ π) (rack : Rack ℚ) (c : String) : ℕ := ((e.samples rack c).toOption.getD 0).toNat

variable {x : String × Placed ℚ π} {c : String} {α β : Type} {l : List (String × Placed ℚ π)}

theorem Answers.played_eq (h : Answers play e) (hx : x ∈ e.pulses)
    (hc : c ∈ x.2.pulse.channels) : play x.2.pulse.shape c (e.times rack x.2 c) = .ok (e.played play rack x.2 c) ∧
      (e.played play rack x.2 c).length = count rack x.2 c := by
  obtain ⟨xs, hxs, hlength⟩ := h x hx c hc (e.times rack x.2 c)
  have hplayed : e.played play rack x.2 c = xs := by rw [played, hxs]; rfl
  rw [hplayed, hlength, times, length_map, length_range]
  exact ⟨hxs, rfl⟩

/-! ## Waves as functions of the sample -/

def Layer (e : Element ℚ π) (rack : Rack ℚ) (v : String → ℕ → ℚ) : Waveforms ℚ :=
  rack.channels.map fun x => (x.1, Array.ofFn fun k : Fin (e.sizeOn rack x.1) => v x.1 k)

theorem lookup_map_key (g : String → β) (l : List (String × α)) (h : c ∈ l.map (·.1)) :
    (l.map fun x => (x.1, g x.1)).lookup c = some (g c) := by
  induction l with
  | nil => cases h
  | cons x l ih =>
    rw [map_cons, lookup_cons_eq]
    by_cases hx : c = x.1
    · rw [if_pos hx, hx]
    · rw [if_neg hx, ih ((mem_cons.1 h).resolve_left hx)]

theorem put_map_key (g : String → β) (w : β) {l : List (String × α)}
    (hnodup : (l.map (·.1)).Nodup) (h : c ∈ l.map (·.1)) :
    Assoc.put c w (l.map fun x => (x.1, g x.1)) = l.map fun x => (x.1, if x.1 = c then w else g x.1) := by
  induction l with
  | nil => cases h
  | cons x l ih =>
    rw [map_cons, nodup_cons] at hnodup
    rw [map_cons, map_cons, Assoc.put]
    by_cases hx : x.1 = c
    · rw [if_pos (beq_iff_eq.2 hx), if_pos hx, hx]
      congr 1
      refine map_congr_left fun y hy => ?_
      have hne : y.1 ≠ c := fun heq => hnodup.1 (hx ▸ heq ▸ mem_map_of_mem hy)
      rw [if_neg hne]
    · rw [if_neg (by simpa using hx), if_neg hx, ih hnodup.2 ((mem_cons.1 h).resolve_left (Ne.symm hx))]

theorem ofFn_modify (n : ℕ) (v : ℕ → ℚ) (s : ℕ) (x : ℚ) :
    (Array.ofFn fun k : Fin n => v k).modify s (· + x) = Array.ofFn fun k : Fin n => v k + if s = k then x else 0 := by
  refine Array.ext (by simp) fun i _ _ => ?_
  rw [Array.getElem_modify, Array.getElem_ofFn, Array.getElem_ofFn]
  split <;> simp

/-- Samples are added one by one from the first place on. -/
theorem addFrom_ofFn (n : ℕ) (v : ℕ → ℚ) (s : ℕ) (xs : List ℚ) :
    addFrom (Array.ofFn fun k : Fin n => v k) s xs =
      Array.ofFn fun k : Fin n => v k + if s ≤ k then xs.getD (k - s) 0 else 0 := by
  induction xs generalizing v s with
  | nil => simp [addFrom]
  | cons x xs ih =>
    rw [addFrom, ofFn_modify, ih fun k => v k + if s = k then x else 0]
    congr 1
    funext k
    rw [add_assoc]
    congr 1
    rcases lt_trichotomy s k with hlt | heq | hgt
    · rw [if_neg hlt.ne, if_pos (Nat.succ_le_of_lt hlt), if_pos hlt.le, zero_add,
        show k.1 - s = k - (s + 1) + 1 by omega, getD_cons_succ]
    · simp [heq]
    · rw [if_neg hgt.ne', if_neg (by omega), if_neg (by omega), zero_add]

theorem span_eq {n : ℕ} {i j : ℤ} (hi : 0 ≤ i) (hij : i ≤ j) (hj : j ≤ n) : span n i j = (i.toNat, (j - i).toNat) := by
  simp only [span, if_neg (by omega : ¬ i < 0), if_neg (by omega : ¬ j < 0)]
  refine Prod.ext ?_ ?_ <;> simp only <;> omega

/-! ## Steps -/

/-- The first element that fails is the one that is reported. -/
theorem exists_mapM_error {ε : Type} {f g : α → Except ε β} {l : List α} {a : α} {err : ε}
    (h : ∀ b ∈ l, f b = g b) (ha : a ∈ l) (herr : g a = .error err) :
    ∃ b ∈ l, ∃ err', g b = .error err' ∧ l.mapM f = .error err' := by
  cases hm : l.mapM f with
  | ok out =>
    obtain ⟨b, -, hb⟩ := mapM_ok_mem hm ha
    rw [h a ha, herr] at hb
    cases hb
  | error err' =>
    obtain ⟨b, hb, hfail⟩ := mapM_eq_error hm
    exact ⟨b, hb, err', h b hb ▸ hfail, rfl⟩

section
variable (h : e.Ready rack)
include h

theorem Ready.samples_ok (c : String) : e.samples rack c = .ok (e.sizeOn rack c) := by
  by_cases hused : ∃ x ∈ e.pulses, c ∈ x.2.pulse.channels
  · obtain ⟨x, hx, hc⟩ := hused
    obtain ⟨n, hn, ⟨-, hmin, -⟩, -⟩ := h.samples_isLeast hx hc
    have hnonneg : 0 ≤ n := le_trans h.least hmin
    rw [sizeOn, hn]
    exact congrArg Except.ok (Int.toNat_of_nonneg hnonneg).symm
  · have hunused : ∀ x ∈ e.pulses, c ∉ x.2.pulse.channels := fun x hx hc => hused ⟨x, hx, hc⟩
    rw [sizeOn, samples_of_unused hunused]
    rfl

theorem Ready.sizeOn_isLeast (hx : x ∈ e.pulses) (hc : c ∈ x.2.pulse.channels) :
    IsLeast (e.sizes rack c) (e.sizeOn rack c) := by
  obtain ⟨n, hn, hleast⟩ := h.samples_isLeast hx hc
  rw [h.samples_ok] at hn
  exact Except.ok.inj hn ▸ hleast

theorem Ready.rest_eq : e.rest id rack = .ok (e.Layer rack fun c _ => restOn rack c) := by
  refine mapM_eq_map fun y hy => ?_
  obtain ⟨f, hf, -⟩ := h.rates y.1 (mem_map_of_mem hy)
  have hrest : restOn rack y.1 = y.2.offset := by rw [restOn, lookup_of_nodup h.names hy]; rfl
  have hsize : ¬ (e.sizeOn rack y.1 : ℤ) < 0 := by omega
  simp only [h.samples_ok, hf, hrest]
  refine bind_eq_ok.2 ⟨_, rfl, ?_⟩
  rw [if_neg hsize]
  refine congrArg (fun a => Except.ok (y.1, a)) ?_
  exact Array.ext (by simp) fun i _ _ => by simp

variable (hx : x ∈ e.pulses) (hc : c ∈ x.2.pulse.channels) (v : String → ℕ → ℚ)
include hx hc

theorem Ready.lookup_layer :
    (e.Layer rack v).lookup c = some (Array.ofFn fun k : Fin (e.sizeOn rack c) => v c k) :=
  lookup_map_key (fun c => Array.ofFn fun k : Fin (e.sizeOn rack c) => v c k) _ (h.known x hx c hc)

theorem Ready.span_eq (hfirst : 0 ≤ e.first rack x.2 c) :
    span (e.sizeOn rack c) (e.first rack x.2 c) (e.first rack x.2 c + count rack x.2 c - 1 + 1) =
      ((e.first rack x.2 c).toNat, count rack x.2 c) := by
  have hfits := (h.sizeOn_isLeast hx hc).1.2.2 x hx hc
  rw [Element.span_eq hfirst (by omega) (by omega)]
  congr 1
  omega

theorem Ready.playTimes_eq (hglobal : e.globalTime = true) : e.playTimes rack x.1 x.2 c (e.sizeOn rack c) =
    if e.first rack x.2 c < 0 then .error (e.negativeStart x.1 c) else .ok (e.times rack x.2 c) := by
  obtain ⟨f, hf, -⟩ := h.rates c (h.known x hx c hc)
  simp only [playTimes, hf, hglobal, if_true, h.startSample_eq hx hc, h.endSample_eq hx hc, delay_eq hf]
  by_cases hfirst : e.first rack x.2 c < 0
  · rw [if_pos hfirst]
    simp [hfirst, failWith, negativeStart, bind, Except.bind]
  · have hlast : ¬ e.first rack x.2 c + count rack x.2 c - 1 + 1 < 0 := by omega
    rw [if_neg hfirst, times, rateOn_eq hf]
    simp only [bind, Except.bind, hfirst, hlast, decide_false, Bool.or_self, h.span_eq hx hc (not_lt.1 hfirst)]
    rfl

theorem Ready.timed_eq (hglobal : e.globalTime = true) :
    (do return (c, ← e.playTimes rack x.1 x.2 c (← orFail .key ((e.Layer rack v).lookup c)).size) :
      Attempt (String × List ℚ)) =
    if e.first rack x.2 c < 0 then .error (e.negativeStart x.1 c) else .ok (c, e.times rack x.2 c) := by
  have htimes := h.playTimes_eq hx hc hglobal
  rw [h.lookup_layer hx hc]
  by_cases hneg : e.first rack x.2 c < 0
  · rw [if_pos hneg] at htimes ⊢
    simp only [orFail, bind, Except.bind, Array.size_ofFn, htimes]
  · rw [if_neg hneg] at htimes ⊢
    simp only [orFail, bind, Except.bind, Array.size_ofFn, htimes]
    rfl

/-- The samples of one channel are added from its first one on. -/
theorem Ready.addPlayed_layer (hfirst : 0 ≤ e.first rack x.2 c) {xs : List ℚ} (hxs : xs.length = count rack x.2 c) :
    e.addPlayed rack x.2 (e.Layer rack v) (c, xs) = .ok (e.Layer rack fun d k => v d k + if d = c then
      if (e.first rack x.2 c).toNat ≤ k then xs.getD (k - (e.first rack x.2 c).toNat) 0 else 0 else 0) := by
  have hsuperpose : superpose (Array.ofFn fun k : Fin (e.sizeOn rack c) => v c k) (e.first rack x.2 c)
      (e.first rack x.2 c + count rack x.2 c - 1 + 1) xs = .ok (Array.ofFn fun k : Fin (e.sizeOn rack c) =>
        v c k + if (e.first rack x.2 c).toNat ≤ k then xs.getD (k - (e.first rack x.2 c).toNat) 0 else 0) := by
    rw [superpose, Array.size_ofFn, h.span_eq hx hc hfirst]
    simp only [hxs, if_true, addFrom_ofFn]
    rfl
  simp only [addPlayed, h.lookup_layer hx hc, h.startSample_eq hx hc, h.endSample_eq hx hc]
  refine bind_eq_ok.2 ⟨_, rfl, bind_eq_ok.2 ⟨_, rfl, bind_eq_ok.2 ⟨_, rfl, bind_eq_ok.2 ⟨_, hsuperpose, ?_⟩⟩⟩⟩
  refine congrArg Except.ok ((put_map_key (fun d => Array.ofFn fun k : Fin (e.sizeOn rack d) => v d k) _ h.names
    (h.known x hx c hc)).trans (map_congr_left fun y _ => ?_))
  by_cases hy : y.1 = c
  · subst hy
    simp only [if_true]
  · simp only [hy, if_false, add_zero]

omit h hx in
theorem contribution_of_mem (hfirst : 0 ≤ e.first rack x.2 c)
    (hlength : (e.played play rack x.2 c).length = count rack x.2 c) (k : ℕ) :
    e.contribution play rack x.2 c k = if (e.first rack x.2 c).toNat ≤ k then
      (e.played play rack x.2 c).getD (k - (e.first rack x.2 c).toNat) 0 else 0 := by
  by_cases hk : (e.first rack x.2 c).toNat ≤ k
  · rw [if_pos hk, contribution]
    split
    · congr 1
      omega
    · next hout =>
      have hafter : e.first rack x.2 c + count rack x.2 c ≤ k := not_lt.1 fun hlt => hout ⟨hc, by omega, hlt⟩
      rw [getD_eq_default _ _ (by omega)]
  · rw [if_neg hk, contribution, if_neg (by omega)]

end

section
variable (h : e.Ready rack) (hplay : Answers play e) (hx : x ∈ e.pulses)
include h hplay hx

theorem Ready.foldlM_addPlayed {cs : List String} (hnodup : cs.Nodup) (hcs : ∀ c ∈ cs, c ∈ x.2.pulse.channels)
    (hfirst : ∀ c ∈ cs, 0 ≤ e.first rack x.2 c) (v : String → ℕ → ℚ) :
    (cs.map fun c => (c, e.played play rack x.2 c)).foldlM (e.addPlayed rack x.2) (e.Layer rack v) =
      .ok (e.Layer rack fun d k => v d k + if d ∈ cs then e.contribution play rack x.2 d k else 0) := by
  induction cs generalizing v with
  | nil => simp [pure, Except.pure]
  | cons c cs ih =>
    rw [forall_mem_cons] at hcs hfirst
    rw [nodup_cons] at hnodup
    have hlength : (e.played play rack x.2 c).length = count rack x.2 c := (hplay.played_eq hx hcs.1).2
    rw [map_cons, foldlM_cons, h.addPlayed_layer hx hcs.1 v hfirst.1 hlength]
    refine (ih hnodup.2 hcs.2 hfirst.2 _).trans (congrArg (fun v => Except.ok (e.Layer rack v)) ?_)
    funext d k
    -- a channel that was served does not come again
    rw [add_assoc, ← contribution_of_mem hcs.1 hfirst.1 hlength]
    congr 1
    by_cases hd : d = c
    · subst hd
      rw [if_pos rfl, if_neg hnodup.1, if_pos mem_cons_self, add_zero]
    · simp [hd]

/-- A pulse whose first samples are not negative adds its contribution to each channel. -/
theorem Ready.playPulse_layer (hglobal : e.globalTime = true)
    (hfirst : ∀ c ∈ x.2.pulse.channels, 0 ≤ e.first rack x.2 c) (v : String → ℕ → ℚ) :
    playPulse play e rack x.1 x.2 (e.Layer rack v) =
      .ok (e.Layer rack fun d k => v d k + e.contribution play rack x.2 d k) := by
  have htimes := mapM_eq_map fun c hc =>
    (h.timed_eq hx hc v hglobal).trans (if_neg (not_lt.2 (hfirst c hc)))
  rw [playPulse, htimes]
  refine bind_eq_ok.2 ⟨_, rfl, bind_eq_ok.2 ⟨x.2.pulse.channels.map fun c => (c, e.played play rack x.2 c), ?_, ?_⟩⟩
  · rw [mapM_eq_ok, forall₂_map_left_iff, forall₂_map_right_iff, forall₂_same]
    exact fun c hc => bind_eq_ok.2 ⟨_, (hplay.played_eq hx hc).1, rfl⟩
  · refine (h.foldlM_addPlayed hplay hx (h.once x hx) (fun _ hc => hc) hfirst v).trans ?_
    refine congrArg (fun v => Except.ok (e.Layer rack v)) (funext fun d => funext fun k => ?_)
    by_cases hd : d ∈ x.2.pulse.channels
    · rw [if_pos hd]
    · rw [if_neg hd, contribution, if_neg fun hin => hd hin.1]

end

theorem Ready.playPulse_of_neg (h : e.Ready rack) (play : Player π) (hglobal : e.globalTime = true) (hx : x ∈ e.pulses)
    (hc : c ∈ x.2.pulse.channels) (hneg : e.first rack x.2 c < 0) (v : String → ℕ → ℚ) :
    ∃ d ∈ x.2.pulse.channels, e.first rack x.2 d < 0 ∧
      playPulse play e rack x.1 x.2 (e.Layer rack v) = .error (e.negativeStart x.1 d) := by
  obtain ⟨d, hd, f, hf, hmapM⟩ := exists_mapM_error (fun c hc => h.timed_eq hx hc v hglobal) hc (if_pos hneg)
  split at hf
  · next hneg =>
    obtain rfl := Except.error.inj hf
    exact ⟨d, hd, hneg, by rw [playPulse, hmapM]; rfl⟩
  · cases hf

/-! ## Runs -/

section
variable (h : e.Ready rack) (hplay : Answers play e) (hglobal : e.globalTime = true)
include h hplay hglobal

theorem Ready.foldlM_playPulse (hl : ∀ x ∈ l, x ∈ e.pulses)
    (hfirst : ∀ x ∈ l, ∀ c ∈ x.2.pulse.channels, 0 ≤ e.first rack x.2 c) (v : String → ℕ → ℚ) :
    l.foldlM (fun waves x => playPulse play e rack x.1 x.2 waves) (e.Layer rack v) =
      .ok (e.Layer rack fun d k => v d k + (l.map fun x => e.contribution play rack x.2 d k).sum) := by
  induction l generalizing v with
  | nil => simp [pure, Except.pure]
  | cons x l ih =>
    rw [forall_mem_cons] at hl hfirst
    rw [foldlM_cons, h.playPulse_layer hplay hl.1 hglobal hfirst.1]
    refine (ih hl.2 hfirst.2 _).trans (congrArg (fun v => Except.ok (e.Layer rack v)) ?_)
    funext d k
    rw [map_cons, sum_cons, add_assoc]

theorem Ready.foldlM_of_neg (hl : ∀ x ∈ l, x ∈ e.pulses)
    (hneg : ∃ x ∈ l, ∃ c ∈ x.2.pulse.channels, e.first rack x.2 c < 0) (v : String → ℕ → ℚ) :
    ∃ x ∈ l, ∃ c ∈ x.2.pulse.channels, e.first rack x.2 c < 0 ∧
      l.foldlM (fun waves x => playPulse play e rack x.1 x.2 waves) (e.Layer rack v) =
        .error (e.negativeStart x.1 c) := by
  induction l generalizing v with
  | nil => simp at hneg
  | cons x l ih =>
    rw [forall_mem_cons] at hl
    rw [foldlM_cons]
    by_cases hhead : ∃ c ∈ x.2.pulse.channels, e.first rack x.2 c < 0
    · obtain ⟨c, hc, hc0⟩ := hhead
      obtain ⟨d, hd, hd0, herror⟩ := h.playPulse_of_neg play hglobal hl.1 hc hc0 v
      exact ⟨x, mem_cons_self, d, hd, hd0, by rw [herror]; rfl⟩
    · have htail : ∃ x ∈ l, ∃ c ∈ x.2.pulse.channels, e.first rack x.2 c < 0 := by
        simpa only [exists_mem_cons_iff, hhead, false_or] using hneg
      push Not at hhead
      rw [h.playPulse_layer hplay hl.1 hglobal hhead]
      obtain ⟨y, hy, c, hc, hc0, herror⟩ := ih hl.2 htail fun d k => v d k + e.contribution play rack x.2 d k
      exact ⟨y, mem_cons_of_mem x hy, c, hc, hc0, herror⟩

/-- The waves of an element that plays: the level at rest and the contributions of all pulses. -/
theorem Ready.ideal_of_nonneg (hfirst : ∀ x ∈ e.pulses, ∀ c ∈ x.2.pulse.channels, 0 ≤ e.first rack x.2 c) :
    e.ideal id play rack = .ok (e.Layer rack fun c k =>
      restOn rack c + (e.pulses.map fun x => e.contribution play rack x.2 c k).sum) := by
  rw [ideal, h.rest_eq]
  exact h.foldlM_playPulse hplay hglobal (fun _ hx => hx) hfirst _

theorem Ready.ideal_of_neg (hneg : ∃ x ∈ e.pulses, ∃ c ∈ x.2.pulse.channels, e.first rack x.2 c < 0) :
    ∃ x ∈ e.pulses, ∃ c ∈ x.2.pulse.channels, e.first rack x.2 c < 0 ∧
      e.ideal id play rack = .error (e.negativeStart x.1 c) := by
  rw [ideal, h.rest_eq]
  exact h.foldlM_of_neg hplay hglobal (fun _ hx => hx) hneg _

end

theorem Ready.ideal_perm (h : e.Ready rack) (hplay : Answers play e) (hglobal : e.globalTime = true)
    (hfirst : ∀ x ∈ e.pulses, ∀ c ∈ x.2.pulse.channels, 0 ≤ e.first rack x.2 c)
    (hperm : l.Perm e.pulses) : ideal id play { e with pulses := l } rack = e.ideal id play rack := by
  have hsize : sizeOn { e with pulses := l } rack = e.sizeOn rack := by
    funext c
    rw [sizeOn, sizeOn, h.samples_perm hperm]
  have hcontribution : contribution play { e with pulses := l } rack = e.contribution play rack := by
    funext p c k
    simp only [contribution, played, times, h.first_perm hperm]
    rfl
  rw [h.ideal_of_nonneg hplay hglobal hfirst, (h.perm hperm).ideal_of_nonneg
    (fun x hx => hplay x (hperm.mem_iff.1 hx)) hglobal
    (fun x hx => h.first_perm hperm ▸ hfirst x (hperm.mem_iff.1 hx)), Layer, Layer, hsize, hcontribution]
  simp only [(hperm.map _).sum_eq]

/-- Where times are relative and every shape answers, the element plays: each wave has the least allowed number of
samples, and each sample is the level at rest plus what the pulses play there, in whatever order these stand. -/
theorem ideal_superposes (h : e.Ready rack) (hplay : Answers play e) (hglobal : e.globalTime = true)
    (habs : e.isAbsolute = false) :
    ∃ waves, e.ideal id play rack = .ok waves ∧
      (∀ x ∈ e.pulses, ∀ c ∈ x.2.pulse.channels, ∃ (n : ℕ) (wave : Array ℚ),
        e.samples rack c = .ok n ∧ waves.lookup c = some wave ∧ wave.size = n ∧
        e.granularity ∣ n ∧ e.minSamples ≤ n ∧ IsLeast (e.sizes rack c) n ∧
        (∀ k < n, wave[k]? = some (restOn rack c + (e.pulses.map fun y => e.contribution play rack y.2 c k).sum)) ∧
        e.startSample rack x.2 c = .ok (e.first rack x.2 c) ∧
        e.endSample rack x.2 c = .ok (e.first rack x.2 c + count rack x.2 c - 1) ∧
        play x.2.pulse.shape c (e.times rack x.2 c) = .ok (e.played play rack x.2 c)) ∧
      ∀ l : List (String × Placed ℚ π), l.Perm e.pulses → ideal id play { e with pulses := l } rack = .ok waves := by
  have hfirst : ∀ x ∈ e.pulses, ∀ c ∈ x.2.pulse.channels, 0 ≤ e.first rack x.2 c :=
    fun x hx c hc => h.first_nonneg hx hc habs
  have hideal := h.ideal_of_nonneg hplay hglobal hfirst
  refine ⟨_, hideal, fun x hx c hc => ?_, fun l hperm => (h.ideal_perm hplay hglobal hfirst hperm).trans hideal⟩
  have hleast := h.sizeOn_isLeast hx hc
  refine ⟨e.sizeOn rack c, _, h.samples_ok c, h.lookup_layer hx hc _, Array.size_ofFn, hleast.1.1, hleast.1.2.1, hleast,
    fun k hk => ?_, h.startSample_eq hx hc, h.endSample_eq hx hc, (hplay.played_eq hx hc).1⟩
  rw [Array.getElem?_eq_getElem (by simpa using hk), Array.getElem_ofFn]

/-! ### Square pulses -/

/-- One channel with a gigasample per second, a delay of two samples and half a volt at rest. -/
def oneChannel (kind : ChannelKind) (low high : ℚ) : Rack ℚ where
  channels := [("ch1", ⟨"ch1", kind, 2 / 1000000000, 1 / 2, high, low, true, "AWG"⟩)]
  clocks := [("AWG", 1000000000)]

/-- A pulse of three samples that starts at a time in nanoseconds. -/
def square (t : ℚ) : Placed ℚ ℚ :=
  ⟨⟨"square", ["ch1"], some (3 / 1000000000), 0, 0, 1⟩, t / 1000000000, "other"⟩

def squares (isAbsolute : Bool) (starts : List ℚ) : Element ℚ ℚ where
  name := "element"
  granularity := 4
  minSamples := 0
  isAbsolute := isAbsolute
  globalTime := true
  timeOffset := 0
  ignoreDelays := true
  fixedPoint := 1
  pulses := starts.map fun t => ("square", square t)

/-- Shapes that are one value throughout. -/
def constant (level : ℚ) (_ : String) (ts : List ℚ) : Attempt (List ℚ) := .ok (ts.map fun _ => level)

theorem squares_ready (isAbsolute : Bool) (starts : List ℚ) (kind : ChannelKind) (low high : ℚ) :
    (squares isAbsolute starts).Ready (oneChannel kind low high) where
  names := nodup_cons.2 ⟨not_mem_nil, nodup_nil⟩
  rates c hc := by
    obtain rfl := mem_singleton.1 hc
    exact ⟨1000000000, rfl, by norm_num⟩
  known x hx c hc := by
    obtain ⟨t, -, rfl⟩ := mem_map.1 hx
    exact hc
  once x hx := by
    obtain ⟨t, -, rfl⟩ := mem_map.1 hx
    exact nodup_cons.2 ⟨not_mem_nil, nodup_nil⟩
  lengths x hx := by
    obtain ⟨t, -, rfl⟩ := mem_map.1 hx
    exact ⟨_, rfl, by norm_num⟩
  granular := by change (1 : ℤ) ≤ 4; decide
  least := le_refl (0 : ℤ)

theorem constant_answers (e : Element ℚ ℚ) : Answers constant e :=
  fun _ _ _ _ ts => ⟨ts.map fun _ => _, rfl, length_map _⟩

theorem ideal_superposes_overlap : (squares false [1 / 3, 5 / 2]).Ready (oneChannel .analog (-2) 2) ∧
    Answers constant (squares false [1 / 3, 5 / 2]) ∧
    ∃ waves, (squares false [1 / 3, 5 / 2]).ideal id constant (oneChannel .analog (-2) 2) = .ok waves ∧
      (squares false [5 / 2, 1 / 3]).ideal id constant (oneChannel .analog (-2) 2) = .ok waves := by
  have h := squares_ready false [1 / 3, 5 / 2] .analog (-2) 2
  obtain ⟨waves, hwaves, -, hperm⟩ := ideal_superposes h (constant_answers _) rfl rfl
  exact ⟨h, constant_answers _, waves, hwaves, hperm _ (.swap _ _ _)⟩

/-! ## Absolute times -/

/-- The start of a pulse on a channel in samples, with absolute times. -/
def exactStart (e : Element ℚ π) (rack : Rack ℚ) (p : Placed ℚ π) (c : String) : ℚ :=
  (p.t0 - e.delayOn rack c) * rateOn rack c

theorem first_of_isAbsolute (habs : e.isAbsolute = true) (p : Placed ℚ π) (c : String) :
    e.first rack p c = truncated (e.exactStart rack p c + 1 / 2) := by
  have hoffset : e.offsetOn rack = 0 := by rw [offsetOn, offset_of_isAbsolute habs]; rfl
  rw [first, position, hoffset, sub_zero, exactStart]

theorem first_neg_iff (habs : e.isAbsolute = true) (p : Placed ℚ π) (c : String) :
    e.first rack p c < 0 ↔ e.exactStart rack p c ≤ -(3 / 2) := by
  rw [first_of_isAbsolute habs, truncated_neg_iff]
  constructor <;> intro h <;> linarith

/-- With absolute times a pulse starts at the sample nearest to its time from half a sample before zero on. Starts more
than one and a half samples before zero are reported, whereas those between are moved to sample 0 without a report. -/
theorem absolute_starts (h : e.Ready rack) (hplay : Answers play e) (hglobal : e.globalTime = true)
    (habs : e.isAbsolute = true) :
    (∀ (p : Placed ℚ π) (c : String), c ∈ rack.channels.map (·.1) → ∃ s : ℤ, e.startSample rack p c = .ok s ∧
      (|(s : ℚ) - e.exactStart rack p c| ≤ 1 / 2 ↔
        -(1 / 2) ≤ e.exactStart rack p c ∨ ∃ n : ℤ, e.exactStart rack p c = n - 1 / 2) ∧
      (s < 0 ↔ e.exactStart rack p c ≤ -(3 / 2)) ∧
      (-(3 / 2) < e.exactStart rack p c → e.exactStart rack p c < -(1 / 2) → s = 0)) ∧
    ((∃ x ∈ e.pulses, ∃ c ∈ x.2.pulse.channels, e.ideal id play rack = .error (e.negativeStart x.1 c)) ↔
      ∃ x ∈ e.pulses, ∃ c ∈ x.2.pulse.channels, e.exactStart rack x.2 c ≤ -(3 / 2)) ∧
    ((∃ waves, e.ideal id play rack = .ok waves) ↔
      ∀ x ∈ e.pulses, ∀ c ∈ x.2.pulse.channels, -(3 / 2) < e.exactStart rack x.2 c) := by
  refine ⟨fun p c hc => ?_, ?_⟩
  · obtain ⟨f, hf, -⟩ := h.rates c hc
    refine ⟨_, startSample_eq hf (offset_of_isAbsolute habs), ?_, first_neg_iff habs p c, fun hlow hhigh => ?_⟩
    · rw [first_of_isAbsolute habs]
      exact truncated_nearest_iff
    · rw [first_of_isAbsolute habs, truncated, if_neg (by linarith), Int.ceil_eq_zero_iff]
      constructor <;> linarith
  · by_cases hneg : ∃ x ∈ e.pulses, ∃ c ∈ x.2.pulse.channels, e.exactStart rack x.2 c ≤ -(3 / 2)
    · have hfails := h.ideal_of_neg hplay hglobal (by simpa only [first_neg_iff habs] using hneg)
      obtain ⟨x, hx, c, hc, -, herror⟩ := hfails
      refine ⟨iff_of_true ⟨x, hx, c, hc, herror⟩ hneg, iff_of_false ?_ (by push Not; exact hneg)⟩
      rintro ⟨waves, hwaves⟩
      cases herror.symm.trans hwaves
    · have hall : ∀ x ∈ e.pulses, ∀ c ∈ x.2.pulse.channels, -(3 / 2) < e.exactStart rack x.2 c := by
        push Not at hneg
        exact hneg
      have hideal := h.ideal_of_nonneg hplay hglobal fun x hx c hc =>
        not_lt.1 fun hlt => (hall x hx c hc).not_ge ((first_neg_iff habs x.2 c).1 hlt)
      refine ⟨iff_of_false ?_ hneg, iff_of_true ⟨_, hideal⟩ hall⟩
      rintro ⟨x, hx, c, hc, herror⟩
      cases hideal.symm.trans herror

theorem absolute_starts_reported : (squares true [-8 / 5, 4]).Ready (oneChannel .analog (-2) 2) ∧
    Answers constant (squares true [-8 / 5, 4]) ∧
    ∃ x ∈ (squares true [-8 / 5, 4]).pulses, ∃ c ∈ x.2.pulse.channels,
      (squares true [-8 / 5, 4]).ideal id constant (oneChannel .analog (-2) 2) =
        .error ((squares true [-8 / 5, 4]).negativeStart x.1 c) := by
  have h := squares_ready true [-8 / 5, 4] .analog (-2) 2
  refine ⟨h, constant_answers _, (absolute_starts h (constant_answers _) rfl rfl).2.1.2 ?_⟩
  exact ⟨("square", square (-8 / 5)), mem_cons_self, "ch1", mem_cons_self, by decide +kernel⟩

/-- A pulse that starts 1.2 samples before the element is played from sample 0 on. -/
theorem early_start_unreported :
    (squares true [-6 / 5]).exactStart (oneChannel .analog (-2) 2) (square (-6 / 5)) "ch1" = -(6 / 5) ∧
    (squares true [-6 / 5]).startSample (oneChannel .analog (-2) 2) (square (-6 / 5)) "ch1" = .ok 0 ∧
    (squares true [-6 / 5]).ideal id constant (oneChannel .analog (-2) 2) =
      .ok [("ch1", #[3 / 2, 3 / 2, 3 / 2, 1 / 2])] :=
  ⟨by decide +kernel, by decide +kernel, by decide +kernel⟩

end QubitLab.Element
