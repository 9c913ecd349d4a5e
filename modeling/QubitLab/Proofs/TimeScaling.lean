import QubitLab.Proofs.Outcome
import QubitLab.Qasm.Elapsed

/-!
# Times in nanoseconds

Asked for nanoseconds, `elapsed` multiplies the time of a point by the clock cycle once for each part that the point plays.
A target that is the start or the end of the span as well is multiplied twice; `Span.excess` is the time that is counted too
often then. `elapsed_scales_iff`: the answer in nanoseconds is five times the answer in clocks if and only if the points
that are read have the excess of the start, and so whenever no label names the start or the end. `elapsed_sharedStart`: a
label that names the start makes times negative.
-/

namespace QubitLab.Qasm

variable {ε : Type}

def timeAt (g : Grid ε) (i : Nat) : Int := (g[i]?.map (·.time)).getD 0

/-- The time of a target that is the start or the end as well, of a span whose start is not its end. -/
def Span.excess (g : Grid ε) (s : Span) (i : Nat) : Int :=
  if s.start ≠ s.stop ∧ i ∈ s.targets ∧ (i = s.start ∨ i = s.stop) then timeAt g i else 0

/-- A point is scaled as the start is. -/
def Span.Level (g : Grid ε) (s : Span) (i : Nat) : Prop := s.excess g i = s.excess g s.start

/-- Times and an end time in a unit of which the old one has `k`. -/
def inUnits (k : Int) (answer : List (Int × String) × Int) : List (Int × String) × Int :=
  (answer.1.map fun x => (k * x.1, x.2), k * answer.2)

/-! ## Points of a span -/

variable {s : Span}

section
variable {g : Grid ε} {start stop : Option String} {l : String} {i : Nat}

/-- The end of a span is the point with its label, or the last one; targets stand before it, or anywhere. -/
theorem target_inv (hi : i ∈ (spanOf g start stop l).targets) : ∃ p, g[i]? = some p ∧ Text.lower p.label = Text.lower l ∧
    (spanOf g start stop l).start ≤ i ∧ (i < (spanOf g start stop l).stop ∨ (spanOf g start stop l).stop = g.length - 1) := by
  simp only [spanOf, List.mem_filter, List.mem_range, Bool.and_eq_true, decide_eq_true_eq] at hi ⊢
  obtain ⟨hlt, ⟨hs, he⟩, hl⟩ := hi
  rw [List.getElem?_eq_getElem hlt] at hl ⊢
  refine ⟨g[i], rfl, by simpa using hl, hs, ?_⟩
  generalize (stop.bind _).map _ = e at he ⊢
  cases e with
  | none => exact .inr rfl
  | some e => exact .inl he

theorem target_eq_start (h : (spanOf g start stop l).start = (spanOf g start stop l).stop)
    (hi : i ∈ (spanOf g start stop l).targets) : i = (spanOf g start stop l).start := by
  obtain ⟨p, hp, -, hs, he⟩ := target_inv hi
  have := (List.getElem?_eq_some_iff.1 hp).1
  omega

theorem scaledTime_ns (h : s.start ≠ s.stop) (hi : i = s.start ∨ i ∈ s.targets ∨ i = s.stop) :
    scaledTime g true s i = 5 * (timeAt g i + 4 * s.excess g i) := by
  have hscaled : scaledTime g true s i = timeAt g i * (Nat.pow 5 ((if s.start = i then 1 else 0) +
      (if s.targets.contains i then 1 else 0) + (if s.stop = i then 1 else 0)) : Nat) := rfl
  rw [hscaled, Span.excess]
  by_cases hs : s.start = i <;> by_cases ht : i ∈ s.targets <;> by_cases he : s.stop = i <;>
    simp [hs, ht, he, eq_comm (a := i), h] at hi ⊢ <;> omega

/-- **A time is five times that in clocks if and only if its point is scaled as the start is.** -/
theorem scaled_sub_iff (hs : s.start = s.stop → ∀ i ∈ s.targets, i = s.start) (hi : i ∈ s.targets ∨ i = s.stop) :
    scaledTime g true s i - scaledTime g true s s.start = 5 * (scaledTime g false s i - scaledTime g false s s.start) ↔
      s.Level g i := by
  have hclocks (j : Nat) : scaledTime g false s j = timeAt g j := rfl
  by_cases h : s.start = s.stop
  · obtain rfl : i = s.start := hi.elim (hs h i) fun hi => hi.trans h.symm
    simp [Span.Level]
  · rw [scaledTime_ns h (.inr hi), scaledTime_ns h (.inl rfl), Span.Level, hclocks, hclocks]
    omega

theorem Span.level_of_apart (hs : s.start ∉ s.targets) (he : s.stop ∉ s.targets) (i : Nat) : s.Level g i := by
  have hzero (j : Nat) : s.excess g j = 0 := by
    refine if_neg ?_
    rintro ⟨-, hj, rfl | rfl⟩
    · exact hs hj
    · exact he hj
  rw [Span.Level, hzero, hzero]

end

/-! ## Answers -/

theorem flatMap_eq_flatMap_iff {α β : Type} {f g : α → List β} {xs : List α} (h : ∀ x, (f x).length = (g x).length) :
    xs.flatMap f = xs.flatMap g ↔ ∀ x ∈ xs, f x = g x := by
  induction xs with
  | nil => simp
  | cons x xs ih =>
    rw [List.flatMap_cons, List.flatMap_cons, List.forall_mem_cons, ← ih]
    exact ⟨fun heq => List.append_inj heq (h x), fun heq => by rw [heq.1, heq.2]⟩

/-- The times of the points of a label. -/
def labelTimes (g : Grid ε) (start stop : Option String) (inNs : Bool) (l : String) : List (Int × String) :=
  let s := spanOf g start stop l
  s.targets.map fun i => (scaledTime g inNs s i - scaledTime g inNs s s.start, l)

/-- The time of the end, by the span of a label. -/
def endTime (g : Grid ε) (start stop : Option String) (inNs : Bool) (l : String) : Int :=
  let s := spanOf g start stop l
  scaledTime g inNs s s.stop - scaledTime g inNs s s.start

theorem elapsed_eq {g : Grid ε} (hg : g ≠ []) {labels : List String} {last : String} (hl : labels.getLast? = some last)
    (start stop : Option String) (inNs : Bool) :
    elapsed g labels start stop inNs = .ok (labels.flatMap (labelTimes g start stop inNs), endTime g start stop inNs last) := by
  have hempty : g.isEmpty = false := by simpa using hg
  simp only [elapsed, hempty, List.getLast?_map, hl, Option.map_some, List.flatMap_map]
  rfl

theorem labelTimes_scales_iff {g : Grid ε} {start stop : Option String} {l : String} :
    labelTimes g start stop true l = (labelTimes g start stop false l).map (fun x => (5 * x.1, x.2)) ↔
      ∀ i ∈ (spanOf g start stop l).targets, (spanOf g start stop l).Level g i := by
  rw [labelTimes, labelTimes, List.map_map, List.map_inj_left]
  refine forall₂_congr fun i hi => ?_
  rw [← scaled_sub_iff (fun h j hj => target_eq_start h hj) (.inl hi)]
  simp

/-- **When times are converted.** The answer in nanoseconds is five times the answer in clocks if and only if, for each label,
its points are scaled as the start is, and for the last label the end as well; so it is whenever no label names the start or
the end, whatever the case of its letters. -/
theorem elapsed_scales_iff (g : Grid ε) (labels : List String) (start stop : Option String) :
    (elapsed g labels start stop true = (elapsed g labels start stop false).map (inUnits 5) ↔
      (∀ l ∈ labels, ∀ i ∈ (spanOf g start stop l).targets, (spanOf g start stop l).Level g i) ∧
        ∀ l ∈ labels.getLast?, (spanOf g start stop l).Level g (spanOf g start stop l).stop) ∧
    ((∀ l ∈ labels, ∀ p, g[(spanOf g start stop l).start]? = some p ∨ g[(spanOf g start stop l).stop]? = some p →
        Text.lower p.label ≠ Text.lower l) →
      elapsed g labels start stop true = (elapsed g labels start stop false).map (inUnits 5)) := by
  have hiff : elapsed g labels start stop true = (elapsed g labels start stop false).map (inUnits 5) ↔
      (∀ l ∈ labels, ∀ i ∈ (spanOf g start stop l).targets, (spanOf g start stop l).Level g i) ∧
        ∀ l ∈ labels.getLast?, (spanOf g start stop l).Level g (spanOf g start stop l).stop := by
    by_cases hg : g = []
    · subst hg
      refine iff_of_true rfl ⟨fun l _ i hi => ?_, fun l _ => ?_⟩
      · simp [spanOf] at hi
      · exact Span.level_of_apart (by simp [spanOf]) (by simp [spanOf]) _
    cases hl : labels.getLast? with
    | none =>
      obtain rfl := List.getLast?_eq_none_iff.1 hl
      have herror (b : Bool) : elapsed g [] start stop b = .error .noLabel := by
        simp [elapsed, hg]
      exact iff_of_true (by rw [herror, herror]; rfl) (by simp)
    | some last =>
      have htimes (l : String) : (labelTimes g start stop true l).length =
          ((labelTimes g start stop false l).map fun x => (5 * x.1, x.2)).length := by simp [labelTimes]
      have hend : endTime g start stop true last = 5 * endTime g start stop false last ↔
          (spanOf g start stop last).Level g (spanOf g start stop last).stop := by
        rw [← scaled_sub_iff (fun h i hi => target_eq_start h hi) (.inr rfl)]
        rfl
      rw [elapsed_eq hg hl, elapsed_eq hg hl]
      simp only [Except.map, Except.ok.injEq, inUnits, Prod.mk.injEq, List.map_flatMap, flatMap_eq_flatMap_iff htimes,
        labelTimes_scales_iff, hend, Option.mem_some_iff, forall_eq']
  refine ⟨hiff, fun hnames => hiff.2 ?_⟩
  have hlevel (l : String) (hl : l ∈ labels) (i : Nat) : (spanOf g start stop l).Level g i := by
    refine Span.level_of_apart (fun hi => ?_) (fun hi => ?_) i
    · obtain ⟨p, hp, hlabel, -⟩ := target_inv hi
      exact hnames l hl p (.inl hp) hlabel
    · obtain ⟨p, hp, hlabel, -⟩ := target_inv hi
      exact hnames l hl p (.inr hp) hlabel
  exact ⟨fun l hl i _ => hlevel l hl i, fun l hl => hlevel l (List.mem_of_mem_getLast? hl) _⟩

/-- The start is a point of the label: its time is multiplied twice, and the next point of the label and the end come out
before it. -/
theorem elapsed_sharedStart :
    let g : Grid Unit := [{ label := "y", time := 0 }, { label := "x", time := 4 }, { label := "y", time := 8 },
      { label := "x", time := 12 }, { time := 16 }]
    elapsed g ["x"] (some "x") none false = .ok ([(0, "x"), (8, "x")], 12) ∧
      elapsed g ["x"] (some "x") none true = .ok ([(0, "x"), (-40, "x")], -20) := by
  exact ⟨by decide +kernel, by decide +kernel⟩

end QubitLab.Qasm
