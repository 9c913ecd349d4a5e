import Mathlib.Data.Rat.Floor
import Mathlib.Tactic.FieldSimp
import Mathlib.Tactic.Linarith
import Mathlib.Tactic.Ring
import QubitLab.Element.Basic
import QubitLab.Proofs.KeyedLists
import QubitLab.Proofs.Outcome

/-!
# References between pulses

A pulse that is added relative to another keeps its place to it in the finished element (`references_hold`): whatever is
added later, and also when the first readout moves all pulses. Times are rational numbers here, so that nothing is lost
to rounding.

`Kept f e as` is the state of an element to which the additions `as` were made. `Kept.add` is the step: a new pulse is put
where its reference asks, and the others are moved at most all together (`align_eq_ok`). `Carried` splits the calls of a
run into the single additions that they make.
-/

namespace QubitLab

/-! ## Exact times -/

/-- The whole number next to a rational one, the even one of two. -/
def nearestWhole (x : ℚ) : ℤ :=
  if Int.fract x < 1 / 2 then ⌊x⌋
  else if 1 / 2 < Int.fract x then ⌊x⌋ + 1
  else if ⌊x⌋ % 2 = 0 then ⌊x⌋ else ⌊x⌋ + 1

theorem nearestWhole_intCast (n : ℤ) : nearestWhole n = n := by
  rw [nearestWhole, Int.fract_intCast, if_pos (by norm_num), Int.floor_intCast]

instance : Scalar ℚ where
  ofInt n := n
  half := 1 / 2
  below a b := decide (a < b)
  truncate? x := some (if 0 ≤ x then ⌊x⌋ else ⌈x⌉)
  remainder? a b := if b = 0 then none else some (a - b * ⌊a / b⌋)
  round places x := nearestWhole (x * (Nat.pow 10 places : ℕ)) / (Nat.pow 10 places : ℕ)

theorem below_iff {x y : ℚ} : Scalar.below x y = true ↔ x < y := decide_eq_true_iff

/-- A time in whole nanoseconds. -/
def IsWhole (t : ℚ) : Prop := ∃ n : ℤ, t = n / 1000000000

variable {t f : ℚ}

theorem round_of_isWhole (h : IsWhole t) : Scalar.round 9 t = t := by
  obtain ⟨n, rfl⟩ := h
  have hn : (n / 1000000000 : ℚ) * (Nat.pow 10 9 : ℕ) = n := by norm_num
  change (nearestWhole (n / 1000000000 * (Nat.pow 10 9 : ℕ)) : ℚ) / (Nat.pow 10 9 : ℕ) = _
  rw [hn, nearestWhole_intCast]
  norm_num

theorem timeCorrection_eq_ok {dt : ℚ} :
    timeCorrection t f = .ok dt ↔ f ≠ 0 ∧ dt = Scalar.round 9 (f - t - f * ⌊(f - t) / f⌋) := by
  by_cases hf : f = 0
  · simp [timeCorrection, Scalar.remainder?, hf, orFail, bind, Except.bind, fail]
  · simp [timeCorrection, Scalar.remainder?, hf, orFail, bind, Except.bind, pure, Except.pure, eq_comm]

theorem add_timeCorrection {dt : ℚ} (ht : IsWhole t) (hf : IsWhole f) (h : timeCorrection t f = .ok dt) :
    ∃ k : ℤ, t + dt = k * f := by
  obtain ⟨-, rfl⟩ := timeCorrection_eq_ok.1 h
  have hw : IsWhole (f - t - f * ⌊(f - t) / f⌋) := by
    generalize ⌊(f - t) / f⌋ = q
    obtain ⟨⟨m, rfl⟩, ⟨n, rfl⟩⟩ := And.intro ht hf
    exact ⟨n - m - n * q, by push_cast; ring⟩
  rw [round_of_isWhole hw]
  exact ⟨1 - ⌊(f - t) / f⌋, by push_cast; ring⟩

variable {π : Type}

/-! ## Points of a pulse -/

/-- How far into a pulse a point lies, as a part of its effective length. -/
def Point.share : Point → ℚ
  | .start => 0
  | .center => 1 / 2
  | .stop => 1

/-- The effective length of a pulse whose length is known. -/
def Pulse.span (p : Pulse ℚ π) : ℚ := p.length?.getD 0 - p.startOffset - p.stopOffset

namespace Placed

/-- When a point of a pulse is, by which others refer to it. -/
def time (p : Placed ℚ π) : Point → Attempt ℚ
  | .start => .ok p.effectiveStart
  | .center => do return (p.effectiveStart + (← p.effectiveStop)) / 2
  | .stop => p.effectiveStop

theorem effectiveStop_eq {p : Placed ℚ π} (h : p.pulse.length? ≠ none) :
    p.effectiveStop = .ok (p.effectiveStart + p.pulse.span) := by
  obtain ⟨l, hl⟩ := Option.ne_none_iff_exists'.1 h
  rw [effectiveStop, stop, Pulse.length, hl, effectiveStart, Pulse.span, hl]
  exact congrArg Except.ok (by simp only [Option.getD_some]; ring)

theorem time_eq (p : Placed ℚ π) {x : Point} (h : x ≠ .start → p.pulse.length? ≠ none) :
    p.time x = .ok (p.effectiveStart + x.share * p.pulse.span) := by
  cases x with
  | start => rw [time, Point.share, zero_mul, add_zero]
  | center =>
    rw [time, effectiveStop_eq (h (by decide))]
    exact congrArg Except.ok (by rw [Point.share]; ring)
  | stop => rw [time, effectiveStop_eq (h (by decide)), Point.share, one_mul]

/-- Moves a pulse in time. -/
def moved (dt : ℚ) (p : Placed ℚ π) : Placed ℚ π := { p with t0 := p.t0 + dt }

theorem time_moved {p : Placed ℚ π} {x : Point} {t : ℚ} (h : p.time x = .ok t) (dt : ℚ) :
    (p.moved dt).time x = .ok (t + dt) := by
  have hl : x ≠ .start → p.pulse.length? ≠ none := by
    intro hx hl
    cases x <;> simp_all [time, effectiveStop, stop, Pulse.length, orFail, fail, bind, Except.bind]
  obtain rfl : p.effectiveStart + x.share * p.pulse.span = t := Except.ok.inj ((time_eq p hl).symm.trans h)
  rw [time_eq (p.moved dt) hl]
  exact congrArg Except.ok (by simp only [effectiveStart, moved]; ring)

end Placed

/-! ## One addition -/

namespace Element

variable {p : Pulse ℚ π} {q : Placed ℚ π} {y : Point}

theorem startAfter_eq (hq : q.pulse.length? ≠ none) (hp : y ≠ .start → p.length? ≠ none) (start : ℚ) (x : Point) :
    startAfter p start q x y =
      .ok (q.effectiveStart + x.share * q.pulse.span + start - p.startOffset - y.share * p.span) := by
  have hlen {r : Pulse ℚ π} (h : r.length? ≠ none) : r.effectiveLength = .ok r.span := by
    obtain ⟨l, hl⟩ := Option.ne_none_iff_exists'.1 h
    rw [Pulse.effectiveLength, Pulse.length, hl, Pulse.span, hl]
    rfl
  rw [startAfter, Placed.effectiveStop_eq hq]
  cases y with
  | start =>
    cases x <;> simp only [hlen hq, bind, Except.bind, pure, Except.pure, Point.share, Scalar.ofInt] <;>
      exact congrArg Except.ok (by push_cast; ring)
  | center =>
    rw [hlen (hp (by decide))]
    cases x <;> simp only [hlen hq, bind, Except.bind, pure, Except.pure, Point.share, Scalar.ofInt] <;>
      exact congrArg Except.ok (by push_cast; ring)
  | stop =>
    rw [hlen (hp (by decide))]
    cases x <;> simp only [hlen hq, bind, Except.bind, pure, Except.pure, Point.share, Scalar.ofInt] <;>
      exact congrArg Except.ok (by push_cast; ring)

theorem lengths_of_startAfter {start t : ℚ} {x : Point}
    (h : startAfter p start q x y = .ok t) : q.pulse.length? ≠ none ∧ (y ≠ .start → p.length? ≠ none) := by
  obtain ⟨s, hs, h⟩ := bind_eq_ok.1 h
  constructor
  · intro hq
    rw [Placed.effectiveStop, Placed.stop, Pulse.length, hq] at hs
    cases hs
  · intro hy hp
    have hlen : p.effectiveLength = .error (.of .sort) := by rw [Pulse.effectiveLength, Pulse.length, hp]; rfl
    cases y with
    | start => exact hy rfl
    | center => rw [hlen] at h; cases h
    | stop => rw [hlen] at h; cases h

/-- The new pulse stands to its reference as asked, whichever points are meant. -/
theorem time_startAfter {start t : ℚ} {x : Point} (h : startAfter p start q x y = .ok t) (operation : String) :
    ∃ s, q.time x = .ok s ∧ (⟨p, t, operation⟩ : Placed ℚ π).time y = .ok (s + start) := by
  obtain ⟨hq, hp⟩ := lengths_of_startAfter h
  obtain rfl := Except.ok.inj ((startAfter_eq hq hp start x).symm.trans h)
  refine ⟨_, Placed.time_eq q fun _ => hq, (Placed.time_eq _ hp).trans (congrArg Except.ok ?_)⟩
  simp only [Placed.effectiveStart]
  ring

end Element

/-- What is asked for when a pulse is added. -/
structure Order (π : Type) where
  pulse : Pulse ℚ π
  name? : Option String
  start : ℚ
  ref? : Option String
  point : Point
  pointNew : Point
  operation : String

namespace Element

def startFor (e : Element ℚ π) (o : Order π) : Attempt ℚ := e.startOf o.pulse o.start o.ref? o.point o.pointNew

def addOrder (e : Element ℚ π) (o : Order π) : Attempt (String × Element ℚ π) :=
  e.add o.pulse o.name? o.start o.ref? o.point o.pointNew o.operation

variable {e : Element ℚ π}

/-- The first readout moves all pulses together; no other addition moves any. -/
theorem align_eq_ok {e' : Element ℚ π} {t : ℚ} {operation : String} :
    e.align t operation = .ok e' ↔
      if operation = "RO" ∧ e.isAligned = false then
        ∃ dt, timeCorrection t e.fixedPoint = .ok dt ∧ e' = { e.shift dt with isAligned := true }
      else e' = e := by
  rw [align]
  by_cases h : operation = "RO" ∧ e.isAligned = false
  · rw [if_pos (by simpa using h), if_pos h, bind_eq_ok]
    simp only [pure, Except.pure, Except.ok.injEq, eq_comm]
  · rw [if_neg (by simpa using h), if_neg h]
    simp only [pure, Except.pure, Except.ok.injEq, eq_comm]

theorem addOrder_eq_ok {e' : Element ℚ π} {o : Order π} {n : String} :
    e.addOrder o = .ok (n, e') ↔ n = o.name?.getD (e.freshName o.pulse.name) ∧ ∃ t, e.startFor o = .ok t ∧
      (e.insert n ⟨o.pulse, t, o.operation⟩).align t o.operation = .ok e' := by
  simp only [addOrder, add, startFor, bind_eq_ok, pure, Except.pure, Except.ok.injEq, Prod.mk.injEq]
  constructor
  · rintro ⟨t, ht, e₁, he, rfl, rfl⟩
    exact ⟨rfl, t, ht, he⟩
  · rintro ⟨rfl, t, ht, he⟩
    exact ⟨t, ht, e', he, rfl, rfl⟩

theorem startFor_of_ref {o : Order π} {r : String} (hr : o.ref? = some r) {t : ℚ} :
    e.startFor o = .ok t ↔
      ∃ q, e.pulses.lookup r = some q ∧ startAfter o.pulse o.start q o.point o.pointNew = .ok t := by
  simp only [startFor, startOf, hr, bind_eq_ok, placed, orFail_eq_ok]

theorem lookup_insert (e : Element ℚ π) (n k : String) (p : Placed ℚ π) :
    (e.insert n p).pulses.lookup k = if k = n then some p else e.pulses.lookup k := Assoc.lookup_put n k p e.pulses

theorem lookup_shift (e : Element ℚ π) (dt : ℚ) (k : String) :
    (e.shift dt).pulses.lookup k = (e.pulses.lookup k).map (Placed.moved dt) := by
  simp only [shift]
  induction e.pulses with
  | nil => rfl
  | cons x l ih =>
    rw [List.map_cons, lookup_cons_eq, lookup_cons_eq k x.1 x.2, ih]
    split <;> rfl

end Element

/-! ## What additions keep -/

/-- A pulse that was added: what was asked for, and the name and start that it was given. -/
structure Addition (π : Type) extends Order π where
  name : String
  t0 : ℚ

def Addition.isReadout (a : Addition π) : Bool := a.operation = "RO"

/-- The pulses of an element are those that were added, each where its reference asks. -/
structure Standing (e : Element ℚ π) (as : List (Addition π)) : Prop where
  names : e.pulses.map (·.1) = as.map (·.name)
  placed : ∀ a ∈ as, ∃ p, e.pulses.lookup a.name = some p ∧ p.pulse = a.pulse ∧ p.operation = a.operation ∧
    ∀ r, a.ref? = some r → ∃ q s, e.pulses.lookup r = some q ∧ q.time a.point = .ok s ∧
      p.time a.pointNew = .ok (s + a.start)

/-- Moreover, the first readout starts at a multiple of the fixed point `f`. -/
structure Kept (f : ℚ) (e : Element ℚ π) (as : List (Addition π)) : Prop extends Standing e as where
  fixedPoint : e.fixedPoint = f
  aligned : e.isAligned = (as.find? (·.isReadout)).isSome
  readout : ∀ a, as.find? (·.isReadout) = some a → IsWhole a.t0 → IsWhole f →
    ∃ p, e.pulses.lookup a.name = some p ∧ ∃ k : ℤ, p.t0 = k * f

namespace Standing

variable {e : Element ℚ π} {as : List (Addition π)} {n : String}

theorem lookup_insert (h : Standing e as) (hn : n ∉ as.map (·.name)) {k : String} {q : Placed ℚ π}
    (hq : e.pulses.lookup k = some q) (p : Placed ℚ π) : (e.insert n p).pulses.lookup k = some q := by
  rw [Element.lookup_insert, if_neg, hq]
  rintro rfl
  exact hn (h.names ▸ lookup_isSome.1 (Option.isSome_of_eq_some hq))

theorem insert (h : Standing e as) {o : Order π} {t : ℚ} (ht : e.startFor o = .ok t) (hn : n ∉ as.map (·.name)) :
    Standing (e.insert n ⟨o.pulse, t, o.operation⟩) (as ++ [⟨o, n, t⟩]) where
  names := by
    rw [Element.insert, Assoc.put_of_notMem (h.names ▸ hn), List.map_append, List.map_append, h.names]
    rfl
  placed := by
    intro a ha
    rcases List.mem_append.1 ha with ha | ha
    · obtain ⟨p, hp, hpulse, hop, hr⟩ := h.placed a ha
      refine ⟨p, h.lookup_insert hn hp _, hpulse, hop, fun r hra => ?_⟩
      obtain ⟨q, s, hq, hs⟩ := hr r hra
      exact ⟨q, s, h.lookup_insert hn hq _, hs⟩
    · obtain rfl := List.mem_singleton.1 ha
      refine ⟨_, by rw [Element.lookup_insert, if_pos rfl], rfl, rfl, fun r hr => ?_⟩
      obtain ⟨q, hq, ht⟩ := (Element.startFor_of_ref hr).1 ht
      obtain ⟨s, hs, hp⟩ := Element.time_startAfter ht o.operation
      exact ⟨q, s, h.lookup_insert hn hq _, hs, hp⟩

theorem shift (h : Standing e as) (dt : ℚ) : Standing (e.shift dt) as where
  names := by
    rw [← h.names, Element.shift, List.map_map]
    rfl
  placed := by
    intro a ha
    obtain ⟨p, hp, hpulse, hop, hr⟩ := h.placed a ha
    refine ⟨p.moved dt, by rw [Element.lookup_shift, hp]; rfl, hpulse, hop, fun r hra => ?_⟩
    obtain ⟨q, s, hq, hs, ht⟩ := hr r hra
    refine ⟨q.moved dt, s + dt, by rw [Element.lookup_shift, hq]; rfl, q.time_moved hs dt, ?_⟩
    rw [p.time_moved ht dt, add_right_comm]

end Standing

/-- A pulse with a new name is put where its reference asks, and all earlier ones keep their places to each other. -/
theorem Kept.add {e e' : Element ℚ π} {as : List (Addition π)} (h : Kept f e as) {o : Order π} {n : String}
    (ht : e.startFor o = .ok t) (he : e.addOrder o = .ok (n, e')) (hn : n ∉ as.map (·.name)) :
    Kept f e' (as ++ [⟨o, n, t⟩]) := by
  obtain ⟨-, t', ht', he⟩ := Element.addOrder_eq_ok.1 he
  obtain rfl : t = t' := Except.ok.inj (ht.symm.trans ht')
  have hput := h.insert ht hn
  rw [Element.align_eq_ok] at he
  split at he
  · next hro =>
    obtain ⟨dt, hdt, rfl⟩ := he
    have hnone : as.find? (·.isReadout) = none :=
      Option.not_isSome_iff_eq_none.1 fun hsome => Bool.eq_false_iff.1 hro.2 (h.aligned.trans hsome)
    have hfirst : (as ++ [(⟨o, n, t⟩ : Addition π)]).find? (·.isReadout) = some ⟨o, n, t⟩ := by
      rw [List.find?_append, hnone, Option.none_or, List.find?_singleton, if_pos]
      exact decide_eq_true hro.1
    have hmoved := hput.shift dt
    refine ⟨⟨hmoved.names, hmoved.placed⟩, h.fixedPoint, by rw [hfirst]; rfl, fun a ha hwt hwf => ?_⟩
    obtain rfl := Option.some.inj (hfirst.symm.trans ha)
    have hnew : ((e.insert n ⟨o.pulse, t, o.operation⟩).shift dt).pulses.lookup n =
        some ⟨o.pulse, t + dt, o.operation⟩ := by
      rw [Element.lookup_shift, Element.lookup_insert, if_pos rfl]
      rfl
    exact ⟨_, hnew, add_timeCorrection hwt hwf (h.fixedPoint ▸ hdt)⟩
  · next hro =>
    obtain rfl := he
    -- a readout that is not the first does not become the first
    have hfind : (as ++ [(⟨o, n, t⟩ : Addition π)]).find? (·.isReadout) = as.find? (·.isReadout) := by
      rw [List.find?_append]
      cases hf : as.find? (·.isReadout) with
      | some a => rfl
      | none =>
        rw [Option.none_or, List.find?_singleton, if_neg]
        exact fun hop => hro ⟨of_decide_eq_true hop, by rw [Element.insert, h.aligned, hf]; rfl⟩
    refine ⟨hput, h.fixedPoint, by rw [hfind]; exact h.aligned, fun a ha hwt hwf => ?_⟩
    obtain ⟨p, hp, hk⟩ := h.readout a (hfind ▸ ha) hwt hwf
    exact ⟨p, h.lookup_insert hn hp _, hk⟩

/-! ## Runs -/

/-- A call that adds one pulse, or several behind the last one. -/
inductive Call (π : Type)
  | add (o : Order π)
  | append (ps : List (Pulse ℚ π))

/-- A pulse right behind another one. -/
def Order.behind (last? : Option String) (p : Pulse ℚ π) : Order π := ⟨p, none, 0, last?, .stop, .start, "other"⟩

namespace Element

def call (e : Element ℚ π) : Call π → Attempt (Element ℚ π)
  | .add o => (e.addOrder o).map (·.2)
  | .append ps => (e.append ps).map (·.2)

def run (e : Element ℚ π) (calls : List (Call π)) : Attempt (Element ℚ π) := calls.foldlM call e

end Element

/-- The calls make the additions, one after the other; those of an `append` go behind the pulse that was last then. -/
inductive Carried : Element ℚ π → List (Call π) → List (Addition π) → Element ℚ π → Prop
  | done {e : Element ℚ π} : Carried e [] [] e
  | add {e e₁ e' : Element ℚ π} {o : Order π} {n : String} {t : ℚ} {calls : List (Call π)} {as : List (Addition π)}
      (start : e.startFor o = .ok t) (step : e.addOrder o = .ok (n, e₁)) (rest : Carried e₁ calls as e') :
      Carried e (.add o :: calls) (⟨o, n, t⟩ :: as) e'
  | appended {e e' : Element ℚ π} {calls : List (Call π)} {as : List (Addition π)} (rest : Carried e calls as e') :
      Carried e (.append [] :: calls) as e'
  | append {e e₁ e' : Element ℚ π} {p : Pulse ℚ π} {ps : List (Pulse ℚ π)} {n : String} {t : ℚ}
      {calls : List (Call π)} {as : List (Addition π)} (start : e.startFor (.behind e.last? p) = .ok t)
      (step : e.addOrder (.behind e.last? p) = .ok (n, e₁)) (rest : Carried e₁ (.append ps :: calls) as e') :
      Carried e (.append (p :: ps) :: calls) (⟨.behind e.last? p, n, t⟩ :: as) e'

namespace Element

theorem call_append_cons (e : Element ℚ π) (p : Pulse ℚ π) (ps : List (Pulse ℚ π)) :
    e.call (.append (p :: ps)) = e.addOrder (.behind e.last? p) >>= fun r => r.2.call (.append ps) := by
  have hcast : (Scalar.ofInt 0 : ℚ) = 0 := Int.cast_zero
  rw [call, append, hcast]
  change (e.addOrder (.behind e.last? p) >>= _).map _ = _
  cases e.addOrder (.behind e.last? p) with
  | error _ => rfl
  | ok r => cases ps <;> rfl

theorem run_cons (e : Element ℚ π) (c : Call π) (calls : List (Call π)) :
    e.run (c :: calls) = e.call c >>= fun e₁ => e₁.run calls := List.foldlM_cons

variable {e e' : Element ℚ π}

theorem startFor_of_addOrder {o : Order π} {n : String} (h : e.addOrder o = .ok (n, e')) :
    ∃ t, e.startFor o = .ok t := by
  obtain ⟨-, t, ht, -⟩ := addOrder_eq_ok.1 h
  exact ⟨t, ht⟩

theorem exists_carried_append {e₁ : Element ℚ π} {ps : List (Pulse ℚ π)} {calls : List (Call π)}
    {as : List (Addition π)} (h : e.call (.append ps) = .ok e₁) (has : Carried e₁ calls as e') :
    ∃ as', Carried e (.append ps :: calls) as' e' := by
  induction ps generalizing e with
  | nil =>
    cases h
    exact ⟨as, .appended has⟩
  | cons p ps ih =>
    rw [call_append_cons] at h
    obtain ⟨⟨n, e₂⟩, ho, h⟩ := bind_eq_ok.1 h
    obtain ⟨t, ht⟩ := startFor_of_addOrder ho
    obtain ⟨as', has'⟩ := ih h
    exact ⟨_, .append ht ho has'⟩

theorem run_eq_ok {calls : List (Call π)} : e.run calls = .ok e' ↔ ∃ as, Carried e calls as e' := by
  constructor
  · intro h
    induction calls generalizing e with
    | nil =>
      cases h
      exact ⟨[], .done⟩
    | cons c calls ih =>
      rw [run_cons] at h
      obtain ⟨e₁, hc, h⟩ := bind_eq_ok.1 h
      obtain ⟨as, has⟩ := ih h
      cases c with
      | add o =>
        obtain ⟨⟨n, _⟩, ho, rfl⟩ := map_eq_ok.1 hc
        obtain ⟨t, ht⟩ := startFor_of_addOrder ho
        exact ⟨_, .add ht ho has⟩
      | append ps => exact exists_carried_append hc has
  · rintro ⟨as, h⟩
    induction h with
    | done => rfl
    | add _ step _ ih => rw [run_cons, call, step]; exact ih
    | appended _ ih => exact ih
    | append _ step _ ih => rw [run_cons, call_append_cons, step, ← ih]; rfl

end Element

theorem Kept.run {e e' : Element ℚ π} {calls : List (Call π)} {before as : List (Addition π)}
    (h : Kept f e before) (hrun : Carried e calls as e') (hnames : ((before ++ as).map (·.name)).Nodup) :
    Kept f e' (before ++ as) := by
  -- the name of the next addition is not among those before
  have hnew {before as : List (Addition π)} {a : Addition π} (hn : ((before ++ a :: as).map (·.name)).Nodup) :
      a.name ∉ before.map (·.name) := by
    rw [List.map_append, List.nodup_append] at hn
    exact fun hm => hn.2.2 _ hm _ List.mem_cons_self rfl
  induction hrun generalizing before with
  | done => rwa [List.append_nil]
  | add start step _ ih =>
    have hadd := h.add start step (hnew hnames)
    rw [List.append_cons] at hnames ⊢
    exact ih hadd hnames
  | appended _ ih => exact ih h hnames
  | append start step _ ih =>
    have hadd := h.add start step (hnew hnames)
    rw [List.append_cons] at hnames ⊢
    exact ih hadd hnames

/-! ## When a call gives a result -/

namespace Element

/-- The pulse behind which others are appended. -/
def lastPulse? (e : Element ℚ π) : Option (Pulse ℚ π) := (e.last?.bind fun n => e.pulses.lookup n).map (·.pulse)

/-- What an addition needs: its reference, the lengths that it is placed by, and for the first readout a fixed point. -/
def Fits (e : Element ℚ π) (o : Order π) : Prop :=
  (∀ r, o.ref? = some r → ∃ q, e.pulses.lookup r = some q ∧ q.pulse.length? ≠ none ∧
    (o.pointNew ≠ .start → o.pulse.length? ≠ none)) ∧
  (o.operation = "RO" → e.isAligned = false → e.fixedPoint ≠ 0)

/-- What a call needs. -/
def Accepts (e : Element ℚ π) : Call π → Prop
  | .add o => e.Fits o
  | .append ps => ∀ p ∈ (e.lastPulse?.toList ++ ps).dropLast, p.length? ≠ none

variable {e : Element ℚ π} {o : Order π}

theorem exists_startFor :
    (∃ t, e.startFor o = .ok t) ↔ ∀ r, o.ref? = some r → ∃ q, e.pulses.lookup r = some q ∧ q.pulse.length? ≠ none ∧
      (o.pointNew ≠ .start → o.pulse.length? ≠ none) := by
  cases hr : o.ref? with
  | none =>
    refine iff_of_true ⟨o.start - o.pulse.startOffset, ?_⟩ (by simp)
    rw [startFor, hr]
    rfl
  | some r =>
    simp only [startFor_of_ref hr, Option.some.injEq, forall_eq']
    constructor
    · rintro ⟨t, q, hq, ht⟩
      exact ⟨q, hq, lengths_of_startAfter ht⟩
    · rintro ⟨q, hq, hlen, hnew⟩
      exact ⟨_, q, hq, startAfter_eq hlen hnew o.start o.point⟩

theorem exists_align (e : Element ℚ π) (t : ℚ) (operation : String) :
    (∃ e', e.align t operation = .ok e') ↔ (operation = "RO" → e.isAligned = false → e.fixedPoint ≠ 0) := by
  by_cases h : operation = "RO" ∧ e.isAligned = false
  · simp only [align_eq_ok, timeCorrection_eq_ok, h.1, h.2, forall_const]
    constructor
    · rintro ⟨e', dt, ⟨hf, -⟩, -⟩
      exact hf
    · intro hf
      exact ⟨_, _, ⟨hf, rfl⟩, rfl⟩
  · exact iff_of_true ⟨e, align_eq_ok.2 (by rw [if_neg h])⟩ fun hop hal => absurd ⟨hop, hal⟩ h

theorem exists_addOrder : (∃ r, e.addOrder o = .ok r) ↔ e.Fits o := by
  rw [Fits, ← exists_startFor, Prod.exists]
  simp only [addOrder_eq_ok]
  constructor
  · rintro ⟨n, e', -, t, ht, he⟩
    exact ⟨⟨t, ht⟩, (exists_align (e.insert n _) t _).1 ⟨e', he⟩⟩
  · rintro ⟨⟨t, ht⟩, hf⟩
    obtain ⟨e', he⟩ := (exists_align (e.insert _ ⟨o.pulse, t, o.operation⟩) t _).2 hf
    exact ⟨_, e', rfl, t, ht, he⟩

theorem lastPulse_of_addOrder {e' : Element ℚ π} {n : String} (h : e.addOrder o = .ok (n, e')) :
    e'.lastPulse? = some o.pulse := by
  obtain ⟨-, t, -, h⟩ := addOrder_eq_ok.1 h
  rw [align_eq_ok] at h
  have hput : (e.insert n ⟨o.pulse, t, o.operation⟩).pulses.lookup n = some ⟨o.pulse, t, o.operation⟩ := by
    rw [lookup_insert, if_pos rfl]
  split at h
  · obtain ⟨dt, -, rfl⟩ := h
    have hmoved := lookup_shift (e.insert n ⟨o.pulse, t, o.operation⟩) dt n
    rw [hput] at hmoved
    exact congrArg (Option.map _) hmoved
  · obtain rfl := h
    exact congrArg (Option.map _) hput

/-- The pulse that was added last is still there. -/
def HasLast (e : Element ℚ π) : Prop := e.last? = none ∨ ∃ p, e.lastPulse? = some p

theorem fits_behind (h : e.HasLast) (p : Pulse ℚ π) :
    e.Fits (.behind e.last? p) ↔ ∀ q ∈ e.lastPulse?, q.length? ≠ none := by
  rcases h with h | ⟨q, hq⟩
  · simp [Fits, Order.behind, lastPulse?, h]
  · obtain ⟨x, hx, rfl⟩ := Option.map_eq_some_iff.1 hq
    obtain ⟨n, hn, hx⟩ := Option.bind_eq_some_iff.1 hx
    simp [Fits, Order.behind, lastPulse?, hn, hx]

theorem accepts_append_cons (e : Element ℚ π) (p : Pulse ℚ π) (ps : List (Pulse ℚ π)) :
    e.Accepts (.append (p :: ps)) ↔
      (∀ q ∈ e.lastPulse?, q.length? ≠ none) ∧ ∀ x ∈ (p :: ps).dropLast, x.length? ≠ none := by
  rw [Accepts]
  cases e.lastPulse? with
  | none => simp
  | some q => simp [List.dropLast_cons_of_ne_nil]

theorem exists_append (h : e.HasLast) (ps : List (Pulse ℚ π)) :
    (∃ e', e.call (.append ps) = .ok e') ↔ e.Accepts (.append ps) := by
  induction ps generalizing e with
  | nil =>
    refine iff_of_true ⟨e, rfl⟩ ?_
    cases hl : e.lastPulse? <;> simp [Accepts, hl]
  | cons p ps ih =>
    rw [call_append_cons, accepts_append_cons, ← fits_behind h p, ← exists_addOrder]
    -- behind the new pulse the others are appended
    have hrest {n : String} {e₁ : Element ℚ π} (hadd : e.addOrder (.behind e.last? p) = .ok (n, e₁)) :
        (∃ e', e₁.call (.append ps) = .ok e') ↔ ∀ x ∈ (p :: ps).dropLast, x.length? ≠ none := by
      have hl := lastPulse_of_addOrder hadd
      rw [ih (.inr ⟨p, hl⟩), Accepts, hl]
      rfl
    constructor
    · rintro ⟨e', he⟩
      obtain ⟨⟨n, e₁⟩, hadd, he⟩ := bind_eq_ok.1 he
      exact ⟨⟨_, hadd⟩, (hrest hadd).1 ⟨e', he⟩⟩
    · rintro ⟨⟨⟨n, e₁⟩, hadd⟩, hlen⟩
      obtain ⟨e', he⟩ := (hrest hadd).2 hlen
      exact ⟨e', bind_eq_ok.2 ⟨_, hadd, he⟩⟩

theorem exists_call (h : e.HasLast) (c : Call π) : (∃ e', e.call c = .ok e') ↔ e.Accepts c := by
  cases c with
  | add o =>
    rw [Accepts, ← exists_addOrder]
    simp only [call, map_eq_ok]
    constructor
    · rintro ⟨_, r, hr, -⟩
      exact ⟨r, hr⟩
    · rintro ⟨r, hr⟩
      exact ⟨r.2, r, hr, rfl⟩
  | append ps => exact exists_append h ps

theorem HasLast.carried {e' : Element ℚ π} {calls : List (Call π)} {as : List (Addition π)} (h : e.HasLast)
    (hrun : Carried e calls as e') : e'.HasLast := by
  induction hrun with
  | done => exact h
  | add _ step _ ih => exact ih (.inr ⟨_, lastPulse_of_addOrder step⟩)
  | appended _ ih => exact ih h
  | append _ step _ ih => exact ih (.inr ⟨_, lastPulse_of_addOrder step⟩)

end Element

/-- In a new element, every pulse that is added with a reference stands to it as asked, and the first readout at a
multiple of the fixed point, whatever the calls are. -/
theorem references_hold (e₀ : Element ℚ π) (hpulses : e₀.pulses = []) (hlast : e₀.last? = none)
    (haligned : e₀.isAligned = false) (calls : List (Call π)) (e : Element ℚ π) :
    (e₀.run calls = .ok e → ∀ c, (∃ e', e.call c = .ok e') ↔ e.Accepts c) ∧
    (e₀.run calls = .ok e ↔ ∃ as, Carried e₀ calls as e) ∧
    ∀ as, Carried e₀ calls as e → (as.map (·.name)).Nodup → Kept e₀.fixedPoint e as := by
  have hnone : Kept e₀.fixedPoint e₀ [] :=
    ⟨⟨by rw [hpulses]; rfl, by simp⟩, rfl, haligned, by simp⟩
  refine ⟨fun hrun c => ?_, Element.run_eq_ok, fun as has hnames => hnone.run has hnames⟩
  obtain ⟨as, has⟩ := Element.run_eq_ok.1 hrun
  exact Element.exists_call (Element.HasLast.carried (.inl hlast) has) c

/-! ## A readout in the middle of a pulse -/

def emptyElement : Element ℚ Unit where
  name := "element"
  granularity := 4
  minSamples := 0
  isAbsolute := false
  globalTime := true
  timeOffset := 0
  ignoreDelays := false
  fixedPoint := 1

/-- A pulse that starts and stops a bit inside of its length. -/
def insetPulse : Pulse ℚ Unit := ⟨"pulse", ["ch1"], some (21 / 1000000000), 2 / 1000000000, 1 / 1000000000, ()⟩

/-- The second pulse is the first readout, and moves the one before it. -/
def readoutCalls : List (Call Unit) :=
  [.add ⟨insetPulse, some "drive", 3 / 1000000000, none, .stop, .start, "MW"⟩,
   .add ⟨insetPulse, some "readout", 7 / 1000000000, some "drive", .center, .stop, "RO"⟩,
   .add ⟨insetPulse, some "second", 0, some "readout", .start, .center, "RO"⟩,
   .append [insetPulse]]

theorem references_hold_readout : ∃ as e a, Carried emptyElement readoutCalls as e ∧ (as.map (·.name)).Nodup ∧
    as.find? (·.isReadout) = some a ∧ IsWhole a.t0 ∧ IsWhole emptyElement.fixedPoint ∧
    Kept emptyElement.fixedPoint e as := by
  have h : ∃ as e a, Carried emptyElement readoutCalls as e ∧ (as.map (·.name)).Nodup ∧
      as.find? (·.isReadout) = some a ∧ IsWhole a.t0 := by
    unfold readoutCalls
    -- the additions and the element are found from the calls
    apply Exists.intro
    apply Exists.intro
    apply Exists.intro
    apply And.intro
    · apply Carried.add
      · rfl
      · rfl
      apply Carried.add
      · rfl
      · rfl
      apply Carried.add
      · rfl
      · rfl
      apply Carried.append
      · rfl
      · rfl
      exact .appended .done
    · exact ⟨by decide +kernel, rfl, -1, by norm_num [insetPulse, Scalar.ofInt]⟩
  obtain ⟨as, e, a, has, hnames, ha, ht⟩ := h
  have hkept := (references_hold emptyElement rfl rfl rfl readoutCalls e).2.2 as has hnames
  exact ⟨as, e, a, has, hnames, ha, ht, ⟨1000000000, by norm_num [emptyElement]⟩, hkept⟩

end QubitLab
