import Mathlib.Data.List.Infix
import Mathlib.Data.List.Nodup
import QubitLab.Element.Basic
import QubitLab.Proofs.KeyedLists

/-!
# Owners of outputs

Channels are defined, and their options are set one by one. A channel that is defined takes its output from the channel
that had it; a channel whose id or generator is set does not. So every output has one channel, by which it is found, as
long as channels are moved to free outputs only (`owned_iff_free`).
-/

namespace QubitLab

variable {τ : Type}

/-- The output that a channel is on. -/
def Channel.output (c : Channel τ) : String × String := (c.generator, c.id)

namespace Rack

variable {r : Rack τ} {name : String} {c : Channel τ}

/-- No two channels are on one output. -/
def Owned (r : Rack τ) : Prop := (r.channels.map (·.2.output)).Nodup

theorem owned_iff (hnames : (r.channels.map (·.1)).Nodup) :
    r.Owned ↔ ∀ x ∈ r.channels, ∀ y ∈ r.channels, x.2.output = y.2.output → x.1 = y.1 := by
  constructor
  · intro h x hx y hy hxy
    rw [List.inj_on_of_nodup_map h hx hy hxy]
  · intro h
    refine hnames.of_map.map_on ?_
    intro x hx y hy hxy
    exact List.inj_on_of_nodup_map hnames hx hy (h x hx y hy hxy)

/-- The channel that is found for an output is the only one there. -/
theorem Owned.onOutput?_eq_some_iff (h : r.Owned) {generator id : String} : r.onOutput? generator id = some name ↔
    ∃ c, (name, c) ∈ r.channels ∧ c.output = (generator, id) := by
  have hfind : r.onOutput? generator id =
      (r.channels.find? fun x => decide (x.2.output = (generator, id))).map (·.1) := by
    refine congrArg (fun p => (r.channels.find? p).map (·.1)) (funext fun x => ?_)
    simp [Channel.output, Bool.decide_and, beq_eq_decide]
  rw [hfind, Option.map_eq_some_iff]
  constructor
  · rintro ⟨x, hx, rfl⟩
    exact ⟨x.2, List.mem_of_find?_eq_some hx, by simpa using List.find?_some hx⟩
  · rintro ⟨c, hc, hout⟩
    cases hx : r.channels.find? fun x => decide (x.2.output = (generator, id)) with
    | none => exact absurd hout (by simpa using List.find?_eq_none.1 hx _ hc)
    | some x =>
      have hxout : x.2.output = (generator, id) := by simpa using List.find?_some hx
      rw [List.inj_on_of_nodup_map h (List.mem_of_find?_eq_some hx) hc (hxout.trans hout.symm)]
      exact ⟨_, rfl, rfl⟩

/-- A channel takes an output if and only if it is alone there. -/
theorem owned_put_iff (hnames : (r.channels.map (·.1)).Nodup) (h : r.Owned) (c : Channel τ) :
    Owned { r with channels := Assoc.put name c r.channels } ↔
      ∀ x ∈ r.channels, x.2.output = c.output → x.1 = name := by
  rw [owned_iff (Assoc.nodup_put hnames c)]
  simp only [Assoc.mem_put hnames]
  constructor
  · intro hput x hx hxc
    by_contra hne
    exact hne (hput x (.inr ⟨hx, hne⟩) (name, c) (.inl rfl) hxc)
  · rintro hfree x (rfl | ⟨hx, hxn⟩) y (rfl | ⟨hy, hyn⟩) hxy
    · rfl
    · exact (hfree y hy hxy.symm).symm
    · exact hfree x hx hxy
    · exact (owned_iff hnames).1 h x hx y hy hxy

/-- A call about a channel: to define it, to set one of its options, or to ask for one. -/
inductive Call (τ : Type)
  | define (name : String) (c : Channel τ)
  | set (name : String) (s : Setting τ)
  | ask (name : String)

/-- The rack after a call; a call for a channel that is not there fails and changes nothing. -/
def after (r : Rack τ) : Call τ → Rack τ
  | .define name c => r.define name c
  | .set name s => (r.set name s).toOption.getD r
  | .ask _ => r

/-- The call does not move a channel to the output of another. -/
def Free (r : Rack τ) : Call τ → Prop
  | .set name (.id i) => ∀ c, r.channels.lookup name = some c →
      ∀ x ∈ r.channels, x.2.output = (c.generator, i) → x.1 = name
  | .set name (.generator g) => ∀ c, r.channels.lookup name = some c →
      ∀ x ∈ r.channels, x.2.output = (g, c.id) → x.1 = name
  | _ => True

theorem after_set_of_none {s : Setting τ} (h : r.channels.lookup name = none) : r.after (.set name s) = r := by
  simp [after, set, channel, h, orFail, fail, bind, Except.bind, Except.toOption]

theorem after_set_of_some {s : Setting τ} (h : r.channels.lookup name = some c) :
    r.after (.set name s) = { r with channels := Assoc.put name (c.set s) r.channels } := by
  simp [after, set, channel, h, orFail, bind, Except.bind, Except.toOption, pure, Except.pure]

theorem nodup_after (h : (r.channels.map (·.1)).Nodup) (call : Call τ) : ((r.after call).channels.map (·.1)).Nodup := by
  cases call with
  | define name c => exact Assoc.nodup_put (h.sublist (List.filter_sublist.map _)) c
  | set name s =>
    cases hc : r.channels.lookup name with
    | none => rwa [after_set_of_none hc]
    | some c =>
      rw [after_set_of_some hc]
      exact Assoc.nodup_put h _
  | ask name => exact h

theorem owned_define (hnames : (r.channels.map (·.1)).Nodup) (h : r.Owned) (name : String) (c : Channel τ) :
    (r.define name c).Owned := by
  let kept : Rack τ := { r with channels := r.channels.filter fun x => !(x.2.id == c.id && x.2.generator == c.generator) }
  have hkept : kept.channels.Sublist r.channels := List.filter_sublist
  refine (owned_put_iff (r := kept) (hnames.sublist (hkept.map _)) (h.sublist (hkept.map _)) c).2 ?_
  intro x hx hxc
  have hout := (List.mem_filter.1 hx).2
  rw [Channel.output, Channel.output, Prod.mk.injEq] at hxc
  simp [hxc] at hout

/-- Where every output has one channel, a call keeps it so if and only if it moves no channel to the output of
another. -/
theorem owned_after_iff (hnames : (r.channels.map (·.1)).Nodup) (h : r.Owned) (call : Call τ) :
    (r.after call).Owned ↔ r.Free call := by
  cases call with
  | define name c => exact iff_of_true (owned_define hnames h name c) trivial
  | ask name => exact iff_of_true h trivial
  | set name s =>
    cases hc : r.channels.lookup name with
    | none =>
      rw [after_set_of_none hc]
      refine iff_of_true h ?_
      cases s <;> simp [Free, hc]
    | some c =>
      rw [after_set_of_some hc, owned_put_iff hnames h]
      cases s with
      | id i => simp [Free, hc, Channel.set, Channel.output]
      | generator g => simp [Free, hc, Channel.set, Channel.output]
      | _ =>
        -- The other options leave the channel where it is, and there it was alone.
        refine iff_of_true ?_ trivial
        intro x hx hxc
        exact (owned_iff hnames).1 h x hx (name, c) (mem_of_lookup hc) hxc

/-- The rack after calls, one after the other, from no channels on. -/
def run (clocks : List (String × τ)) (calls : List (Call τ)) : Rack τ := calls.foldl after ⟨[], clocks⟩

theorem run_concat (clocks : List (String × τ)) (calls : List (Call τ)) (call : Call τ) :
    run clocks (calls ++ [call]) = (run clocks calls).after call := List.foldl_concat ..

theorem nodup_run (clocks : List (String × τ)) (calls : List (Call τ)) : ((run clocks calls).channels.map (·.1)).Nodup := by
  induction calls using List.reverseRecOn with
  | nil => exact .nil
  | append_singleton calls call ih =>
    rw [run_concat]
    exact nodup_after ih call

/-- **Every output has one channel**, and this is the one that is found for it, after each of a row of calls, if and only
if none of them sets the id or the generator of a channel to the output of another. -/
theorem owned_iff_free (clocks : List (String × τ)) (calls : List (Call τ)) :
    ((∀ before, before <+: calls → (run clocks before).Owned) ↔
      ∀ before call, before ++ [call] <+: calls → (run clocks before).Free call) ∧
    ((run clocks calls).Owned → ∀ generator id name, (run clocks calls).onOutput? generator id = some name ↔
      ∃ c, (name, c) ∈ (run clocks calls).channels ∧ c.output = (generator, id)) := by
  refine ⟨⟨?_, ?_⟩, fun h _ _ _ => h.onOutput?_eq_some_iff⟩
  · intro howned before call hcall
    rw [← owned_after_iff (nodup_run clocks before) (howned before ((List.prefix_append ..).trans hcall)), ← run_concat]
    exact howned _ hcall
  · intro hfree before hbefore
    induction before using List.reverseRecOn with
    | nil => exact .nil
    | append_singleton before call ih =>
      rw [run_concat, owned_after_iff (nodup_run clocks before) (ih ((List.prefix_append ..).trans hbefore))]
      exact hfree before call hbefore

/-- Two channels of one output: the second was moved there, and the first is found. -/
theorem moved_channel_shadowed :
    let on (id : String) : Channel ℤ := ⟨id, .analog, 0, 0, 1, -1, true, "AWG"⟩
    let r := run [] [.define "a" (on "ch1"), .define "b" (on "ch2"), .set "b" (.id "ch1")]
    ¬ r.Owned ∧ r.channels.map (fun x => (x.1, x.2.output)) = [("a", "AWG", "ch1"), ("b", "AWG", "ch1")] ∧
      r.onOutput? "AWG" "ch1" = some "a" := by
  unfold Owned
  decide +kernel

end Rack

end QubitLab
