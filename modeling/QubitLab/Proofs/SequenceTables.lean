import QubitLab.Generator.Program
import QubitLab.Proofs.KeyedLists
import QubitLab.Proofs.Outcome

/-!
# What the tables of a generator play

A program has for each group of outputs a table of waves, and for each step of its sequence the codes of that step. The
codes follow the steps. The tables follow the elements: position `n` has the wave of the `n`th element that has waves on
the generator, whatever element the `n`th step names. `program_tables` says both, and that the tables follow the steps
exactly if the elements are given in the order in which the steps name them.
-/

namespace QubitLab.Generator

variable {τ σ : Type} [Scalar τ] [Scalar σ] {level : τ → σ} {limits : Limits τ} {choice : Choice} {rack : Rack τ}
  {generator : String} {s : Sequence} {elements : List (String × Waveforms σ)} {p : Program τ}

/-- The name of the wave at a position in the table of a group. -/
def Program.nameAt? (p : Program τ) (row position : Nat) : Option String := p.names[row]?.bind (·[position]?)

/-- The wave at a position in the table of a group. -/
def Program.waveAt? (p : Program τ) (row position : Nat) : Option (List Int) :=
  (p.nameAt? row position).bind fun name => p.waves.lookup name

/-! ## Names of waves -/

theorem waveName_inj {a b g g' : String} (hg : g.length = g'.length) (h : waveName a g = waveName b g') :
    a = b ∧ g = g' := by
  have h' : (a.toList ++ ['_']) ++ g.toList = (b.toList ++ ['_']) ++ g'.toList := by
    simpa [waveName] using congrArg String.toList h
  obtain ⟨hab, hgg⟩ := List.append_inj' h' (by rwa [String.length_toList, String.length_toList])
  exact ⟨String.toList_inj.1 (List.append_cancel_right hab), String.toList_inj.1 hgg⟩

theorem length_group {g : String} (h : g ∈ ["ch1", "ch2", "ch3", "ch4"]) : g.length = 3 := by
  simp only [List.mem_cons, List.not_mem_nil, or_false] at h
  rcases h with rfl | rfl | rfl | rfl <;> rfl

omit [Scalar σ] in
theorem groupsOf_ne_nil {parts : List (String × Waveforms σ)} {x : String × Waveforms σ} (hx : x ∈ parts)
    (hw : x.2 ≠ []) : groupsOf parts ≠ [] := by
  obtain ⟨w, hw⟩ := List.exists_mem_of_ne_nil _ hw
  refine List.ne_nil_of_mem (a := groupOf w.1) ?_
  rw [groupsOf, List.mem_mergeSort, List.mem_eraseDups]
  exact List.mem_flatMap.2 ⟨x, hx, List.mem_map_of_mem hw⟩

/-! ## Packed elements -/

/-- The waves of an element: one for each group, under its name. -/
theorem mem_packElement {groups : List String} {name : String} {waves : Waveforms σ}
    {packed : List (String × List Int) × Bool} (h : packElement level rack generator groups name waves = .ok packed) :
    (∀ g ∈ groups, ∃ words off, packGroup level rack generator waves g = .ok (words, off) ∧
      (waveName name g, words) ∈ packed.1) ∧
    ∀ w ∈ packed.1, ∃ g ∈ groups, ∃ off, w.1 = waveName name g ∧
      packGroup level rack generator waves g = .ok (w.2, off) := by
  obtain ⟨ys, hys, h⟩ := bind_eq_ok.1 h
  cases h
  constructor
  · intro g hg
    obtain ⟨y, hy, h⟩ := mapM_ok_mem hys hg
    obtain ⟨z, hz, h⟩ := bind_eq_ok.1 h
    cases h
    exact ⟨z.1, z.2, hz, List.mem_map_of_mem hy⟩
  · intro w hw
    obtain ⟨y, hy, rfl⟩ := List.mem_map.1 hw
    obtain ⟨g, hg, h⟩ := mapM_ok_of_mem hys hy
    obtain ⟨z, hz, h⟩ := bind_eq_ok.1 h
    cases h
    exact ⟨g, hg, z.2, rfl, hz⟩

/-! ## Codes of steps -/

theorem stepCodes_eq_ok {startsOff : List String} {allowOff : Bool} {step : Step} {codes : Int × Int × Int}
    (h : stepCodes s generator startsOff allowOff step = .ok codes) :
    target s step.goto = .ok codes.1 ∧ target s step.jump = .ok codes.2.1 ∧
      codes.2.2 = if step.wait.truth then 1 else 0 := by
  obtain ⟨-, -, h⟩ := bind_eq_ok.1 h
  obtain ⟨goto, hgoto, h⟩ := bind_eq_ok.1 h
  obtain ⟨jump, hjump, h⟩ := bind_eq_ok.1 h
  by_cases hoff : step.wait.truth && !allowOff && startsOff.any fun n => step.waveform.same (.text n)
  · rw [if_pos hoff] at h
    cases h
  · rw [if_neg hoff] at h
    cases h
    exact ⟨hgoto, hjump, rfl⟩

theorem getElem?_closeLoop (l : List Int) (n : Nat) :
    (closeLoop l)[n]? = if n + 1 = l.length then some 1 else l[n]? := by
  fun_induction closeLoop l generalizing n with
  | case1 => simp
  | case2 x => cases n <;> simp
  | case3 x y r ih =>
    cases n with
    | zero => simp
    | succ n => simp [ih]

/-! ## Programs -/

/-- How a program comes from packed elements and the codes of the steps. -/
structure Assembled (level : τ → σ) (choice : Choice) (rack : Rack τ) (generator : String) (s : Sequence)
    (parts : List (String × Waveforms σ)) (packed : List (String × List (String × List Int) × Bool))
    (codes : List (Int × Int × Int)) (p : Program τ) : Prop where
  parts_ne_nil : parts ≠ []
  groups_mem : ∀ g ∈ groupsOf parts, g ∈ ["ch1", "ch2", "ch3", "ch4"]
  packed_parts : List.Forall₂ (fun x y => y.1 = x.1 ∧
    packElement level rack generator (groupsOf parts) x.1 x.2 = .ok y.2) parts packed
  codes_steps : List.Forall₂ (fun step c => target s step.goto = .ok c.1 ∧ target s step.jump = .ok c.2.1 ∧
    c.2.2 = if step.wait.truth then 1 else 0) s.steps codes
  names : p.names = (groupsOf parts).map fun g => parts.map fun x => waveName x.1 g
  repetitions : p.repetitions = s.steps.map (·.repetitions)
  waits : p.waits = codes.map (·.2.2)
  gotos : p.gotos = if choice.loop then closeLoop (codes.map (·.1)) else codes.map (·.1)
  jumps : p.jumps = codes.map (·.2.1)
  waves : p.waves = Assoc.ofPairs (packed.flatMap (·.2.1))

theorem program_assembled (h : program level limits choice rack generator s elements = .ok (some p)) :
    ∃ packed codes, Assembled level choice rack generator s (playedParts choice rack generator elements) packed codes
      p := by
  obtain ⟨-, -, h⟩ := bind_eq_ok.1 h
  dsimp only at h
  split at h
  · cases h
  next hparts =>
  obtain ⟨packed, hpacked, h⟩ := bind_eq_ok.1 h
  split at h
  · cases h
  obtain ⟨codes, hcodes, h⟩ := bind_eq_ok.1 h
  obtain ⟨settings, -, h⟩ := bind_eq_ok.1 h
  split at h
  · cases h
  next hgroups =>
  cases h
  refine ⟨packed, codes, ?_, ?_, ?_, ?_, rfl, rfl, rfl, rfl, rfl, rfl⟩
  · simpa using hparts
  · intro g hg
    by_contra hnot
    exact hgroups (List.any_eq_true.2 ⟨g, hg, by simpa using hnot⟩)
  · refine (mapM_eq_ok.1 hpacked).imp fun x y hxy => ?_
    obtain ⟨z, hz, hy⟩ := bind_eq_ok.1 hxy
    cases hy
    exact ⟨rfl, hz⟩
  · exact (mapM_eq_ok.1 hcodes).imp fun _ _ => stepCodes_eq_ok

namespace Assembled

variable {parts : List (String × Waveforms σ)} {packed : List (String × List (String × List Int) × Bool)}
  {codes : List (Int × Int × Int)} {row n : Nat} {g : String} {x : String × Waveforms σ}

theorem nameAt?_eq (h : Assembled level choice rack generator s parts packed codes p)
    (hg : (groupsOf parts)[row]? = some g) (n : Nat) : p.nameAt? row n = parts[n]?.map fun x => waveName x.1 g := by
  simp [Program.nameAt?, h.names, hg]

/-- An entry of the waves belongs to an element and a group. -/
theorem of_mem_waves (h : Assembled level choice rack generator s parts packed codes p) {w : String × List Int}
    (hw : w ∈ packed.flatMap (·.2.1)) : ∃ x ∈ parts, ∃ g ∈ groupsOf parts, ∃ off, w.1 = waveName x.1 g ∧
      packGroup level rack generator x.2 g = .ok (w.2, off) := by
  obtain ⟨y, hy, hw⟩ := List.mem_flatMap.1 hw
  obtain ⟨n, hn⟩ := List.mem_iff_getElem?.1 hy
  obtain ⟨x, hx, -, hpack⟩ := getElem?_of_forall₂ h.packed_parts.flip hn
  obtain ⟨g, hg, off, hname, hwords⟩ := (mem_packElement hpack).2 w hw
  exact ⟨x, List.mem_of_getElem? hx, g, hg, off, hname, hwords⟩

theorem mem_waves (h : Assembled level choice rack generator s parts packed codes p) (hx : parts[n]? = some x)
    (hg : g ∈ groupsOf parts) : ∃ words off, packGroup level rack generator x.2 g = .ok (words, off) ∧
      (waveName x.1 g, words) ∈ packed.flatMap (·.2.1) := by
  obtain ⟨y, hy, -, hpack⟩ := getElem?_of_forall₂ h.packed_parts hx
  obtain ⟨words, off, hwords, hmem⟩ := (mem_packElement hpack).1 g hg
  exact ⟨words, off, hwords, List.mem_flatMap.2 ⟨y, List.mem_of_getElem? hy, hmem⟩⟩

/-- A position has the wave of the element that stands there, unless another element has its name. -/
theorem waveAt?_eq (h : Assembled level choice rack generator s parts packed codes p)
    (hg : (groupsOf parts)[row]? = some g) (hx : parts[n]? = some x) (hunique : ∀ y ∈ parts, y.1 = x.1 → y = x) :
    ∃ words off, packGroup level rack generator x.2 g = .ok (words, off) ∧ p.waveAt? row n = some words := by
  have hgs := List.mem_of_getElem? hg
  obtain ⟨words, off, hwords, hmem⟩ := h.mem_waves hx hgs
  refine ⟨words, off, hwords, ?_⟩
  rw [Program.waveAt?, h.nameAt?_eq hg, hx, Option.map_some, Option.bind_some, h.waves]
  refine Assoc.lookup_putAll (fun w hw hname => ?_) (.inl hmem)
  -- Another entry of this name comes from an element of the same name, which is this one.
  obtain ⟨y, hy, g', hg', off', hname', hwords'⟩ := h.of_mem_waves hw
  have hlen : g'.length = g.length := by rw [length_group (h.groups_mem g' hg'), length_group (h.groups_mem g hgs)]
  obtain ⟨hyx, rfl⟩ := waveName_inj hlen (hname'.symm.trans hname)
  obtain rfl := hunique y hy hyx
  rw [hwords] at hwords'
  cases hwords'
  rfl

/-- The codes at a position are those of the step that stands there. -/
theorem codesAt (h : Assembled level choice rack generator s parts packed codes p) {step : Step}
    (hstep : s.steps[n]? = some step) :
    p.repetitions[n]? = some step.repetitions ∧ p.waits[n]? = some (if step.wait.truth then 1 else 0) ∧
    (∃ goto, target s step.goto = .ok goto ∧
      p.gotos[n]? = some (if choice.loop ∧ n + 1 = s.steps.length then 1 else goto)) ∧
    ∃ jump, target s step.jump = .ok jump ∧ p.jumps[n]? = some jump := by
  obtain ⟨c, hc, hgoto, hjump, hwait⟩ := getElem?_of_forall₂ h.codes_steps hstep
  refine ⟨by simp [h.repetitions, hstep], by simp [h.waits, hc, hwait], ⟨c.1, hgoto, ?_⟩, c.2.1, hjump,
    by simp [h.jumps, hc]⟩
  rw [h.gotos]
  by_cases hloop : choice.loop
  · rw [if_pos hloop, getElem?_closeLoop, List.length_map, ← h.codes_steps.length_eq, List.getElem?_map, hc]
    by_cases hlast : n + 1 = s.steps.length
    · rw [if_pos hlast, if_pos ⟨hloop, hlast⟩]
    · rw [if_neg hlast, if_neg fun hl => hlast hl.2]
      rfl
  · rw [if_neg hloop, if_neg fun hl => hloop hl.1, List.getElem?_map, hc]
    rfl

end Assembled

/-- Every position of every table names the wave of the element that the step at this position plays. -/
def Program.FollowsSteps (p : Program τ) (groups : List String) (s : Sequence) : Prop :=
  ∀ (row n : Nat) (g : String) (step : Step), groups[row]? = some g → s.steps[n]? = some step →
    ∃ name, step.waveform = .text name ∧ p.nameAt? row n = some (waveName name g)

theorem Assembled.followsSteps_iff {parts : List (String × Waveforms σ)}
    {packed : List (String × List (String × List Int) × Bool)} {codes : List (Int × Int × Int)}
    (h : Assembled level choice rack generator s parts packed codes p) (hparts : ∀ x ∈ parts, x.2 ≠ []) :
    p.FollowsSteps (groupsOf parts) s ↔
      ∀ (n : Nat) (step : Step), s.steps[n]? = some step → ∃ x, parts[n]? = some x ∧ step.waveform = .text x.1 := by
  constructor
  · intro hp n step hstep
    obtain ⟨x, hx⟩ := List.exists_mem_of_ne_nil _ h.parts_ne_nil
    have hpos := List.length_pos_iff.2 (groupsOf_ne_nil hx (hparts x hx))
    have hg : (groupsOf parts)[0]? = some (groupsOf parts)[0] := List.getElem?_eq_getElem hpos
    obtain ⟨name, hname, hat⟩ := hp 0 n _ step hg hstep
    rw [h.nameAt?_eq hg] at hat
    obtain ⟨y, hy, heq⟩ := Option.map_eq_some_iff.1 hat
    exact ⟨y, hy, by rw [hname, (waveName_inj rfl heq).1]⟩
  · intro hs row n g step hg hstep
    obtain ⟨x, hx, hname⟩ := hs n step hstep
    exact ⟨x.1, hname, by rw [h.nameAt?_eq hg, hx]; rfl⟩

/-- The codes of a program follow the steps of the sequence; its tables follow the elements that have waves on the
generator, in the order in which they are given. -/
theorem program_tables (h : program level limits choice rack generator s elements = .ok (some p)) :
    let parts := playedParts choice rack generator elements
    (∀ (n : Nat) (step : Step), s.steps[n]? = some step →
      p.repetitions[n]? = some step.repetitions ∧ p.waits[n]? = some (if step.wait.truth then 1 else 0) ∧
      (∃ goto, target s step.goto = .ok goto ∧
        p.gotos[n]? = some (if choice.loop ∧ n + 1 = s.steps.length then 1 else goto)) ∧
      ∃ jump, target s step.jump = .ok jump ∧ p.jumps[n]? = some jump) ∧
    (∀ (row n : Nat) (g : String) (x : String × Waveforms σ), (groupsOf parts)[row]? = some g → parts[n]? = some x →
      (∀ y ∈ parts, y.1 = x.1 → y = x) →
      ∃ words off, packGroup level rack generator x.2 g = .ok (words, off) ∧ p.waveAt? row n = some words) ∧
    (p.FollowsSteps (groupsOf parts) s ↔
      ∀ (n : Nat) (step : Step), s.steps[n]? = some step → ∃ x, parts[n]? = some x ∧ step.waveform = .text x.1) := by
  obtain ⟨packed, codes, hp⟩ := program_assembled h
  refine ⟨fun n step hstep => hp.codesAt hstep, fun row n g x hg hx hunique => hp.waveAt?_eq hg hx hunique,
    hp.followsSteps_iff fun x hx => ?_⟩
  have hplayed := (List.mem_filter.1 hx).2
  simpa using hplayed

/-! ## A marker with two elements -/

/-- The program of two elements `a` and `b` on one marker, for steps that play these elements. -/
def markerProgram (played : List String) : Attempt (Option (Program Number)) :=
  program id ⟨(.int 0, .int 5), (.int (-2), .int 2), (.int (-3), .int 3)⟩ {}
    ⟨[("m", ⟨"ch1_marker1", .marker, .int 0, .int 0, .int 1, .int 0, true, "AWG"⟩)], []⟩ "AWG"
    ⟨"pair", played.map fun n => ⟨.text ("play " ++ n), .text n, .int 1, .null, .null, .bool false⟩, none⟩
    [("a", [("m", #[.int 0, .int 1])]), ("b", [("m", #[.int 1])])]

theorem program_tables_inOrder : ∃ p, markerProgram ["a", "b"] = .ok (some p) ∧
    (∃ words off, packGroup (id : Number → Number)
      ⟨[("m", ⟨"ch1_marker1", .marker, .int 0, .int 0, .int 1, .int 0, true, "AWG"⟩)], []⟩ "AWG"
      [("ch1_marker1", #[.int 1])] "ch1" = .ok (words, off) ∧ p.waveAt? 0 1 = some words) ∧
    p.gotos[1]? = some 1 := by
  have hp : ((markerProgram ["a", "b"]).toOption.bind id).isSome := by decide +kernel
  obtain ⟨p, hp⟩ := Option.isSome_iff_exists.1 hp
  obtain ⟨p?, hp?, rfl⟩ := Option.bind_eq_some_iff.1 hp
  have h := toOption_eq_some.1 hp?
  obtain ⟨hcodes, hwaves, -⟩ := program_tables h
  obtain ⟨-, -, ⟨goto, -, hgoto⟩, -⟩ := hcodes 1 _ rfl
  exact ⟨p, h, hwaves 0 1 "ch1" _ (by decide +kernel) rfl (by simp [playedParts, outputWaves]), hgoto⟩

/-- Steps that play `b` and then `a` get the tables of steps that play `a` and then `b`. -/
theorem program_tables_reversed :
    (markerProgram ["b", "a"]).toOption.map (Option.map fun p => (p.names, p.waveAt? 0 0, p.waveAt? 0 1)) =
      some (some ([["a_ch1", "b_ch1"]], some [8191, 24575], some [24575])) := by decide +kernel

end QubitLab.Generator
