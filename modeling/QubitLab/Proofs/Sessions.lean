import QubitLab.Proofs.PulseTiming

/-!
# One compiler, several programs

A compiler remembers the qubit map and whether it came from a configuration. `unseen_after_iff` says what that does
to the programs that follow: a configuration with a qubit map makes a compiler forget, so every program compiles as in a
new one; with any other configuration all programs do exactly when nothing is mapped yet and, if the empty map came
from a configuration, no program can map qubits. `compileWith_staleMap` is a program that compiles to other pulses
than in a new compiler.
-/

namespace QubitLab.Qasm

/-! ## Runs of a compiler -/

/-- A program that a compiler is given. -/
structure Job where
  config : Value
  loop : Bool
  text : String

/-- What a compiler remembers after some programs, also those that do not compile. -/
def Session.after (jobs : List Job) : Session := jobs.foldl (fun s j => (s.compile j.config j.loop j.text).1) {}

/-- What a compilation leaves to be seen: the assembly, the declared qubits, their map and the two grids. -/
def Compilation.shown (c : Compilation) :
    List String × List String × List (String × Step Int) × Grid Gate × Grid HwEvent :=
  (c.assembly, c.names.declared, c.names.map, c.grid, c.final)

/-- Programs can map qubits: no gate has taken the name. -/
def Config.HasMaps (cfg : Config) : Prop := ∃ op, cfg.operations.lookup "map" = some op ∧ op.kind = .map

/-- The session does not show in any program with a configuration. -/
def Session.Unseen (s : Session) (config : Value) : Prop :=
  ∀ loop text, (s.compile config loop text).2.map Compilation.shown = (Qasm.compile config loop text).map Compilation.shown

/-! ## Keyed lists -/

variable {α : Type} {v config : Value} {cfg : Config} {s : Session}

theorem mem_put {k : String} {v : α} {l : List (String × α)} {x : String × α} (h : x ∈ Assoc.put k v l) :
    x = (k, v) ∨ x ∈ l := by
  induction l with
  | nil => exact .inl (List.mem_singleton.1 h)
  | cons y l ih =>
    rw [Assoc.put] at h
    split at h
    · rcases List.mem_cons.1 h with rfl | h
      · exact .inl rfl
      · exact .inr (List.mem_cons_of_mem y h)
    · rcases List.mem_cons.1 h with rfl | h
      · exact .inr List.mem_cons_self
      · exact (ih h).imp_right (List.mem_cons_of_mem y)

theorem mem_putAll {ps l : List (String × α)} {x : String × α} (h : x ∈ Assoc.putAll ps l) : x ∈ ps ∨ x ∈ l := by
  induction ps generalizing l with
  | nil => exact .inr h
  | cons p ps ih =>
    rcases ih h with h | h
    · exact .inl (List.mem_cons_of_mem p h)
    · rcases mem_put h with rfl | h
      · exact .inl List.mem_cons_self
      · exact .inr h

theorem mem_ofPairs {ps : List (String × α)} {x : String × α} (h : x ∈ Assoc.ofPairs ps) : x ∈ ps :=
  (mem_putAll h).resolve_right List.not_mem_nil

/-! ## What is read of a configuration -/

theorem asRecord_eq_ok {fs : Fields} : asRecord v = .ok fs ↔ v = .record fs := by
  cases v <;> simp [asRecord]

theorem needed_eq_ok {fs : Fields} {k : String} : needed fs k = .ok v ↔ Fields.get? fs k = some v := orError_eq_ok

theorem asList_eq_ok {xs : List Value} : asList v = .ok xs ↔ v = .list xs := by
  cases v <;> simp [asList]

theorem kindOf?_eq_some {kind : EventKind} : kindOf? v = some kind ↔ kind.isGate = true ∧ v = .text kind.name := by
  constructor
  · fun_cases kindOf? v
    case case4 => rintro ⟨⟩
    all_goals
      rintro ⟨⟩
      exact ⟨rfl, rfl⟩
  · rintro ⟨hgate, rfl⟩
    cases kind <;> first | rfl | cases hgate

/-- The fields of an operation, its duration as they give it, and the operation that is read of them. -/
structure OperationRead (cycle : Float) (fo : Fields) (d : Value) (op : Operation) : Prop where
  gate : op.kind.isGate = true
  type : Fields.get? fo "type" = some (.text op.kind.name)
  given : Fields.get? fo "duration" = some d
  duration : clocks cycle d = .ok op.duration
  arity : op.arity = arityOf fo
  listing : op.listing = Fields.put "duration" (.int op.duration) fo

theorem operationOf_eq_ok {cycle : Float} {name : String} {op : Operation} :
    operationOf cycle name v = .ok op ↔ ∃ fo d, v = .record fo ∧ OperationRead cycle fo d op := by
  constructor
  · intro h
    obtain ⟨fo, hfo, h⟩ := bind_eq_ok.1 h
    obtain ⟨type, htype, h⟩ := bind_eq_ok.1 h
    dsimp only at h
    split at h
    · cases h
    · cases h
    · obtain ⟨-, -, h⟩ := bind_eq_ok.1 h
      obtain ⟨kind, hkind, h⟩ := bind_eq_ok.1 h
      obtain ⟨d, hd, h⟩ := bind_eq_ok.1 h
      obtain ⟨n, hn, h⟩ := bind_eq_ok.1 h
      cases h
      obtain ⟨hgate, rfl⟩ := kindOf?_eq_some.1 (orError_eq_ok.1 hkind)
      exact ⟨fo, d, asRecord_eq_ok.1 hfo, hgate, needed_eq_ok.1 htype, needed_eq_ok.1 hd, hn, rfl, rfl⟩
  · rintro ⟨fo, d, rfl, h⟩
    have hkind := kindOf?_eq_some.2 ⟨h.gate, rfl⟩
    refine bind_eq_ok.2 ⟨fo, rfl, bind_eq_ok.2 ⟨_, needed_eq_ok.2 h.type, bind_eq_ok.2 ⟨(), rfl, ?_⟩⟩⟩
    refine bind_eq_ok.2 ⟨_, orError_eq_ok.2 hkind, bind_eq_ok.2 ⟨d, needed_eq_ok.2 h.given, ?_⟩⟩
    refine bind_eq_ok.2 ⟨_, h.duration, ?_⟩
    rw [← h.arity, ← h.listing]
    rfl

theorem operationOf_kind {cycle : Float} {name : String} {op : Operation}
    (h : operationOf cycle name v = .ok op) : op.kind ≠ .map := by
  obtain ⟨fo, d, -, hread⟩ := operationOf_eq_ok.1 h
  intro hmap
  have hgate := hread.gate
  rw [hmap] at hgate
  cases hgate

/-- What is read of a configuration that loads: its fields, those of its hardware, the channels of its qubits, the
dictionary of its operations and these operations. -/
structure Loads (config : Value) (cfg : Config) (fs hw : Fields) (cs : List Value) (dict : Fields)
    (ops : List (String × Operation)) : Prop where
  valid : validate config = .ok ()
  fields : config = .record fs
  hardware : Fields.get? fs "hardware specification" = some (.record hw)
  cycle : ∃ v x, Fields.get? hw "cycle time" = some v ∧ numeral v = .ok x ∧ cfg.cycle = x.getD 0
  init : ∃ v, Fields.get? hw "init time" = some v ∧ clocks cfg.cycle v = .ok cfg.initClocks
  measure : ∃ n, clocks cfg.cycle (.int 300) = .ok n
  physical : ∃ v, Fields.get? hw "qubit list" = some v ∧ physicalOf v = .ok cfg.physical
  channels : Fields.get? hw "qubit_cfgs" = some (.list cs)
  qubits : cs.mapM (qubitChannelsOf cfg.cycle) = .ok cfg.qubits
  dictionary : Fields.get? fs "operation dictionary" = some (.record dict)
  read : userOperationsOf cfg.cycle dict = .ok ops
  operations : cfg.operations = allOperations cfg.initClocks ops
  tables : cfg.tables = codewordTablesOf (Fields.get? fs "luts")
  qubitMap : qubitMapOf (Fields.get? fs "qubit_map") = .ok cfg.qubitMap

theorem load_eq_ok :
    Config.load config = .ok cfg ↔ ∃ fs hw channels dict user, Loads config cfg fs hw channels dict user := by
  constructor
  · intro h
    rw [Config.load] at h
    obtain ⟨_, hvalid, h⟩ := bind_eq_ok.1 h
    obtain ⟨fs, hfs, h⟩ := bind_eq_ok.1 h
    obtain ⟨hwv, hhwv, h⟩ := bind_eq_ok.1 h
    obtain ⟨hw, hhw, h⟩ := bind_eq_ok.1 h
    obtain ⟨cyclev, hcyclev, h⟩ := bind_eq_ok.1 h
    obtain ⟨cycle, hcycle, h⟩ := bind_eq_ok.1 h
    obtain ⟨initv, hinitv, h⟩ := bind_eq_ok.1 h
    obtain ⟨initClocks, hinit, h⟩ := bind_eq_ok.1 h
    obtain ⟨n, hn, h⟩ := bind_eq_ok.1 h
    obtain ⟨listv, hlistv, h⟩ := bind_eq_ok.1 h
    obtain ⟨physical, hphysical, h⟩ := bind_eq_ok.1 h
    obtain ⟨cfgsv, hcfgsv, h⟩ := bind_eq_ok.1 h
    obtain ⟨cfgs, hcfgs, h⟩ := bind_eq_ok.1 h
    obtain ⟨qubits, hqubits, h⟩ := bind_eq_ok.1 h
    obtain ⟨dictv, hdictv, h⟩ := bind_eq_ok.1 h
    obtain ⟨dict, hdict, h⟩ := bind_eq_ok.1 h
    obtain ⟨user, huser, h⟩ := bind_eq_ok.1 h
    obtain ⟨m, hm, h⟩ := bind_eq_ok.1 h
    cases h
    obtain rfl := asRecord_eq_ok.1 hhw
    obtain rfl := asRecord_eq_ok.1 hdict
    obtain rfl := asList_eq_ok.1 hcfgs
    exact ⟨fs, hw, cfgs, dict, user, hvalid, asRecord_eq_ok.1 hfs, needed_eq_ok.1 hhwv,
      ⟨cyclev, cycle, needed_eq_ok.1 hcyclev, hcycle, rfl⟩, ⟨initv, needed_eq_ok.1 hinitv, hinit⟩, ⟨n, hn⟩,
      ⟨listv, needed_eq_ok.1 hlistv, hphysical⟩, needed_eq_ok.1 hcfgsv, hqubits, needed_eq_ok.1 hdictv, huser, rfl, rfl, hm⟩
  · rintro ⟨fs, hw, channels, dict, user, h⟩
    obtain ⟨cyclev, x, hcyclev, hx, hcycle⟩ := h.cycle
    obtain ⟨initv, hinitv, hinit⟩ := h.init
    obtain ⟨n, hn⟩ := h.measure
    obtain ⟨listv, hlistv, hphysical⟩ := h.physical
    have hqubits := h.qubits
    have huser := h.read
    rw [hcycle] at hinit hn hqubits huser
    rw [Config.load]
    refine bind_eq_ok.2 ⟨(), h.valid, bind_eq_ok.2 ⟨fs, asRecord_eq_ok.2 h.fields, ?_⟩⟩
    refine bind_eq_ok.2 ⟨_, needed_eq_ok.2 h.hardware, bind_eq_ok.2 ⟨hw, rfl, ?_⟩⟩
    refine bind_eq_ok.2 ⟨cyclev, needed_eq_ok.2 hcyclev, bind_eq_ok.2 ⟨x, hx, ?_⟩⟩
    refine bind_eq_ok.2 ⟨initv, needed_eq_ok.2 hinitv, bind_eq_ok.2 ⟨_, hinit, bind_eq_ok.2 ⟨n, hn, ?_⟩⟩⟩
    refine bind_eq_ok.2 ⟨listv, needed_eq_ok.2 hlistv, bind_eq_ok.2 ⟨_, hphysical, ?_⟩⟩
    refine bind_eq_ok.2 ⟨_, needed_eq_ok.2 h.channels, bind_eq_ok.2 ⟨channels, rfl, bind_eq_ok.2 ⟨_, hqubits, ?_⟩⟩⟩
    refine bind_eq_ok.2 ⟨_, needed_eq_ok.2 h.dictionary, bind_eq_ok.2 ⟨dict, rfl, bind_eq_ok.2 ⟨user, huser, ?_⟩⟩⟩
    refine bind_eq_ok.2 ⟨_, h.qubitMap, ?_⟩
    rw [← hcycle, ← h.operations, ← h.tables]
    rfl

theorem load_maps (h : Config.load config = .ok cfg) :
    ∀ x ∈ cfg.operations, x.2.kind = .map → x.1 = "map" ∧ x.2.arity = .ok ⟨"2", some 2⟩ := by
  obtain ⟨fs, hw, channels, dict, user, h⟩ := load_eq_ok.1 h
  have huser := h.read
  intro x hx hk
  rw [h.operations] at hx
  obtain ⟨⟨k, op⟩, hy, rfl⟩ := List.mem_map.1 (mem_ofPairs hx)
  rcases List.mem_append.1 (mem_ofPairs hy) with hy | hy
  · simp only [builtinOperations, List.mem_cons, List.not_mem_nil, or_false, Prod.mk.injEq] at hy
    rcases hy with ⟨rfl, rfl⟩ | ⟨rfl, rfl⟩ | ⟨rfl, rfl⟩ | ⟨rfl, rfl⟩
    · cases hk
    · cases hk
    · cases hk
    · exact ⟨show Text.lower "Map" = "map" by decide +kernel, rfl⟩
  · obtain ⟨⟨k', v⟩, -, hv⟩ := mapM_ok_of_mem huser hy
    obtain ⟨op', hop, hv⟩ := bind_eq_ok.1 hv
    cases hv
    exact absurd hk (operationOf_kind hop)

/-! ## Names without maps -/

/-- Without an operation that maps qubits no line does. -/
theorem parseProgram_noMaps (hc : Config.load config = .ok cfg) (hm : ¬cfg.HasMaps)
    {text : String} {lines : List (List SourceOp)} (h : parseProgram cfg text = .ok lines) :
    ∀ l ∈ lines, ∀ op ∈ l, op.kind ≠ .map := by
  intro l hl op hop hk
  obtain ⟨line, -, hline⟩ := mapM_ok_of_mem h hl
  obtain ⟨part, -, hpart⟩ := mapM_ok_of_mem hline hop
  obtain ⟨-, o, -, -, ho, -, hkind, -⟩ := parseOperation_inv hpart
  rw [hkind] at hk
  obtain ⟨hname, -⟩ := load_maps hc _ (mem_of_lookup ho) hk
  exact hm ⟨o, hname ▸ ho, hk⟩

theorem declare_fixed (names : QubitNames) (b : Bool) (physical line : Nat) (qs : List String) :
    QubitNames.declare { names with fixed := b } physical line qs =
      ({ (names.declare physical line qs).1 with fixed := b }, (names.declare physical line qs).2) := by
  induction qs generalizing names with
  | nil => rfl
  | cons q qs ih =>
    rw [QubitNames.declare, QubitNames.declare]
    split
    · rfl
    · exact ih { names with declared := names.declared ++ [q] }

theorem step_fixed (physical : List Int) (names : QubitNames) (b : Bool) {op : SourceOp} (hop : op.kind ≠ .map) :
    QubitNames.step physical { names with fixed := b } op =
      ({ (names.step physical op).1 with fixed := b }, (names.step physical op).2) := by
  rw [QubitNames.step, QubitNames.step]
  split
  · exact declare_fixed names b physical.length op.line op.params
  · contradiction
  · rfl

/-- **Where no line maps qubits, the origin of the map does not matter** to the names that lines declare. -/
theorem collect_fixed (physical : List Int) (names : QubitNames) (b : Bool) (k : Nat) {lines : List (List SourceOp)}
    (h : ∀ l ∈ lines, ∀ op ∈ l, op.kind ≠ .map) :
    QubitNames.collect physical { names with fixed := b } k lines =
      ({ (QubitNames.collect physical names k lines).1 with fixed := b },
        (QubitNames.collect physical names k lines).2) := by
  induction lines generalizing names k with
  | nil => rfl
  | cons l lines ih =>
    rw [List.forall_mem_cons] at h
    cases k with
    | succ k => simp only [QubitNames.collect, ih names k h.2]
    | zero =>
      rcases l with _ | ⟨op, _ | ⟨op', r⟩⟩
      · simp only [QubitNames.collect, ih names _ h.2]
      · rw [QubitNames.collect, QubitNames.collect, step_fixed physical names b (h.1 op (List.mem_singleton_self op))]
        split
        · rcases names.step physical op with ⟨n, _ | e⟩
          · exact ih n 0 h.2
          · rfl
        · simp only [ih names 0 h.2]
      · simp only [QubitNames.collect, ih names _ h.2]

/-! ## Stages behind the names -/

theorem bind_map {ε β γ : Type} (x : Except ε α) (f : α → Except ε β) (g : β → γ) :
    (x >>= f).map g = x >>= fun a => (f a).map g := by cases x <;> rfl

/-- The stages do not look at the origin of the map. -/
theorem compileNamed_fixed (cfg : Config) (loop : Bool) (text : String) (parsed lines : List (List SourceOp))
    (names : QubitNames) (b : Bool) :
    (compileNamed cfg loop text parsed { names with fixed := b } lines).map Compilation.shown =
      (compileNamed cfg loop text parsed names lines).map Compilation.shown := by
  have hresolve : resolveLines { names with fixed := b } lines = resolveLines names lines := rfl
  rw [compileNamed, compileNamed, hresolve]
  dsimp only
  split
  · exact Eq.trans (b := .error .noMap) rfl rfl
  · simp only [bind_map]
    iterate 9 refine bind_congr fun _ => ?_
    rfl

theorem leastLatency_error {e : CompileError} (h : leastLatency cfg = .error e) : e = .valueInvalid := by
  have horError {l : List Int} (h : orError .valueInvalid (minimum? l) = .error e) : e = .valueInvalid := by
    cases hm : minimum? l <;> rw [hm] at h <;> cases h
    rfl
  rcases bind_eq_error.1 h with h | ⟨each, -, h⟩
  · obtain ⟨chs, -, h⟩ := mapM_eq_error h
    exact horError h
  · exact horError h

theorem compileNamed_empty (cfg : Config) {names : QubitNames} (h : names.map ≠ []) :
    compileNamed cfg true "" [] names [] ≠ .error .noMap := by
  have hmap : names.map.isEmpty = false := List.isEmpty_eq_false_iff.2 h
  have hstages : ∃ f : Int → Compilation, compileNamed cfg true "" [] names [] = (do return f (← leastLatency cfg)) := by
    rw [compileNamed, hmap]
    exact ⟨_, rfl⟩
  obtain ⟨f, hf⟩ := hstages
  rw [hf]
  intro hc
  rcases hl : leastLatency cfg with e | least
  · rw [hl] at hc
    cases hc
    cases leastLatency_error hl
  · rw [hl] at hc
    cases hc

/-! ## Programs that tell a used compiler from a new one -/

theorem compileWith_noMap (s : Session) (hq : cfg.qubitMap = none) (loop : Bool) :
    (s.compileWith cfg loop "").2 = compileNamed cfg loop "" [] { map := s.map, fixed := s.fixed } [] := by
  rw [Session.compileWith, hq]
  rfl

/-- A line that maps a qubit that is not declared. -/
theorem parseProgram_map (hc : Config.load config = .ok cfg) (hm : cfg.HasMaps) :
    parseProgram cfg "map q 0" = .ok [[⟨1, .map, "map", ["q", "0"], 0⟩]] := by
  obtain ⟨op, hop, hk⟩ := hm
  have harity : op.arity = .ok ⟨"2", some 2⟩ := (load_maps hc _ (mem_of_lookup hop) hk).2
  have hline : programLines "map q 0" = [⟨1, "map q 0"⟩] := by decide +kernel
  have hparts : parallelParts "map q 0" = ["map q 0".toList] := by decide +kernel
  have hwords : (Chars.words "map q 0".toList).map String.ofList = ["map", "q", "0"] := by decide +kernel
  have hparse : parseOperation cfg 1 1 "map q 0".toList = .ok ⟨1, .map, "map", ["q", "0"], 0⟩ := by
    rw [parseOperation, hwords]
    simp [hop, hk, harity, orError, EventKind.isAlone, bind, Except.bind, pure, Except.pure]
  rw [parseProgram, hline, List.mapM_cons, parseLine, hparts]
  simp only [List.length_singleton, List.mapM_cons, hparse]
  rfl

/-- **A map from an earlier program shows** in the empty program. -/
theorem Session.Unseen.map_nil (h : s.Unseen config)
    (hc : Config.load config = .ok cfg) (hq : cfg.qubitMap = none) : s.map = [] := by
  by_contra hmap
  have hsame := h true ""
  rw [Session.compile, Qasm.compile, Session.compile, hc] at hsame
  dsimp only at hsame
  rw [compileWith_noMap s hq, compileWith_noMap {} hq] at hsame
  rcases hr : compileNamed cfg true "" [] { map := s.map, fixed := s.fixed } [] with e | c
  · rw [hr] at hsame
    cases hsame
    exact compileNamed_empty cfg hmap hr
  · rw [hr] at hsame
    cases hsame

/-- **An empty map from an earlier configuration shows** where a program maps a qubit. -/
theorem Session.Unseen.noMaps (h : s.Unseen config)
    (hc : Config.load config = .ok cfg) (hq : cfg.qubitMap = none) (hf : s.fixed = true) : ¬cfg.HasMaps := by
  intro hm
  have hmap := h.map_nil hc hq
  have hsame := h true "map q 0"
  rw [Session.compile, Qasm.compile, Session.compile, hc] at hsame
  dsimp only at hsame
  rw [Session.compileWith, Session.compileWith, hq, parseProgram_map hc hm, hmap, hf] at hsame
  cases hsame

/-- **Nothing else of a session shows.** -/
theorem Session.unseen_of (h : ∀ cfg, Config.load config = .ok cfg → cfg.qubitMap = none →
    s.map = [] ∧ (s.fixed = true → ¬cfg.HasMaps)) : s.Unseen config := by
  intro loop text
  rw [Session.compile, Qasm.compile, Session.compile]
  rcases hc : Config.load config with e | cfg
  · rfl
  dsimp only
  rw [Session.compileWith, Session.compileWith]
  rcases hq : cfg.qubitMap with _ | m
  · obtain ⟨hmap, hfixed⟩ := h cfg hc hq
    rcases hp : parseProgram cfg text with e | ops
    · rfl
    -- either the sessions are equal, or no line maps a qubit
    rcases hf : s.fixed with _ | _
    · rw [hmap]
    · have hcollect := collect_fixed cfg.physical {} true 0 (parseProgram_noMaps hc (hfixed hf) hp)
      dsimp only
      rw [hmap, show QubitNames.collect cfg.physical { map := [], fixed := true } 0 ops = _ from hcollect]
      rcases hr : QubitNames.collect cfg.physical {} 0 ops with ⟨names, e | lines⟩
      · rfl
      · exact compileNamed_fixed cfg loop text ops lines names true
  · rfl

theorem after_append (jobs : List Job) (j : Job) :
    Session.after (jobs ++ [j]) = ((Session.after jobs).compile j.config j.loop j.text).1 := by
  rw [Session.after, List.foldl_append]
  rfl

/-- A program that compiles leaves a map behind. -/
theorem compileWith_map {loop : Bool} {text : String} {c : Compilation}
    (h : (s.compileWith cfg loop text).2 = .ok c) : (s.compileWith cfg loop text).1.map ≠ [] := by
  rw [Session.compileWith] at h ⊢
  split at h
  · cases h
  split at h
  · cases h
  rename_i names lines hcollect
  dsimp only
  intro hmap
  rw [compileNamed, show names.map = [] from hmap] at h
  cases h

/-- **Programs of one compiler.** After any programs, every program with a configuration compiles as in a new compiler
exactly when the configuration names the map or nothing is remembered that it could meet; right after a program that
compiles, exactly when the configuration names the map. -/
theorem unseen_after_iff (jobs : List Job) (config : Value) :
    ((Session.after jobs).Unseen config ↔ ∀ cfg, Config.load config = .ok cfg → cfg.qubitMap = none →
      (Session.after jobs).map = [] ∧ ((Session.after jobs).fixed = true → ¬cfg.HasMaps)) ∧
    ∀ j c, ((Session.after jobs).compile j.config j.loop j.text).2 = .ok c →
      ((Session.after (jobs ++ [j])).Unseen config ↔ ∀ cfg, Config.load config = .ok cfg → cfg.qubitMap ≠ none) := by
  refine ⟨⟨fun h cfg hc hq => ⟨h.map_nil hc hq, h.noMaps hc hq⟩, Session.unseen_of⟩, fun j c hj => ?_⟩
  have hmap : (Session.after (jobs ++ [j])).map ≠ [] := by
    rw [after_append, Session.compile]
    rw [Session.compile] at hj
    split at hj
    · cases hj
    · exact compileWith_map hj
  refine ⟨fun h cfg hc hq => hmap (h.map_nil hc hq), fun h => Session.unseen_of fun cfg hc hq => absurd hq (h cfg hc)⟩

/-- Two qubits with a generator each, and programs that declare and map qubits. -/
def mappedQubits (map : Option (List (String × Step Int))) : Config :=
  { twoChannels 0 4 with
    operations := [("x", ⟨.rf, .ok ⟨"1", some 1⟩, 4, []⟩), ("qubit", ⟨.declare, .ok ⟨"-1", none⟩, 100, []⟩),
      ("map", ⟨.map, .ok ⟨"2", some 2⟩, 100, []⟩)]
    qubitMap := map }

/-- A program that maps its qubit to the second generator plays on the first one, because a configuration before it had
a map; in a new compiler it plays where it says. Compiled once more, it is refused. -/
theorem compileWith_staleMap :
    let first := (Session.compileWith {} (mappedQubits (some [("q0", .ok 0)])) true "qubit q0\nx q0").1
    let program := "qubit q0\nmap q0 1\nx q0"
    (first.compileWith (mappedQubits none) true program).2.map (playLoop ·.assembly) = .ok ([⟨0, 0, 1⟩], 4) ∧
      (Session.compileWith {} (mappedQubits none) true program).2.map (playLoop ·.assembly) = .ok ([⟨0, 1, 1⟩], 4) ∧
      ((Session.compileWith {} (mappedQubits none) true program).1.compileWith (mappedQubits none) true program).2.map
        (playLoop ·.assembly) = .error (.qubitRemapped 2 "q0") := by
  decide +kernel

end QubitLab.Qasm
