import QubitLab.Proofs.EmittedLines
import QubitLab.Proofs.Sessions
import QubitLab.Proofs.TriggerStages

/-!
# Errors that a compilation can end in

A compilation that fails should say so with an error about the program (`CompileError.reported`). Some programs end in
an error from within instead: a qubit that nothing maps, a declaration among parallel gates, a gate without a qubit, a
channel that lacks what its instruction needs. `Sturdy` lists all that has to be right, in terms of the program and its
configuration. `compile_errors`: a sturdy program compiles or ends in a reported error, and every program that
compiles is sturdy.
-/

namespace QubitLab.Qasm

open List

/-- The error is about the text of a program or about a value; the others come from within. -/
def CompileError.reported (e : CompileError) : Bool :=
  match e.kind with
  | .malformed _ | .value => true
  | _ => false

/-- A step that gives a result of a kind, or ends in a reported error. -/
abbrev Reports {α : Type} (P : α → Prop) (x : Step α) : Prop := Ends (fun e => e.reported = true) P x

variable {α : Type} {line count : Nat} {params : List String} {op : SourceOp} {text : String} {names : QubitNames}
  {physical : List Int} {latent : Grid Gate} {c : Counters} {t : Int} {new : Grid HwEvent}

theorem reports_of_error {x : Step α} (h : ∀ e, x = .error e → e.reported = true) : Reports (x = .ok ·) x :=
  ends_iff.2 ⟨fun _ h => h, h⟩

theorem Reports.of_ok {P : α → Prop} {x : Step α} (h : ∃ a, x = .ok a ∧ P a) : Reports P x := by
  obtain ⟨a, rfl, ha⟩ := h
  exact ha

theorem reports_orError {e : CompileError} (he : e.reported = true) (x : Option α) :
    Reports (x = some ·) (orError e x) := by
  cases x with
  | none => exact he
  | some a => exact rfl

/-! ## Reading programs -/

/-- What an operation of a line needs: an entry that names its number of parameters, and, for a wait, a time that is
neither negative nor beyond all doubles. -/
structure Legible (cfg : Config) (part : List Char) : Prop where
  arity : ∀ name params op, (Chars.words part).map String.ofList = name :: params →
    cfg.operations.lookup name = some op → ∃ a, op.arity = .ok a
  wait : ∀ name ns op a n, (Chars.words part).map String.ofList = [name, ns] → cfg.operations.lookup name = some op →
    op.kind = .wait → op.arity = .ok a → a.count = some 1 → Decimal.readInt? 10 ns.toList = some n →
    ∃ k, (Number.floorDiv (.int n) (.real cfg.cycle)).bind Number.truncate = .ok k ∧ 0 ≤ k

section
variable {cfg : Config} {part : List Char}

theorem parseOperation_reports (h : Legible cfg part) (line count : Nat) :
    Reports (fun _ => True) (parseOperation cfg line count part) := by
  rcases hwords : (Chars.words part).map String.ofList with _ | ⟨name, params⟩
  · rw [parseOperation, hwords]
    rfl
  rw [parseOperation_eq hwords]
  refine (reports_orError rfl _).bind fun op hop => ?_
  split
  · rfl
  split
  · rfl
  refine (Reports.of_ok (P := (op.arity = .ok ·)) ?_).bind fun a ha => ?_
  · obtain ⟨a, ha⟩ := h.arity name params op hwords hop
    exact ⟨a, ha, ha⟩
  split
  · rfl
  split
  · rename_i ns hk hcount _ _
    refine Ends.bind (P := fun _ => True) ?_ fun _ _ => trivial
    rw [waitClocks]
    refine (reports_orError rfl _).bind fun n hn => ?_
    obtain ⟨k, hk, hpos⟩ := h.wait name ns op a n hwords hop hk ha hcount hn
    rw [hk]
    dsimp only
    rw [if_neg (by omega)]
    trivial
  · trivial

theorem waitClocks_inv {cycle : Float} {ns : String} {k : Int} (h : waitClocks cycle ns = .ok k) :
    ∃ n, Decimal.readInt? 10 ns.toList = some n ∧
      (Number.floorDiv (.int n) (.real cycle)).bind Number.truncate = .ok k ∧ 0 ≤ k := by
  obtain ⟨n, hn, h⟩ := bind_eq_ok.1 h
  dsimp only at h
  split at h
  · rename_i q hq
    split at h
    · cases h
    · cases h
      exact ⟨n, orError_eq_ok.1 hn, hq, by omega⟩
  · cases h

theorem legible_of_parseOperation (h : parseOperation cfg line count part = .ok op) : Legible cfg part := by
  obtain ⟨params, o, a, hwords, ho, ha, -, -, hwait⟩ := parseOperation_inv h
  refine ⟨fun name params' o' hw ho' => ?_, fun name ns o' a' n hw ho' hk ha' hcount hn => ?_⟩
  · obtain ⟨rfl, rfl⟩ := List.cons.inj (hwords.symm.trans hw)
    cases ho.symm.trans ho'
    exact ⟨a, ha⟩
  · obtain ⟨rfl, hparams⟩ := List.cons.inj (hwords.symm.trans hw)
    cases ho.symm.trans ho'
    cases ha.symm.trans ha'
    obtain ⟨n', hn', hclocks, hpos⟩ := waitClocks_inv (hwait ns hparams hk hcount)
    cases hn.symm.trans hn'
    exact ⟨_, hclocks, hpos⟩

theorem parseProgram_error (h : ∀ l ∈ programLines text, ∀ part ∈ parallelParts l.content, Legible cfg part)
    {e : CompileError} (he : parseProgram cfg text = .error e) : e.reported = true := by
  obtain ⟨l, hl, he⟩ := mapM_eq_error he
  obtain ⟨part, hpart, he⟩ := mapM_eq_error he
  have := parseOperation_reports (h l hl part hpart) l.number (parallelParts l.content).length
  rwa [he] at this

theorem legible_of_parseProgram {ops : List (List SourceOp)} (h : parseProgram cfg text = .ok ops) :
    ∀ l ∈ programLines text, ∀ part ∈ parallelParts l.content, Legible cfg part := by
  intro l hl part hpart
  obtain ⟨line, -, hline⟩ := mapM_ok_mem h hl
  obtain ⟨op, -, hop⟩ := mapM_ok_mem hline hpart
  exact legible_of_parseOperation hop

end

/-- Lines as they are read: of known operations, and those that stand alone do. -/
structure ReadLines (cfg : Config) (lines : List (List SourceOp)) : Prop where
  nonempty : ∀ l ∈ lines, l ≠ []
  known : ∀ l ∈ lines, ∀ op ∈ l, ∃ o a, cfg.operations.lookup op.name = some o ∧ op.kind = o.kind ∧ o.arity = .ok a
  alone : ∀ l ∈ lines, ∀ op ∈ l, op.kind.isAlone = true → l = [op]

theorem ReadLines.of_parseProgram {cfg : Config} {ops : List (List SourceOp)}
    (h : parseProgram cfg text = .ok ops) : ReadLines cfg ops where
  nonempty l hl := by
    obtain ⟨line, -, hline⟩ := mapM_ok_of_mem h hl
    rintro rfl
    have hlen := (mapM_eq_ok.1 hline).length_eq
    exact splitBy_ne_nil _ _ (map_eq_nil_iff.1 (length_eq_zero_iff.1 hlen))
  known l hl op hop := by
    obtain ⟨line, -, hline⟩ := mapM_ok_of_mem h hl
    obtain ⟨part, -, hpart⟩ := mapM_ok_of_mem hline hop
    obtain ⟨-, o, a, -, ho, ha, hkind, -⟩ := parseOperation_inv hpart
    exact ⟨o, a, ho, hkind, ha⟩
  alone := parseProgram_alone h

theorem ReadLines.sublist {cfg : Config} {lines out : List (List SourceOp)} (h : ReadLines cfg lines)
    (hs : out.Sublist lines) : ReadLines cfg out where
  nonempty l hl := h.nonempty l (hs.subset hl)
  known l hl := h.known l (hs.subset hl)
  alone l hl := h.alone l (hs.subset hl)

/-! ## Names -/

theorem declare_error {physical : Nat} {qs : List String} {e : CompileError}
    (h : (names.declare physical line qs).2 = some e) : e.reported = true := by
  induction qs generalizing names with
  | nil =>
    rw [QubitNames.declare] at h
    split at h <;> cases h
    rfl
  | cons q qs ih =>
    rw [QubitNames.declare] at h
    split at h
    · cases h
      rfl
    · exact ih h

theorem addMap_error {e : CompileError} (h : (names.addMap physical line params).2 = some e) : e.reported = true := by
  unfold QubitNames.addMap at h
  split at h
  · split at h
    · cases h
      rfl
    split at h
    · cases h
      rfl
    split at h
    · cases h
      rfl
    split at h <;> cases h
    rfl
  · cases h
    rfl

theorem step_error {e : CompileError} (h : (names.step physical op).2 = some e) : e.reported = true := by
  unfold QubitNames.step at h
  split at h
  · exact declare_error h
  · split at h
    · cases h
    · exact addMap_error h
  · cases h

/-- Collecting names fails on a declaration or a map only, and says which. -/
theorem collect_error {k : Nat} {lines : List (List SourceOp)} {e : CompileError}
    (h : (QubitNames.collect physical names k lines).2 = .error e) : e.reported = true := by
  induction lines generalizing names k with
  | nil => cases h
  | cons l lines ih =>
    have hstay {k : Nat} (h : (QubitNames.collect physical names k lines).2.map (l :: ·) = .error e) :
        e.reported = true := by
      rcases hc : (QubitNames.collect physical names k lines).2 with e' | out
      · rw [hc] at h
        cases h
        exact ih hc
      · rw [hc] at h
        cases h
    cases k with
    | succ k => exact hstay h
    | zero =>
      rcases l with _ | ⟨op, _ | ⟨op', r⟩⟩
      · exact hstay h
      · rw [QubitNames.collect] at h
        split at h
        · rcases hs : names.step physical op with ⟨n, _ | e'⟩
          · rw [hs] at h
            exact ih h
          · rw [hs] at h
            cases h
            exact step_error (congrArg Prod.snd hs)
        · exact hstay h
      · exact hstay h

/-! ## The events of grids -/

section
variable {ε δ : Type}

/-- The events of a grid. -/
def events (g : Grid ε) : List ε := g.flatMap (·.events)

theorem mem_events {g : Grid ε} {e : ε} : e ∈ events g ↔ ∃ p ∈ g, e ∈ p.events := mem_flatMap

@[simp] theorem events_append (g h : Grid ε) : events (g ++ h) = events g ++ events h := flatMap_append

@[simp] theorem events_cons (p : TimePoint ε) (g : Grid ε) : events (p :: g) = p.events ++ events g := flatMap_cons

theorem map_snd_timed (g : Grid ε) : (timed g).map Prod.snd = events g := by
  simp [timed, events, map_flatMap, Function.comp_def]

theorem mem_events_iff {g : Grid ε} {e : ε} : e ∈ events g ↔ ∃ t, (t, e) ∈ timed g := by
  rw [← map_snd_timed, mem_map]
  constructor
  · rintro ⟨⟨t, e⟩, hx, rfl⟩
    exact ⟨t, hx⟩
  · rintro ⟨t, hx⟩
    exact ⟨(t, e), hx, rfl⟩

theorem events_mapEvents (f : ε → List δ) (g : Grid ε) : events (mapEvents f g) = (events g).flatMap f := by
  simp [events, mapEvents, flatMap_map, flatMap_assoc]

/-- A pass over events gives a grid if it gives something for each event. -/
theorem exists_mapM_events {F : ε → Step δ} {g : Grid ε} (h : ∀ e ∈ events g, ∃ b, F e = .ok b) :
    ∃ out : Grid δ, g.mapM (fun p => (p.events.mapM F).bind fun es => .ok (⟨p.label, p.time, p.wait, es⟩ : TimePoint δ)) =
      .ok out := by
  obtain ⟨out, hout, -⟩ := exists_mapM_ok (R := fun _ _ => True) (l := g)
      (f := fun p => (p.events.mapM F).bind fun es => .ok (⟨p.label, p.time, p.wait, es⟩ : TimePoint δ)) fun p hp => by
    obtain ⟨es, hes, -⟩ := exists_mapM_ok (f := F) (R := fun _ _ => True) (l := p.events) fun e he =>
      (h e (mem_events.2 ⟨p, hp, he⟩)).imp fun _ hb => ⟨hb, trivial⟩
    exact ⟨_, by rw [hes]; rfl, trivial⟩
  exact ⟨out, hout⟩

theorem events_addEvents (g : Grid ε) (t : Int) (es : List ε) : (events (addEvents g t es)).Perm (events g ++ es) := by
  have h := (timed_addEvents g t es).map Prod.snd
  rwa [map_append, map_map, map_snd_timed, map_snd_timed, Function.comp_def, map_id'] at h

end

theorem events_moveGates (least t : Int) (gs : List Gate) (st : Grid Gate × Nat) :
    (events (gs.foldl (moveGate least t) st).1).Perm (events st.1 ++ gs) := by
  induction gs generalizing st with
  | nil => simp
  | cons g gs ih =>
    refine (ih (moveGate least t st g)).trans ?_
    refine ((events_addEvents st.1 _ [g]).append_right gs).trans ?_
    simp

theorem events_compensatePoint (least : Int) (st : Grid Gate × Nat) :
    (events (compensatePoint least st).1).Perm (events st.1) := by
  rw [compensatePoint]
  split
  · exact .refl _
  · rename_i p hp
    obtain ⟨hi, rfl⟩ := List.getElem?_eq_some_iff.1 hp
    refine (events_moveGates least _ _ _).trans ?_
    have hsplit : st.1 = st.1.take st.2 ++ st.1[st.2] :: st.1.drop (st.2 + 1) := by
      rw [getElem_cons_drop, take_append_drop]
    have hset : ∀ q, st.1.set st.2 q = st.1.take st.2 ++ q :: st.1.drop (st.2 + 1) := fun q =>
      set_eq_take_append_cons_drop.trans (if_pos hi)
    conv_rhs => rw [hsplit]
    rw [hset, events_append, events_cons, events_append, events_cons, append_assoc]
    refine List.Perm.append_left _ ?_
    rw [append_assoc]
    refine (List.Perm.append_left _ perm_append_comm).trans ?_
    rw [← append_assoc]
    exact (filter_append_perm (fun g : Gate => g.latency == least) _).append_right _

theorem events_compensate (least : Int) (g : Grid Gate) : (events (compensate least g)).Perm (events g) := by
  have hrun (n : Nat) (st : Grid Gate × Nat) : (events (compensateFrom least n st)).Perm (events st.1) := by
    induction n generalizing st with
    | zero => exact .refl _
    | succ n ih => exact (ih _).trans (events_compensatePoint least st)
  exact hrun _ (g, 0)

/-! ## What gates and their events need -/

/-- A trigger whose trigger bit is not zero, and whose bits name one of eight counters, also from behind. -/
def Codable (e : HwEvent) : Prop :=
  e.name = "trigger" → e.triggerBit ≠ 0 ∧ ∀ bits, bitsOf e = .ok bits → ∀ b ∈ bits, -8 ≤ b ∧ b < 8

/-- An event that the hardware passes take: a pulse of one of three generators, a trigger with stages that have bits. -/
structure Sendable (e : HwEvent) : Prop where
  generator : e.name = "pulse" → -3 ≤ e.awg ∧ e.awg < 3
  stages : ∀ x ∈ stagesOf (0, e), Codable x.2

/-- The hardware grid of lines before its triggers are split. -/
def convertedGrid (cfg : Config) (names : QubitNames) (lines : List (List SourceOp)) : Step (Grid HwEvent) := do
  let timedOps ← resolveLines names lines
  let timed ← timingGrid cfg timedOps
  let latent ← withLatencies cfg (splitGates timed)
  let least ← leastLatency cfg
  hardwareGrid cfg (compensate least latent)

/-- Lines that find all they need: none of them is a declaration that was passed over, and each gate has qubits, which
are mapped to channels that can play it. Lines of negative length can leave events at the end of the grid, which is
passed on as it is; these have to have bits too. -/
structure Provided (cfg : Config) (names : QubitNames) (lines : List (List SourceOp)) : Prop where
  timed : ∀ l ∈ lines, ∀ op ∈ l, op.declares = false
  qubits : ∀ l ∈ lines, ∀ op ∈ l, op.kind.isGate = true → op.params ≠ []
  gates : ∀ l ∈ lines, ∀ op ∈ l, op.kind.isGate = true → ∀ q ∈ op.params,
    ∃ n e, names.map.lookup q = some (.ok n) ∧ hwEventOf cfg (gateOn op n) = .ok e ∧ Sendable e
  ending : ∀ g, convertedGrid cfg names lines = .ok g → ∀ p ∈ g.getLast?, ∀ e ∈ p.events, Codable e

section
variable {cfg : Config} {lines : List (List SourceOp)}

theorem physicalQubits_inv {qs : List Int} (h : physicalQubits names params = .ok qs) :
    ∀ q ∈ params, ∃ n ∈ qs, names.map.lookup q = some (.ok n) := by
  intro q hq
  obtain ⟨n, hn, h⟩ := mapM_ok_mem h hq
  obtain ⟨target, htarget, h⟩ := bind_eq_ok.1 h
  exact ⟨n, hn, h ▸ orError_eq_ok.1 htarget⟩

theorem exists_physicalQubits (h : ∀ q ∈ params, ∃ n, names.map.lookup q = some (.ok n)) :
    ∃ qs, physicalQubits names params = .ok qs := by
  obtain ⟨qs, hqs, -⟩ := exists_mapM_ok (R := fun _ _ => True) (l := params)
      (f := fun q => do let target ← orError .keyMissing (names.map.lookup q); target) fun q hq => by
    obtain ⟨n, hn⟩ := h q hq
    exact ⟨n, by rw [hn]; rfl, trivial⟩
  exact ⟨qs, hqs⟩

theorem exists_linePoint {ops : List SourceOp}
    (h : ∀ o ∈ op :: ops, ∃ entry, cfg.operations.lookup o.name = some entry) :
    ∃ p, linePoint cfg ((op :: ops).map fun o => .gate (wholeGate names.map o)) = .ok p := by
  obtain ⟨ds, hds, -⟩ := exists_mapM_ok (R := fun _ _ => True) (l := (op :: ops).map (wholeGate names.map))
      (f := fun g => durationOf cfg g.name) fun g hg => by
    obtain ⟨o, ho, rfl⟩ := mem_map.1 hg
    obtain ⟨entry, hentry⟩ := h o ho
    exact ⟨entry.duration, by rw [durationOf, show (wholeGate names.map o).name = o.name from rfl, hentry]; rfl, trivial⟩
  rw [map_cons, linePoint]
  refine ⟨_, bind_eq_ok.2 ⟨(op :: ops).map (wholeGate names.map), ?_, bind_eq_ok.2 ⟨ds, hds, rfl⟩⟩⟩
  rw [← map_cons (f := fun o => TimedOp.gate (wholeGate names.map o)), mapM_eq_ok, forall₂_map_left_iff,
    forall₂_map_right_iff]
  exact forall₂_same.2 fun _ _ => rfl

theorem Provided.exists_point (hp : Provided cfg names lines) (hl : ReadLines cfg lines) {l : List SourceOp} (h : l ∈ lines) :
    ∃ rs p, l.mapM (resolveOp names) = .ok rs ∧ linePoint cfg rs.flatten = .ok p := by
  by_cases hw : ∃ op ∈ l, op.kind = .wait
  · obtain ⟨op, hop, hk⟩ := hw
    obtain ⟨o, a, ho, -, ha⟩ := hl.known l h op hop
    obtain rfl := hl.alone l h op hop (by rw [hk]; rfl)
    have hres : resolveOp names op = .ok [.wait op] := by rw [resolveOp, hk]; rfl
    refine ⟨[[.wait op]], { label := op.name, wait := if a.count == some 1 then op.wait else cfg.initClocks }, ?_, ?_⟩
    · rw [mapM_cons, hres]
      rfl
    · exact bind_eq_ok.2 ⟨o, orError_eq_ok.2 ho, bind_eq_ok.2 ⟨a, ha, rfl⟩⟩
  · have hgate : ∀ op ∈ l, op.kind.isGate = true := by
      intro op hop
      have h1 := hp.timed l h op hop
      have h2 : op.kind ≠ .wait := fun hk => hw ⟨op, hop, hk⟩
      rw [SourceOp.declares] at h1
      cases hk : op.kind <;> simp_all [EventKind.isGate]
    obtain ⟨rs, hrs, -⟩ := exists_mapM_ok (R := fun _ _ => True) (l := l) (f := resolveOp names) fun op hop => by
      obtain ⟨qs, hqs⟩ := exists_physicalQubits fun q hq => by
        obtain ⟨n, -, hn, -⟩ := hp.gates l h op hop (hgate op hop) q hq
        exact ⟨n, hn⟩
      have hw' : (op.kind == .wait) = false := by simpa using fun hk => hw ⟨op, hop, hk⟩
      refine ⟨[.gate ⟨op.line, op.kind, op.name, qs, 0⟩], ?_, trivial⟩
      rw [resolveOp, hw', if_neg (by decide), if_pos (hgate op hop), hqs]
      rfl
    have hflat : rs.flatten = l.map fun o => .gate (wholeGate names.map o) := by
      rw [mapM_ok_eq_map hrs fun op hop r h => resolveOp_gate (hgate op hop) h, ← flatMap_def, map_eq_flatMap]
    obtain ⟨op, ops, rfl⟩ := exists_cons_of_ne_nil (hl.nonempty l h)
    obtain ⟨p, hpoint⟩ := @exists_linePoint op names cfg ops fun o ho => by
      obtain ⟨entry, -, hentry, -⟩ := hl.known _ h o ho
      exact ⟨entry, hentry⟩
    exact ⟨rs, p, hrs, hflat ▸ hpoint⟩

theorem Provided.exists_timed (hp : Provided cfg names lines) (hl : ReadLines cfg lines) :
    ∃ timedOps grid, resolveLines names lines = .ok timedOps ∧ timingGrid cfg timedOps = .ok grid := by
  obtain ⟨timedOps, hops, hrel⟩ := exists_mapM_ok (l := lines) (R := fun _ ops => ∃ p, linePoint cfg ops = .ok p)
      (f := fun l => do return (← l.mapM (resolveOp names)).flatten) fun l hmem => by
    obtain ⟨rs, p, hrs, hpoint⟩ := hp.exists_point hl hmem
    exact ⟨rs.flatten, by rw [hrs]; rfl, p, hpoint⟩
  have hall : ∀ ops ∈ timedOps, ∃ p, linePoint cfg ops = .ok p ∧ True := by
    intro ops hmem
    obtain ⟨i, hi, rfl⟩ := mem_iff_getElem.1 hmem
    obtain ⟨p, hpoint⟩ := (forall₂_iff_get.1 hrel).2 i (by rw [hrel.length_eq]; exact hi) hi
    exact ⟨p, hpoint, trivial⟩
  obtain ⟨pts, hpts, -⟩ := exists_mapM_ok hall
  exact ⟨timedOps, withTimes 0 pts, hops, by rw [timingGrid, hpts]; rfl⟩

theorem events_withTimes {pts : List (TimePoint Gate)} (h : List.Forall₂ (PointOf cfg names.map) lines pts) (t : Int) :
    events (withTimes t pts) = lines.flatMap (lineGates names.map) := by
  induction h generalizing t with
  | nil => rfl
  | cons hpoint _ ih => rw [withTimes, events_cons, ih, hpoint.2, flatMap_cons]

theorem events_timingGrid {timedOps : List (List TimedOp)} {grid : Grid Gate}
    (hd : ∀ l ∈ lines, ∀ op ∈ l, op.declares = false) (hl : ReadLines cfg lines)
    (hr : resolveLines names lines = .ok timedOps) (hg : timingGrid cfg timedOps = .ok grid) :
    events grid = lines.flatMap (lineGates names.map) := by
  obtain ⟨pts, hpts, hg⟩ := bind_eq_ok.1 hg
  cases hg
  exact events_withTimes (timingGrid_points hd hl.alone hr hpts) 0

/-- A gate of some lines on one of its qubits. -/
def GateOf (map : List (String × Step Int)) (lines : List (List SourceOp)) (g : Gate) : Prop :=
  ∃ l ∈ lines, ∃ op ∈ l, op.kind.isGate = true ∧ ∃ n ∈ qubitsOf map op, g = gateOn op n

theorem mem_qubitsOf {map : List (String × Step Int)} (hg : op.kind.isGate = true) {n : Int} :
    n ∈ qubitsOf map op ↔ ∃ q ∈ op.params, map.lookup q = some (.ok n) := by
  rw [qubitsOf, if_pos hg, mem_filterMap]
  refine exists_congr fun q => and_congr_right fun _ => ?_
  rcases map.lookup q with _ | _ | m <;> simp [Except.toOption]

theorem Provided.event (hp : Provided cfg names lines) {g : Gate} (hg : GateOf names.map lines g) :
    ∃ e, hwEventOf cfg g = .ok e ∧ Sendable e := by
  obtain ⟨l, hl, op, hop, hgate, n, hn, rfl⟩ := hg
  obtain ⟨q, hq, hlook⟩ := (mem_qubitsOf hgate).1 hn
  obtain ⟨n', e, hlook', he, hs⟩ := hp.gates l hl op hop hgate q hq
  cases hlook.symm.trans hlook'
  exact ⟨e, he, hs⟩

theorem Provided.qubitsOf_ne_nil (hp : Provided cfg names lines) :
    ∀ l ∈ lines, ∀ op ∈ l, op.kind.isGate = true → qubitsOf names.map op ≠ [] := by
  intro l hl op hop hg
  obtain ⟨q, hq⟩ := exists_mem_of_ne_nil _ (hp.qubits l hl op hop hg)
  obtain ⟨n, -, hlook, -⟩ := hp.gates l hl op hop hg q hq
  exact ne_nil_of_mem ((mem_qubitsOf hg).2 ⟨q, hq, hlook⟩)

section
variable {grid : Grid Gate} (hgrid : events grid = lines.flatMap (lineGates names.map))
include hgrid

theorem mem_splitGates (hq : ∀ l ∈ lines, ∀ op ∈ l, op.kind.isGate = true → qubitsOf names.map op ≠ []) {g : Gate} :
    g ∈ events (splitGates grid) ↔ GateOf names.map lines g := by
  have hmem {l : List SourceOp} {g : Gate} : g ∈ lineGates names.map l ↔ ∃ op ∈ l, op.kind.isGate = true ∧ wholeGate names.map op = g := by
    simp [lineGates, and_assoc]
  have hsplit {op : SourceOp} (hne : qubitsOf names.map op ≠ []) :
      (wholeGate names.map op).perQubit = (qubitsOf names.map op).map (gateOn op) := perQubit_eq hne
  rw [show splitGates grid = mapEvents Gate.perQubit grid from rfl, events_mapEvents, hgrid]
  simp only [mem_flatMap, hmem]
  constructor
  · rintro ⟨_, ⟨l, hl, op, hop, hg, rfl⟩, hmem⟩
    rw [hsplit (hq l hl op hop hg)] at hmem
    obtain ⟨n, hn, rfl⟩ := mem_map.1 hmem
    exact ⟨l, hl, op, hop, hg, n, hn, rfl⟩
  · rintro ⟨l, hl, op, hop, hg, n, hn, rfl⟩
    refine ⟨_, ⟨l, hl, op, hop, hg, rfl⟩, ?_⟩
    rw [hsplit (hq l hl op hop hg)]
    exact mem_map_of_mem hn

/-- Where latencies are found no gate is without a qubit. -/
theorem qubitsOf_ne_nil (h : withLatencies cfg (splitGates grid) = .ok latent) :
    ∀ l ∈ lines, ∀ op ∈ l, op.kind.isGate = true → qubitsOf names.map op ≠ [] := by
  intro l hl op hop hg hnil
  have hwhole : wholeGate names.map op ∈ events grid :=
    hgrid ▸ mem_flatMap.2 ⟨l, hl, mem_map_of_mem (mem_filter.2 ⟨hop, hg⟩)⟩
  have hmem : wholeGate names.map op ∈ events (splitGates grid) := by
    rw [show splitGates grid = mapEvents Gate.perQubit grid from rfl, events_mapEvents]
    refine mem_flatMap.2 ⟨_, hwhole, ?_⟩
    rw [Gate.perQubit, show (wholeGate names.map op).qubits = [] from hnil]
    exact mem_singleton_self _
  obtain ⟨t, ht⟩ := mem_events_iff.1 hmem
  obtain ⟨q, -, hq, -⟩ := (withLatencies_spec h).2 _ ht
  rw [show (wholeGate names.map op).qubits = [] from hnil] at hq
  cases hq

theorem mem_compensate (hlat : withLatencies cfg (splitGates grid) = .ok latent) (least : Int) {g : Gate} :
    g ∈ events (compensate least latent) ↔ ∃ g₀, GateOf names.map lines g₀ ∧ g = withLatency cfg g₀ := by
  rw [(events_compensate least latent).mem_iff, (withLatencies_spec hlat).1, events_mapEvents]
  simp only [mem_flatMap, mem_singleton, mem_splitGates hgrid (qubitsOf_ne_nil hgrid hlat)]

/-- **The events of the hardware grid** are those of the gates of the lines, and each gate has one. -/
theorem mem_hardwareGrid {least : Int} {conv : Grid HwEvent}
    (hlat : withLatencies cfg (splitGates grid) = .ok latent) (hconv : hardwareGrid cfg (compensate least latent) = .ok conv) :
    (∀ g, GateOf names.map lines g → ∃ e ∈ events conv, hwEventOf cfg g = .ok e) ∧
      ∀ e ∈ events conv, ∃ g, GateOf names.map lines g ∧ hwEventOf cfg g = .ok e := by
  obtain ⟨hout, hok⟩ := hardwareGrid_spec hconv
  rw [hout, events_mapEvents]
  simp only [mem_flatMap, mem_singleton]
  refine ⟨fun g hg => ?_, ?_⟩
  · have hmem := (mem_compensate hgrid hlat least).2 ⟨g, hg, rfl⟩
    obtain ⟨t, ht⟩ := mem_events_iff.1 hmem
    exact ⟨_, ⟨_, hmem, rfl⟩, hok _ ht⟩
  · rintro e ⟨g, hg, rfl⟩
    obtain ⟨t, ht⟩ := mem_events_iff.1 hg
    obtain ⟨g₀, hg₀, rfl⟩ := (mem_compensate hgrid hlat least).1 hg
    exact ⟨g₀, hg₀, hok _ ht⟩

theorem Provided.exists_latent (hp : Provided cfg names lines) :
    ∃ latent, withLatencies cfg (splitGates grid) = .ok latent := by
  refine exists_mapM_events fun g hg => ?_
  obtain ⟨e, he, -⟩ := hp.event ((mem_splitGates hgrid hp.qubitsOf_ne_nil).1 hg)
  obtain ⟨q, ch, -, hq, hch, -⟩ := hwEventOf_inv he
  exact ⟨{ g with latency := ch.latency }, bind_eq_ok.2 ⟨q, orError_eq_ok.2 (by rw [hq]; rfl), bind_eq_ok.2 ⟨ch, hch, rfl⟩⟩⟩

theorem Provided.exists_converted (hp : Provided cfg names lines)
    (hlat : withLatencies cfg (splitGates grid) = .ok latent) (least : Int) :
    ∃ conv, hardwareGrid cfg (compensate least latent) = .ok conv := by
  refine exists_mapM_events fun g hg => ?_
  obtain ⟨g₀, hg₀, rfl⟩ := (mem_compensate hgrid hlat least).1 hg
  obtain ⟨e, he, -⟩ := hp.event hg₀
  exact ⟨e, he⟩

end

end

/-! ## Hardware passes -/

section
variable {g out : Grid HwEvent} {e : HwEvent}

theorem exists_position? {n : Nat} {b : Int} : (∃ i, position? n b = some i) ↔ -n ≤ b ∧ b < n := by
  rw [position?]
  split <;> split <;> simp <;> omega

theorem mem_pass {F : Int × HwEvent → List (Int × HwEvent)} (hF : ∀ t e, (F (t, e)).map Prod.snd = (F (0, e)).map Prod.snd)
    {front : Grid HwEvent} (h : (timed front).Perm ((timed g).flatMap F)) :
    e ∈ events (front ++ g.getLast?.toList) ↔
      (∃ e₀ ∈ events g, e ∈ (F (0, e₀)).map Prod.snd) ∨ ∃ p ∈ g.getLast?, e ∈ p.events := by
  rw [events_append, mem_append]
  refine or_congr ?_ (by simp [mem_events])
  rw [← map_snd_timed, (h.map Prod.snd).mem_iff, map_flatMap, mem_flatMap]
  constructor
  · rintro ⟨⟨t, e₀⟩, hx, he⟩
    exact ⟨e₀, mem_events_iff.2 ⟨t, hx⟩, hF t e₀ ▸ he⟩
  · rintro ⟨e₀, he₀, he⟩
    obtain ⟨t, hx⟩ := mem_events_iff.1 he₀
    exact ⟨(t, e₀), hx, hF t e₀ ▸ he⟩

theorem map_snd_stagesOf (t : Int) (e : HwEvent) : (stagesOf (t, e)).map Prod.snd = (stagesOf (0, e)).map Prod.snd := by
  simp only [stagesOf]
  split
  · rcases e.format with _ | ⟨d, _ | ⟨d₂, _ | ⟨d₃, r⟩⟩⟩ <;> rfl
  · rfl

theorem map_snd_codedOf (t : Int) (e : HwEvent) : (codedOf (t, e)).map Prod.snd = (codedOf (0, e)).map Prod.snd := by
  simp only [codedOf]
  split
  · rcases bitsOf e with _ | _ | ⟨b, bs⟩ <;> rfl
  · rfl

theorem mem_splitTriggers (h : splitTriggers g = .ok out) :
    e ∈ events out ↔ (∃ e₀ ∈ events g, e ∈ (stagesOf (0, e₀)).map Prod.snd) ∨ ∃ p ∈ g.getLast?, e ∈ p.events := by
  obtain ⟨front, rfl, hperm⟩ := splitTriggers_timed h
  exact mem_pass map_snd_stagesOf hperm

theorem mem_applyCodewords (h : applyCodewords g = .ok out) :
    e ∈ events out ↔ (∃ e₀ ∈ events g, e ∈ (codedOf (0, e₀)).map Prod.snd) ∨ ∃ p ∈ g.getLast?, e ∈ p.events := by
  obtain ⟨front, rfl, hbuilt⟩ := applyCodewords_built h
  exact mem_pass map_snd_codedOf hbuilt.events

theorem mem_getLast? {p : TimePoint HwEvent} (hp : p ∈ g.getLast?) (he : e ∈ p.events) : e ∈ events g :=
  mem_events.2 ⟨p, mem_of_getLast? hp, he⟩

theorem name_of_mem_stagesOf {x : Int × HwEvent} (hx : x ∈ stagesOf (0, e)) :
    x.2.name = e.name ∧ x.2.setBits = e.setBits := by
  rw [stagesOf] at hx
  split at hx
  · split at hx <;> simp only [mem_cons, not_mem_nil, or_false] at hx
    · rw [hx]
      exact ⟨rfl, rfl⟩
    · rw [hx]
      exact ⟨rfl, rfl⟩
    · rcases hx with rfl | rfl <;> exact ⟨rfl, rfl⟩
  · rw [mem_singleton.1 hx]
    exact ⟨rfl, rfl⟩

theorem bits_of_mem_codedOf {x : Int × HwEvent} (hx : x ∈ codedOf (0, e)) (hn : x.2.name = "trigger") :
    e.name = "trigger" ∧ bitsOf e = .ok x.2.setBits := by
  rw [codedOf] at hx
  split at hx
  · rename_i hname
    split at hx
    · rename_i b bs hbits
      rw [mem_singleton.1 hx]
      exact ⟨hname, hbits⟩
    · cases hx
  · rename_i hname
    rw [mem_singleton.1 hx] at hn
    exact absurd hn hname

theorem name_of_mem_codedOf {x : Int × HwEvent} (hx : x ∈ codedOf (0, e)) : x.2.name = e.name := by
  rw [codedOf] at hx
  split at hx
  · split at hx
    · rw [mem_singleton.1 hx]
    · cases hx
  · rw [mem_singleton.1 hx]

theorem mem_divideTriggers (h : divideTriggers g = .ok out) (hn : e.name = "pulse") : e ∈ events out ↔ e ∈ events g := by
  have hne : e.name ≠ "trigger" := by rw [hn]; decide
  obtain ⟨front, hfront, h⟩ := bind_eq_ok.1 h
  cases h
  obtain ⟨Q, hQ, hcut, hkept⟩ := divideRest_cuts countersOk_start Built.nil hfront
  rw [withEnd, events_append, mem_append, ← map_snd_timed front, (hQ.events.map Prod.snd).mem_iff]
  constructor
  · rintro (he | he)
    · obtain ⟨⟨t, e⟩, hx, rfl⟩ := mem_map.1 he
      rcases hcut _ hx with ⟨c, d, -, hcut⟩ | ⟨-, hmem⟩
      · exact absurd (congrArg HwEvent.name hcut) hne
      · exact mem_events_iff.2 ⟨t, hmem⟩
    · obtain ⟨p, hp, he⟩ := mem_events.1 he
      exact mem_getLast? (Option.mem_toList.1 hp) he
  · intro he
    obtain ⟨t, ht⟩ := mem_events_iff.1 he
    exact .inl (mem_map.2 ⟨(t, e), hkept _ ht hne, rfl⟩)

/-! What the passes can fail with. -/

theorem reports_addHw (g : Grid HwEvent) (t : Int) (e : HwEvent) : Reports (fun _ => True) (addHw g t e) := by
  rw [addHw]
  split
  · exact rfl
  · trivial

theorem splitTriggers_reports (g : Grid HwEvent) : Reports (fun _ => True) (splitTriggers g) := by
  refine Ends.bind (Ends.foldlM (fun new _ p _ => Ends.foldlM (fun new _ e _ => ?_) trivial) trivial) fun _ _ => trivial
  rw [splitEvent]
  split
  · split
    · exact reports_addHw _ _ _
    · exact reports_addHw _ _ _
    · exact (reports_addHw _ _ _).bind fun _ _ => (reports_addHw _ _ _).bind fun _ _ => trivial
    · trivial
  · exact reports_addHw _ _ _

theorem bitsOf_reports (h : e.triggerBit ≠ 0) : Reports (fun _ => True) (bitsOf e) := by
  rw [bitsOf, if_neg h]
  dsimp only
  split
  · trivial
  split
  · exact rfl
  · trivial

theorem applyCodewords_reports (h : ∀ e ∈ events g, Codable e) : Reports (fun _ => True) (applyCodewords g) := by
  refine Ends.bind (Ends.foldlM (fun new _ p hp => Ends.foldlM (fun new _ e he => ?_) trivial) trivial) fun _ _ => trivial
  rw [applyEvent]
  split
  · rename_i hn
    refine (bitsOf_reports (h e (mem_events.2 ⟨p, hp, he⟩) hn).1).bind fun bits _ => ?_
    split
    · trivial
    · exact reports_addHw _ _ _
  · exact reports_addHw _ _ _

theorem raiseCounters_reports (hl : c.length = 8) (h : ∀ b ∈ e.setBits, -8 ≤ b ∧ b < 8) :
    Reports (fun c' : Counters => c'.length = 8) (raiseCounters c e) := by
  refine Ends.foldlM (fun c hc b hb => ?_) hl
  obtain ⟨i, hi⟩ := exists_position?.2 (show -((8 : Nat) : Int) ≤ b ∧ b < ((8 : Nat) : Int) from h b hb)
  rw [hc, hi]
  exact (length_modify ..).trans hc

theorem divideFrom_reports {fin now least : Int} {next : Option Int} {n : Nat} :
    Reports (fun st => st.2.length = c.length) (divideFrom t fin next n now least c new) := by
  induction n generalizing now least c new with
  | zero => exact rfl
  | succ n ih =>
    -- whatever is cut, the round is the last one or the next one starts with as many counters
    have hround (d : Int) (stop : Prop) [Decidable stop] (new' : Grid HwEvent) :
        Reports (fun st => st.2.length = c.length) (if stop then .ok (new', lower d c)
          else divideFrom t fin next n (t + d) (leastRunning (lower d c)) (lower d c) new') := by
      split
      · exact length_map _
      · exact ih.imp fun st hst => hst.trans (length_map _)
    unfold divideFrom
    exact (reports_addHw _ _ _).bind fun new' _ => hround _ _ new'

theorem divideRest_reports (hl : c.length = 8)
    (h : ∀ e ∈ events g, e.name = "trigger" → ∀ b ∈ e.setBits, -8 ≤ b ∧ b < 8) :
    Reports (fun _ => True) (divideRest new c g) := by
  induction g generalizing new c with
  | nil => trivial
  | cons p r ih =>
    rw [events_cons, forall_mem_append] at h
    rw [divideRest]
    refine Ends.bind (P := fun st => st.2.length = 8) (Ends.foldlM (fun st hst e he => ?_) hl) fun st hst => ?_
    · rw [divideEvent]
      split
      · exact (raiseCounters_reports hst (h.1 e he ‹_›)).bind fun c hc => hc
      · exact (reports_addHw _ _ _).bind fun _ _ => hst
    · dsimp only
      split
      · exact ih hst h.2
      · exact divideFrom_reports.bind fun st' hst' => ih (hst'.trans hst) h.2

theorem divideTriggers_reports (h : ∀ e ∈ events g, e.name = "trigger" → ∀ b ∈ e.setBits, -8 ≤ b ∧ b < 8) :
    Reports (fun _ => True) (divideTriggers g) :=
  (divideRest_reports rfl h).bind fun _ _ => trivial

/-! What passes that succeed had. -/

theorem bitsOf_of_applyCodewords (h : applyCodewords g = .ok out) (he : e ∈ events g) (hn : e.name = "trigger") :
    ∃ bits, bitsOf e = .ok bits := by
  obtain ⟨new, hnew, -⟩ := bind_eq_ok.1 h
  obtain ⟨p, hp, he⟩ := mem_events.1 he
  obtain ⟨s, s', hfold⟩ := foldlM_ok_mem hnew p hp
  obtain ⟨r, r', happly⟩ := foldlM_ok_mem hfold e he
  rw [applyEvent, if_pos hn] at happly
  obtain ⟨bits, hbits, -⟩ := bind_eq_ok.1 happly
  exact ⟨bits, hbits⟩

theorem triggerBit_of_bitsOf {bits : List Int} (h : bitsOf e = .ok bits) : e.triggerBit ≠ 0 := by
  intro h0
  rw [bitsOf, if_pos h0] at h
  cases h

theorem bits_of_divideRest {P : List (Int × HwEvent)} (hok : CountersOk c)
    (hP : Built P new) (h : divideRest new c g = .ok out) :
    ∀ e ∈ events g, e.name = "trigger" → ∀ b ∈ e.setBits, -8 ≤ b ∧ b < 8 := by
  induction g generalizing new c P with
  | nil => simp [events]
  | cons p r ih =>
    obtain ⟨new₁, c₁, hevents, hok₁, hrest⟩ := divideRest_cons hok hP h
    obtain ⟨-, hB, -, hbits⟩ := divideEvents_spec hok.length hP hevents
    rw [events_cons, forall_mem_append]
    refine ⟨fun e he hn b hb => ?_, ?_⟩
    · obtain ⟨i, hi, -⟩ := hbits e he hn b hb
      exact exists_position?.1 ⟨i, hi⟩
    · rcases hrest with ⟨-, h⟩ | ⟨hc, new₂, c₂, hfrom, h⟩
      · exact ih hok₁ hB h
      · obtain ⟨hok₂, Q, hQ, -⟩ :=
          divideFrom_cuts hok₁ (leastRunning_spec hok₁ hc).2.2 (fun s _ hs => by omega) hB hfrom
        exact ih hok₂ hQ h

theorem codable_of_passes {coded divided : Grid HwEvent} (hcoded : applyCodewords g = .ok coded)
    (hdiv : divideTriggers coded = .ok divided) : ∀ e ∈ events g, Codable e := by
  intro e he hn
  obtain ⟨bits, hbits⟩ := bitsOf_of_applyCodewords hcoded he hn
  refine ⟨triggerBit_of_bitsOf hbits, fun bits' hbits' => ?_⟩
  cases hbits.symm.trans hbits'
  obtain ⟨out, hout, -⟩ := bind_eq_ok.1 hdiv
  cases bits with
  | nil => simp
  | cons b bs =>
    obtain ⟨x, hx, hname, hset⟩ : ∃ x, codedOf (0, e) = [(0, x)] ∧ x.name = "trigger" ∧ x.setBits = b :: bs := by
      rw [codedOf, if_pos hn]
      simp only [hbits]
      exact ⟨_, rfl, hn, rfl⟩
    have hmem : x ∈ events coded := (mem_applyCodewords hcoded).2 (.inl ⟨e, he, by simp [hx]⟩)
    exact hset ▸ bits_of_divideRest countersOk_start Built.nil hout x hmem hname

/-- Pulses come through all passes, and none is made. -/
theorem mem_passes {staged coded divided : Grid HwEvent} (hstaged : splitTriggers g = .ok staged)
    (hcoded : applyCodewords staged = .ok coded) (hdiv : divideTriggers coded = .ok divided) (hn : e.name = "pulse") :
    e ∈ events divided ↔ e ∈ events g := by
  have hne : e.name ≠ "trigger" := by rw [hn]; decide
  -- a pass that leaves other events as they are keeps them
  have hpass {F : Int × HwEvent → List (Int × HwEvent)} (hname : ∀ e x, x ∈ F (0, e) → x.2.name = e.name)
      (hother : ∀ e, e.name ≠ "trigger" → F (0, e) = [(0, e)]) {g : Grid HwEvent} :
      ((∃ e₀ ∈ events g, e ∈ (F (0, e₀)).map Prod.snd) ∨ ∃ p ∈ g.getLast?, e ∈ p.events) ↔ e ∈ events g := by
    constructor
    · rintro (⟨e₀, he₀, he⟩ | ⟨p, hp, he⟩)
      · obtain ⟨x, hx, rfl⟩ := mem_map.1 he
        rw [hother e₀ (hname e₀ x hx ▸ hne)] at hx
        rw [mem_singleton.1 hx]
        exact he₀
      · exact mem_getLast? hp he
    · intro he
      exact .inl ⟨e, he, by rw [hother e hne]; exact mem_singleton_self _⟩
  rw [mem_divideTriggers hdiv hn, mem_applyCodewords hcoded, hpass (fun _ _ => name_of_mem_codedOf) fun _ h => if_neg h,
    mem_splitTriggers hstaged, hpass (fun _ _ hx => (name_of_mem_stagesOf hx).1) fun _ h => if_neg h]

end

/-! ## Emitting -/

/-- Something of a grid is written: a wait up to a point, or an event that has a line. -/
def Heard (g : Grid HwEvent) : Prop :=
  ∃ p ∈ g, p.time ≠ 0 ∨ ∃ e ∈ p.events, e.name = "pulse" ∨ e.name = "trigger" ∨ e.name = "measure"

section
variable {g : Grid HwEvent} {e : HwEvent}

theorem triggerText_reports (e : HwEvent) : Reports (fun _ => True) (triggerText e) := by
  have hmask : Reports (fun _ => True) (triggerMask e.setBits) := by
    refine Ends.foldlM (fun m _ b _ => ?_) trivial
    split
    · exact rfl
    · trivial
  exact hmask.bind fun _ _ => trivial

theorem noteEvent_reports {st : List String × PulseFields} (hl : st.2.length = 3)
    (h : e.name = "pulse" → -3 ≤ e.awg ∧ e.awg < 3) :
    Reports (fun st' : List String × PulseFields => st'.2.length = 3) (noteEvent st e) := by
  have hpulse : Reports (fun fields : PulseFields => fields.length = 3) (notePulse st.2 e) := by
    rw [notePulse]
    split
    · rename_i hn
      obtain ⟨i, hi⟩ := exists_position?.2 (show -((3 : Nat) : Int) ≤ e.awg ∧ e.awg < ((3 : Nat) : Int) from h hn)
      rw [hl, hi]
      exact (length_set ..).trans hl
    · exact hl
  refine hpulse.bind fun fields hf => ?_
  split
  · exact (triggerText_reports e).bind fun _ _ => hf
  · split
    · exact hf
    · exact hf

theorem bodyFrom_reports (h : ∀ e ∈ events g, e.name = "pulse" → -3 ≤ e.awg ∧ e.awg < 3) (t : Int) :
    Reports (fun _ => True) (bodyFrom t g) := by
  induction g generalizing t with
  | nil => trivial
  | cons p r ih =>
    rw [events_cons, forall_mem_append] at h
    have hpoint : Reports (fun _ => True) (pointText p) :=
      Ends.bind (Ends.foldlM (fun st hst e he => noteEvent_reports hst (h.1 e he)) rfl) fun _ _ => trivial
    rw [bodyFrom]
    exact hpoint.bind fun _ _ => (ih h.2 _).bind fun _ _ => trivial

/-- A point without lines has no event that is written. -/
theorem pointText_eq_nil {p : TimePoint HwEvent} {here : List String} (h : pointText p = .ok here) :
    here = [] ↔ ∀ e ∈ p.events, ¬(e.name = "pulse" ∨ e.name = "trigger" ∨ e.name = "measure") := by
  obtain ⟨out, fields, rfl, hw⟩ := pointText_written h
  rw [append_eq_nil_iff]
  constructor
  · rintro ⟨rfl, hfields⟩ e he (hn | hn | hn)
    · obtain ⟨i, cw, -, hi⟩ := hw.pulses e he hn
      have hany : fields.any Option.isSome = true := any_eq_true.2 ⟨some cw, mem_of_getElem? hi, rfl⟩
      rw [pulseLines, if_pos hany] at hfields
      cases hfields
    · obtain ⟨l, hl, -⟩ := hw.triggers e he hn
      cases hl
    · cases hw.measures e he hn
  · intro hnone
    constructor
    · refine eq_nil_iff_forall_not_mem.2 fun l hl => ?_
      obtain ⟨e, he, ⟨hn, -⟩ | ⟨hn, -⟩⟩ := hw.lines l hl
      · exact hnone e he (.inr (.inl hn))
      · exact hnone e he (.inr (.inr hn))
    · rw [pulseLines, if_neg]
      intro hany
      obtain ⟨_ | cw, hf, hsome⟩ := any_eq_true.1 hany
      · cases hsome
      · obtain ⟨i, hi⟩ := mem_iff_getElem?.1 hf
        obtain ⟨e, he, hn, -⟩ := hw.fields i cw hi
        exact hnone e he (.inl hn)

theorem bodyFrom_eq_nil {lines : List String} (h : bodyFrom t g = .ok lines) :
    lines = [] ↔ ∀ p ∈ g, p.time = t ∧ ∀ e ∈ p.events, ¬(e.name = "pulse" ∨ e.name = "trigger" ∨ e.name = "measure") := by
  induction g generalizing t lines with
  | nil =>
    cases h
    simp
  | cons p r ih =>
    obtain ⟨here, rest, hhere, hrest, rfl⟩ := bodyFrom_cons.1 h
    have hwait : waitLines (p.time - t) = [] ↔ p.time = t := by
      rw [waitLines]
      split <;> simp <;> omega
    rw [append_eq_nil_iff, append_eq_nil_iff, hwait, pointText_eq_nil hhere, ih hrest, forall_mem_cons]
    constructor
    · rintro ⟨⟨rfl, hp⟩, hr⟩
      exact ⟨⟨rfl, hp⟩, hr⟩
    · rintro ⟨⟨rfl, hp⟩, hr⟩
      exact ⟨⟨rfl, hp⟩, hr⟩

theorem heard_iff {body : List String} (h : bodyFrom 0 g = .ok body) : Heard g ↔ body ≠ [] := by
  rw [Heard, Ne, bodyFrom_eq_nil h]
  push Not
  refine exists_congr fun p => and_congr_right fun _ => ?_
  by_cases ht : p.time = 0 <;> simp [ht]

theorem emit_reports {loop : Bool} (h : ∀ e ∈ events g, e.name = "pulse" → -3 ≤ e.awg ∧ e.awg < 3)
    (hh : loop = false → ∀ body, bodyFrom 0 g = .ok body → Heard g) : Reports (fun _ => True) (emit loop g) := by
  have hbody : Reports (bodyFrom 0 g = .ok ·) (bodyFrom 0 g) :=
    reports_of_error fun e he => (ends_iff.1 (bodyFrom_reports h 0)).2 e he
  refine hbody.bind fun body hbody => ?_
  cases loop with
  | true => trivial
  | false =>
    have hne : body.isEmpty = false := isEmpty_eq_false_iff.2 ((heard_iff hbody).1 (hh rfl body hbody))
    simp only [Bool.false_eq_true, if_false, nil_append, hne]
    trivial

theorem generator_of_bodyFrom {lines : List String} (h : bodyFrom t g = .ok lines) (he : e ∈ events g)
    (hn : e.name = "pulse") : -3 ≤ e.awg ∧ e.awg < 3 := by
  induction g generalizing t lines with
  | nil => cases he
  | cons p r ih =>
    obtain ⟨here, rest, hhere, hrest, -⟩ := bodyFrom_cons.1 h
    rcases mem_append.1 (events_cons p r ▸ he) with he | he
    · obtain ⟨out, fields, -, hw⟩ := pointText_written hhere
      obtain ⟨i, -, hi, -⟩ := hw.pulses e he hn
      exact exists_position?.1 ⟨i, hi⟩
    · exact ih hrest he

theorem heard_of_emit {lines : List String} (h : emit false g = .ok lines) : Heard g := by
  obtain ⟨body, hbody, h⟩ := bind_eq_ok.1 h
  refine (heard_iff hbody).2 ?_
  rintro rfl
  cases h

end

/-! ## Whole programs -/

/-- The names with which a session starts a program. -/
def Session.startNames (s : Session) (cfg : Config) : QubitNames :=
  match cfg.qubitMap with
  | some m => { map := m, fixed := true }
  | none => { map := s.map, fixed := s.fixed }

theorem compileWith_eq (s : Session) (cfg : Config) (loop : Bool) (text : String) :
    (s.compileWith cfg loop text).2 = (do
      let ops ← parseProgram cfg text
      let lines ← (QubitNames.collect cfg.physical (s.startNames cfg) 0 ops).2
      compileNamed cfg loop text ops (QubitNames.collect cfg.physical (s.startNames cfg) 0 ops).1 lines) := by
  rw [Session.compileWith, Session.startNames]
  rcases parseProgram cfg text with e | ops
  · rfl
  cases cfg.qubitMap
  all_goals
    dsimp only [bind, Except.bind]
    generalize QubitNames.collect cfg.physical _ 0 ops = r
    rcases r with ⟨names, _ | lines⟩ <;> rfl

/-- **What a program needs** in order not to end in an error from within: its operations can be read, the lines that are
left when names are collected find all they need, and if it does not loop there is something to write. -/
structure Sturdy (s : Session) (cfg : Config) (loop : Bool) (text : String) : Prop where
  legible : ∀ l ∈ programLines text, ∀ part ∈ parallelParts l.content, Legible cfg part
  provided : ∀ ops names lines, parseProgram cfg text = .ok ops →
    QubitNames.collect cfg.physical (s.startNames cfg) 0 ops = (names, .ok lines) → Provided cfg names lines
  heard : loop = false → ∀ c, (s.compileWith cfg true text).2 = .ok c → Heard c.final

section
variable {cfg : Config} {loop : Bool} {parsed lines : List (List SourceOp)}

theorem bind_error_of_ok {β : Type} {x : Step α} {f : α → Step β} {a : α} {e : CompileError} (hx : x = .ok a)
    (h : (x >>= f) = .error e) : f a = .error e := by
  rw [hx] at h
  exact h

theorem events_shiftBy (d : Int) (g : Grid HwEvent) : events (shiftBy d g) = events g := by
  simp [events, shiftBy, flatMap_map]

/-- Behind the names, lines that find all they need end in reported errors only. -/
theorem compileNamed_error (hl : ReadLines cfg lines) (hp : Provided cfg names lines)
    (hh : loop = false → ∀ c, compileNamed cfg true text parsed names lines = .ok c → Heard c.final) {e : CompileError}
    (h : compileNamed cfg loop text parsed names lines = .error e) : e.reported = true := by
  obtain ⟨timedOps, grid, hops, hgrid⟩ := hp.exists_timed hl
  have hgates := events_timingGrid hp.timed hl hops hgrid
  obtain ⟨latent, hlat⟩ := hp.exists_latent hgates
  by_cases hmap : names.map.isEmpty = true
  · rw [compileNamed, if_pos hmap] at h
    cases h
    rfl
  rw [compileNamed, if_neg hmap] at h
  replace h := bind_error_of_ok hops h
  replace h := bind_error_of_ok hgrid h
  replace h := bind_error_of_ok hlat h
  rcases bind_eq_error.1 h with h | ⟨least, hleast, h⟩
  · rw [leastLatency_error h]
    rfl
  obtain ⟨conv, hconv⟩ := hp.exists_converted hgates hlat least
  replace h := bind_error_of_ok hconv h
  have hsendable : ∀ e ∈ events conv, Sendable e ∧ e.setBits = [] := by
    intro e he
    obtain ⟨g, hg, hev⟩ := (mem_hardwareGrid hgates hlat hconv).2 e he
    obtain ⟨e', he', hs⟩ := hp.event hg
    cases hev.symm.trans he'
    exact ⟨hs, (hwEventOf_raw hev).2⟩
  rcases bind_eq_error.1 h with h | ⟨staged, hstaged, h⟩
  · exact (ends_iff.1 (splitTriggers_reports conv)).2 e h
  have hcodable : ∀ e ∈ events staged, Codable e ∧ e.setBits = [] := by
    intro e he
    rcases (mem_splitTriggers hstaged).1 he with ⟨e₀, he₀, hmem⟩ | ⟨p, hlast, he⟩
    · obtain ⟨x, hx, rfl⟩ := mem_map.1 hmem
      obtain ⟨hs, hraw⟩ := hsendable e₀ he₀
      exact ⟨hs.stages x hx, (name_of_mem_stagesOf hx).2.trans hraw⟩
    · refine ⟨hp.ending conv ?_ p hlast e he, (hsendable e (mem_getLast? hlast he)).2⟩
      exact bind_eq_ok.2 ⟨_, hops, bind_eq_ok.2 ⟨_, hgrid, bind_eq_ok.2 ⟨_, hlat, bind_eq_ok.2 ⟨_, hleast, hconv⟩⟩⟩⟩
  rcases bind_eq_error.1 h with h | ⟨coded, hcoded, h⟩
  · exact (ends_iff.1 (applyCodewords_reports fun e he => (hcodable e he).1)).2 e h
  have hbits : ∀ e ∈ events coded, e.name = "trigger" → ∀ b ∈ e.setBits, -8 ≤ b ∧ b < 8 := by
    intro e he hn
    rcases (mem_applyCodewords hcoded).1 he with ⟨e₀, he₀, hmem⟩ | ⟨p, hlast, he⟩
    · obtain ⟨x, hx, rfl⟩ := mem_map.1 hmem
      obtain ⟨hn₀, hbits⟩ := bits_of_mem_codedOf hx hn
      exact ((hcodable e₀ he₀).1 hn₀).2 _ hbits
    · rw [(hcodable e (mem_getLast? hlast he)).2]
      simp
  rcases bind_eq_error.1 h with h | ⟨divided, hdiv, h⟩
  · exact (ends_iff.1 (divideTriggers_reports hbits)).2 e h
  rcases bind_eq_error.1 h with h | ⟨lines', -, h⟩
  · refine (ends_iff.1 (emit_reports (fun e he hn => ?_) fun hf body hbody => ?_)).2 e h
    · rw [events_shiftBy, mem_passes hstaged hcoded hdiv hn] at he
      exact (hsendable e he).1.generator hn
    · -- as a loop the program is written, whatever its lines
      obtain ⟨asm, hasm⟩ : ∃ asm, emit true (shiftBy (shiftOf divided) divided) = .ok asm :=
        ⟨_, bind_eq_ok.2 ⟨body, hbody, rfl⟩⟩
      obtain ⟨c, hc, hfinal⟩ : ∃ c, compileNamed cfg true text parsed names lines = .ok c ∧
          c.final = shiftBy (shiftOf divided) divided := by
        rw [compileNamed, if_neg hmap]
        exact ⟨_, bind_eq_ok.2 ⟨_, hops, bind_eq_ok.2 ⟨_, hgrid, bind_eq_ok.2 ⟨_, hlat, bind_eq_ok.2 ⟨_, hleast,
          bind_eq_ok.2 ⟨_, hconv, bind_eq_ok.2 ⟨_, hstaged, bind_eq_ok.2 ⟨_, hcoded, bind_eq_ok.2 ⟨_, hdiv,
            bind_eq_ok.2 ⟨asm, hasm, rfl⟩⟩⟩⟩⟩⟩⟩⟩⟩, rfl⟩
      exact hfinal ▸ hh hf c hc
  · cases h

theorem physicalQubits_of_resolveLines {timedOps : List (List TimedOp)} (h : resolveLines names lines = .ok timedOps)
    {l : List SourceOp} (hl : l ∈ lines) (hop : op ∈ l) (hg : op.kind.isGate = true) :
    ∃ qs, physicalQubits names op.params = .ok qs := by
  obtain ⟨ops, -, hline⟩ := mapM_ok_mem h hl
  obtain ⟨rs, hrs, -⟩ := bind_eq_ok.1 hline
  obtain ⟨r, -, hr⟩ := mapM_ok_mem hrs hop
  have hw : (op.kind == .wait) = false := by cases hk : op.kind <;> rw [hk] at hg <;> first | rfl | cases hg
  rw [resolveOp, hw, if_neg (by decide), if_pos hg] at hr
  obtain ⟨qs, hqs, -⟩ := bind_eq_ok.1 hr
  exact ⟨qs, hqs⟩

theorem provided_of_compileNamed {c : Compilation} (hl : ReadLines cfg lines)
    (h : compileNamed cfg loop text parsed names lines = .ok c) : Provided cfg names lines := by
  obtain ⟨hst, -, rfl⟩ := compileNamed_stages h
  have htimed : ∀ l ∈ lines, ∀ op ∈ l, op.declares = false := by
    intro l hmem op hop
    by_contra hd
    have hone := hl.alone l hmem op hop (by cases hk : op.kind <;> simp_all [SourceOp.declares, EventKind.isAlone])
    exact hd (linePoint_declares hst.resolved hst.placed (hone ▸ hmem))
  have hgates := events_timingGrid htimed hl hst.resolved hst.placed
  have hcodable := codable_of_passes hst.coded hst.divided
  have hsendable : ∀ e ∈ events c.converted, Sendable e := by
    intro e he
    refine ⟨fun hn => ?_, fun x hx => ?_⟩
    · obtain ⟨body, hbody, -⟩ := emit_eq hst.assembly
      rw [← mem_passes hst.staged hst.coded hst.divided hn, ← events_shiftBy (shiftOf c.divided)] at he
      exact generator_of_bodyFrom hbody he hn
    · exact hcodable _ ((mem_splitTriggers hst.staged).2 (.inl ⟨e, he, mem_map_of_mem hx⟩))
  refine ⟨htimed, fun l hmem op hop hg => ?_, fun l hmem op hop hg q hq => ?_, fun g hg p hlast e he => ?_⟩
  · obtain ⟨n, hn⟩ := exists_mem_of_ne_nil _ (qubitsOf_ne_nil hgates hst.latent l hmem op hop hg)
    obtain ⟨q, hq, -⟩ := (mem_qubitsOf hg).1 hn
    exact ne_nil_of_mem hq
  · obtain ⟨qs, hqs⟩ := physicalQubits_of_resolveLines hst.resolved hmem hop hg
    obtain ⟨n, -, hn⟩ := physicalQubits_inv hqs q hq
    obtain ⟨e, he, hev⟩ := (mem_hardwareGrid hgates hst.latent hst.converted).1 (gateOn op n)
      ⟨l, hmem, op, hop, hg, n, (mem_qubitsOf hg).2 ⟨q, hq, hn⟩, rfl⟩
    exact ⟨n, e, hn, hev, hsendable e he⟩
  · have hconv : convertedGrid cfg c.names lines = .ok c.converted :=
      bind_eq_ok.2 ⟨_, hst.resolved, bind_eq_ok.2 ⟨_, hst.placed, bind_eq_ok.2 ⟨_, hst.latent, bind_eq_ok.2
        ⟨_, hst.least, hst.converted⟩⟩⟩⟩
    cases hconv.symm.trans hg
    exact hcodable e ((mem_splitTriggers hst.staged).2 (.inr ⟨p, hlast, he⟩))

theorem Stages.final_eq {loop' : Bool} {c c' : Compilation} (h : Stages cfg loop lines c) (h' : Stages cfg loop' lines c')
    (hnames : c.names = c'.names) : c.final = c'.final := by
  have hresolved : c.timedOps = c'.timedOps := Except.ok.inj (h.resolved.symm.trans (hnames ▸ h'.resolved))
  have hplaced : c.timed = c'.timed := Except.ok.inj (h.placed.symm.trans (hresolved ▸ h'.placed))
  have hlatent : c.latent = c'.latent := Except.ok.inj (h.latent.symm.trans (hplaced ▸ h'.latent))
  have hleast : c.least = c'.least := Except.ok.inj (h.least.symm.trans h'.least)
  have hconverted : c.converted = c'.converted :=
    Except.ok.inj (h.converted.symm.trans (hlatent ▸ hleast ▸ h'.converted))
  have hstaged : c.staged = c'.staged := Except.ok.inj (h.staged.symm.trans (hconverted ▸ h'.staged))
  have hcoded : c.coded = c'.coded := Except.ok.inj (h.coded.symm.trans (hstaged ▸ h'.coded))
  have hdivided : c.divided = c'.divided := Except.ok.inj (h.divided.symm.trans (hcoded ▸ h'.divided))
  rw [h.final, h'.final, hdivided]

end

section
variable {s : Session} {cfg : Config} {loop : Bool}

theorem Sturdy.reported (hs : Sturdy s cfg loop text) {e : CompileError} (h : (s.compileWith cfg loop text).2 = .error e) :
    e.reported = true := by
  have hheard := hs.heard
  simp only [compileWith_eq] at hheard
  rw [compileWith_eq] at h
  rcases bind_eq_error.1 h with h | ⟨ops, hops, h⟩
  · exact parseProgram_error hs.legible h
  rcases bind_eq_error.1 h with h | ⟨lines, hlines, h⟩
  · exact collect_error h
  have hcollect : QubitNames.collect cfg.physical (s.startNames cfg) 0 ops = (_, .ok lines) := Prod.ext rfl hlines
  have hread := (ReadLines.of_parseProgram hops).sublist (collect_playedLines hcollect).2
  refine compileNamed_error hread (hs.provided ops _ lines hops hcollect) (fun hf c hc => hheard hf c ?_) h
  exact bind_eq_ok.2 ⟨ops, hops, bind_eq_ok.2 ⟨lines, hlines, hc⟩⟩

theorem sturdy_of_compileWith {c : Compilation} (h : (s.compileWith cfg loop text).2 = .ok c) : Sturdy s cfg loop text := by
  rw [compileWith_eq] at h
  obtain ⟨ops, hops, h⟩ := bind_eq_ok.1 h
  obtain ⟨lines, hlines, h⟩ := bind_eq_ok.1 h
  have hcollect : QubitNames.collect cfg.physical (s.startNames cfg) 0 ops = (_, .ok lines) := Prod.ext rfl hlines
  have hread := (ReadLines.of_parseProgram hops).sublist (collect_playedLines hcollect).2
  refine ⟨legible_of_parseProgram hops, fun ops' names lines' hops' hcollect' => ?_, fun hf c' hc' => ?_⟩
  · cases hops.symm.trans hops'
    obtain ⟨rfl, hout⟩ := Prod.mk.inj (hcollect.symm.trans hcollect')
    cases hout
    exact provided_of_compileNamed hread h
  · subst hf
    rw [compileWith_eq] at hc'
    obtain ⟨ops', hops', hc'⟩ := bind_eq_ok.1 hc'
    cases hops.symm.trans hops'
    obtain ⟨lines', hlines', hc'⟩ := bind_eq_ok.1 hc'
    cases hlines.symm.trans hlines'
    obtain ⟨hst, -, hnames⟩ := compileNamed_stages h
    obtain ⟨hst', -, hnames'⟩ := compileNamed_stages hc'
    rw [← hst.final_eq hst' (hnames.trans hnames'.symm), hst.final]
    exact heard_of_emit hst.assembly

end

/-- **Errors of a compilation.** A program that finds all it needs compiles or ends in a reported error, and a program that
compiles has found all it needs. -/
theorem compile_errors (s : Session) {config : Value} {cfg : Config} (hc : Config.load config = .ok cfg) (loop : Bool)
    (text : String) :
    (Sturdy s cfg loop text → ∀ e, (s.compile config loop text).2 = .error e → e.reported = true) ∧
      ∀ c, (s.compile config loop text).2 = .ok c → Sturdy s cfg loop text := by
  rw [Session.compile, hc]
  exact ⟨fun hs e he => hs.reported he, fun c h => sturdy_of_compileWith h⟩

/-- A qubit with a generator and one gate. -/
def oneQubit : Value :=
  .record [
    ("operation dictionary", .record [
      ("x", .record [("parameters", .int 1), ("duration", .int 20), ("type", .text "rf")])]),
    ("hardware specification", .record [
      ("qubit list", .ofInts [0]), ("init time", .int 200000), ("cycle time", .int 5),
      ("qubit_cfgs", .list [.record [
        ("rf", .record [("qumis", .text "pulse"), ("latency", .int 0), ("awg_nr", .int 0), ("lut", .int 0)])]])]),
    ("luts", .list [.record [("x", .int 1)]])]

/-- A program that plays its gate finds all it needs. -/
theorem compile_errors_oneQubit : ∃ cfg, Config.load oneQubit = .ok cfg ∧
    Sturdy {} cfg true "qubit q0\nmap q0 0\nx q0" ∧
    ∀ e, (Session.compile {} oneQubit true "qubit q0\nmap q0 0\nx q0").2 = .error e → e.reported = true := by
  have hload : (Config.load oneQubit).isOk = true := by decide +kernel
  have hcompiles : ((Session.compile {} oneQubit true "qubit q0\nmap q0 0\nx q0").2.map (·.least)).isOk = true := by
    decide +kernel
  rcases hc : Config.load oneQubit with e | cfg
  · rw [hc] at hload
    cases hload
  rcases hr : (Session.compile {} oneQubit true "qubit q0\nmap q0 0\nx q0").2 with e | c
  · rw [hr] at hcompiles
    cases hcompiles
  have hsturdy := (compile_errors {} hc true "qubit q0\nmap q0 0\nx q0").2 c hr
  exact ⟨cfg, rfl, hsturdy, hr ▸ (compile_errors {} hc true _).1 hsturdy⟩

/-- Errors from within: a qubit that is not mapped, a declaration behind parallel gates, and a program that writes
nothing. -/
theorem compile_innerErrors :
    (Session.compile {} oneQubit true "qubit q0\nmap q0 0\nx q1").2.map (·.assembly) = .error .keyMissing ∧
      (Session.compile {} oneQubit true "qubit q0\nmap q0 0\nx q0 | x q0\nqubit q1").2.map (·.assembly) =
        .error .indexInvalid ∧
      (Session.compile {} oneQubit false "qubit q0\nmap q0 0").2.map (·.assembly) = .error .indexInvalid ∧
      CompileError.keyMissing.reported = false ∧ CompileError.indexInvalid.reported = false := by
  decide +kernel

end QubitLab.Qasm
