import QubitLab.Proofs.GridPasses
import QubitLab.Proofs.KeyedLists
import QubitLab.Proofs.Playback

/-!
# Timing of compiled pulses

For configurations whose channels are all pulse channels, the pulses that a compiled program plays are read off the
program itself: `startsFrom` gives each line the sum of the lengths of the lines before it and lists its gates with
their qubits, and `pulseOf?` is the pulse of a gate, ahead of its line by how much the latency of its channel exceeds
the least one. `compileWith_playLoop`: one pass of the loop plays these pulses, all moved by one shift that is not
negative, and lasts as long as the program and the shift. It holds for programs whose lines have no negative length
(`compileWith_negativeLength` plays a pulse at a wrong time), and a gate without a pulse still plays one when it
is called `pulse` (`compileWith_dummyPulse`).
-/

namespace QubitLab.Qasm

open List

/-! ## The schedule of a program -/

/-- The operation declares or maps qubits. -/
def SourceOp.declares (op : SourceOp) : Bool := op.kind == .declare || op.kind == .map

/-- The lines that take time. -/
def playedLines (lines : List (List SourceOp)) : List (List SourceOp) := lines.filter fun l => !l.any SourceOp.declares

/-- The clocks of a wait: those that it names, else the time of an initialisation. -/
def waitLength (cfg : Config) (op : SourceOp) : Int :=
  if ((cfg.operations.lookup op.name).bind fun o => o.arity.toOption.bind (·.count)) = some 1 then op.wait
  else cfg.initClocks

/-- The clocks of a gate. -/
def gateLength (cfg : Config) (op : SourceOp) : Int := ((cfg.operations.lookup op.name).map (·.duration)).getD 0

/-- The clocks of a line: its wait, or the greatest of its gates that start together. -/
def lineLength (cfg : Config) : List SourceOp → Int
  | [] => 0
  | op :: ops => if op.kind = .wait then waitLength cfg op else ((op :: ops).map (gateLength cfg)).max?.getD 0

/-- The clocks of lines one after the other. -/
def programLength (cfg : Config) (lines : List (List SourceOp)) : Int := total (lines.map (lineLength cfg))

/-- The physical qubits that an operation acts on. -/
def qubitsOf (map : List (String × Step Int)) (op : SourceOp) : List Int :=
  if op.kind.isGate then op.params.filterMap fun q => (map.lookup q).bind Except.toOption else []

/-- The gates of lines with their starts, when the first line starts at a time. -/
def startsFrom (cfg : Config) (map : List (String × Step Int)) (t : Int) : List (List SourceOp) →
    List (Int × SourceOp × Int)
  | [] => []
  | l :: r => (l.flatMap fun op => (qubitsOf map op).map fun q => (t, op, q)) ++
      startsFrom cfg map (t + lineLength cfg l) r

/-- The least latency of all channels. -/
def leastOf (cfg : Config) : Int := (cfg.qubits.flatMap fun chs => chs.map (·.2.latency)).min?.getD 0

/-- The pulse of a gate on a qubit: the codeword of the gate, in three bits, on the generator of its channel. Gates
with the dummy codeword have none, except one that is called `pulse`. -/
def pulseOf? (cfg : Config) : Int × SourceOp × Int → Option Pulse
  | (t, op, q) => do
    let ch ← (channelFor cfg q op.kind).toOption
    let awg ← ch.awg.toOption
    let table ← ch.table.toOption
    let cw ← (codewordOf cfg table op.name).toOption
    if cw = dummyCodeword ∧ op.name ≠ "pulse" then none
    else some ⟨t - (ch.latency - leastOf cfg), awg, cw % 8⟩

/-- The pulses of a program. -/
def scheduled (cfg : Config) (map : List (String × Step Int)) (lines : List (List SourceOp)) : List Pulse :=
  (startsFrom cfg map 0 lines).filterMap (pulseOf? cfg)

variable {cfg : Config} {op : SourceOp} {text : String} {lines : List (List SourceOp)} {names : QubitNames}
  {l : List SourceOp} {map : List (String × Step Int)} {pts : List (TimePoint Gate)} {g : Gate} {loop : Bool}
  {c : Compilation}

theorem orError_eq_ok {α : Type} {e : CompileError} {x : Option α} {a : α} : orError e x = .ok a ↔ x = some a := by
  cases x <;> simp [orError]

section
variable {line count : Nat} {part : List Char}

/-- How an operation is read, with the checks in their order. -/
theorem parseOperation_eq {name : String} {params : List String}
    (h : (Chars.words part).map String.ofList = name :: params) :
    parseOperation cfg line count part = (do
      let op ← orError (.operationUnknown line name) (cfg.operations.lookup name)
      if op.kind.isAlone && count != 1 then .error (.notAlone line name)
      else if name == "qubit" && params.isEmpty then .error (.noQubitDeclared line)
      else do
        let arity ← op.arity
        if name != "qubit" && arity.count != some params.length then
          .error (.parameterCount line name arity.shown (shownParams params))
        else match op.kind, arity.count, params with
          | .wait, some 1, [ns] => do
            let k ← waitClocks cfg.cycle ns
            return ⟨line, op.kind, name, params, k⟩
          | _, _, _ => return ⟨line, op.kind, name, params, 0⟩) := by
  rw [parseOperation, h]
  refine bind_congr fun op => ?_
  dsimp only
  split
  · rfl
  split
  · rfl
  refine bind_congr fun arity => ?_
  split <;> rfl

/-- What an operation that has been read was made of. -/
theorem parseOperation_inv (h : parseOperation cfg line count part = .ok op) :
    ∃ params o a, (Chars.words part).map String.ofList = op.name :: params ∧ cfg.operations.lookup op.name = some o ∧
      o.arity = .ok a ∧ op.kind = o.kind ∧ (o.kind.isAlone = true → count = 1) ∧
      ∀ ns, params = [ns] → o.kind = .wait → a.count = some 1 → waitClocks cfg.cycle ns = .ok op.wait := by
  rcases hwords : (Chars.words part).map String.ofList with _ | ⟨name, params⟩
  · rw [parseOperation, hwords] at h
    cases h
  rw [parseOperation_eq hwords] at h
  obtain ⟨o, ho, h⟩ := bind_eq_ok.1 h
  split at h
  · cases h
  rename_i hcount
  have halone : o.kind.isAlone = true → count = 1 := fun hk => by simpa [hk] using hcount
  split at h
  · cases h
  obtain ⟨a, ha, h⟩ := bind_eq_ok.1 h
  split at h
  · cases h
  split at h
  · obtain ⟨k, hk, h⟩ := bind_eq_ok.1 h
    cases h
    refine ⟨_, o, a, rfl, orError_eq_ok.1 ho, ha, rfl, halone, fun ns hns _ _ => ?_⟩
    cases hns
    exact hk
  · rename_i hnot _ _ _ _
    cases h
    exact ⟨_, o, a, rfl, orError_eq_ok.1 ho, ha, rfl, halone, fun ns hns hk hcount => (hnot ns hk hcount hns).elim⟩

end

theorem parseProgram_alone
    (h : parseProgram cfg text = .ok lines) : ∀ l ∈ lines, ∀ op ∈ l, op.kind.isAlone = true → l = [op] := by
  intro l hl op hop hk
  obtain ⟨line, -, hline⟩ := mapM_ok_of_mem h hl
  obtain ⟨part, -, hpart⟩ := mapM_ok_of_mem hline hop
  have hlen : l.length = 1 := by
    rw [← (mapM_eq_ok.1 hline).length_eq]
    obtain ⟨-, o, -, -, -, -, hkind, hcount, -⟩ := parseOperation_inv hpart
    exact hcount (hkind ▸ hk)
  obtain ⟨x, rfl⟩ := length_eq_one_iff.1 hlen
  rw [mem_singleton.1 hop]

/-- What collecting names does with one line: a declaration is taken out, or the line stays in front of what is left. -/
theorem collect_cons {physical : List Int} {names' : QubitNames} {k : Nat}
    {r out : List (List SourceOp)} (h : QubitNames.collect physical names k (l :: r) = (names', .ok out)) :
    (∃ op n, k = 0 ∧ l = [op] ∧ op.declares = true ∧ names.step physical op = (n, none) ∧
      QubitNames.collect physical n 0 r = (names', .ok out)) ∨
    ∃ rest, out = l :: rest ∧ (k = 0 → ∀ op, l = [op] → op.declares = false) ∧
      QubitNames.collect physical names (if k = 0 then l.length - 1 else k - 1) r = (names', .ok rest) := by
  have hstay {k : Nat} (hk : ((QubitNames.collect physical names k r).1,
      (QubitNames.collect physical names k r).2.map (l :: ·)) = (names', .ok out)) :
      ∃ rest, out = l :: rest ∧ QubitNames.collect physical names k r = (names', .ok rest) := by
    obtain ⟨hn, hk⟩ := Prod.mk.inj hk
    obtain ⟨rest, hrest, rfl⟩ := map_eq_ok.1 hk
    exact ⟨rest, rfl, Prod.ext hn hrest⟩
  cases k with
  | succ k =>
    obtain ⟨rest, hout, hrest⟩ := hstay h
    exact .inr ⟨rest, hout, by simp, hrest⟩
  | zero =>
    rcases l with _ | ⟨op, _ | ⟨op', l⟩⟩
    · obtain ⟨rest, hout, hrest⟩ := hstay h
      exact .inr ⟨rest, hout, by simp, hrest⟩
    · rw [QubitNames.collect] at h
      split at h
      · rename_i hd
        split at h
        · cases h
        · exact .inl ⟨op, _, rfl, rfl, hd, ‹_›, h⟩
      · rename_i hd
        obtain ⟨rest, hout, hrest⟩ := hstay h
        refine .inr ⟨rest, hout, fun _ x hx => ?_, hrest⟩
        rw [← singleton_inj.1 hx]
        simpa [SourceOp.declares] using hd
    · obtain ⟨rest, hout, hrest⟩ := hstay h
      exact .inr ⟨rest, hout, by simp, hrest⟩

theorem collect_playedLines {physical : List Int} {out : List (List SourceOp)} {names' : QubitNames} {k : Nat}
    (h : QubitNames.collect physical names k lines = (names', .ok out)) :
    playedLines out = playedLines lines ∧ out.Sublist lines := by
  induction lines generalizing out names k with
  | nil =>
    cases h
    exact ⟨rfl, .slnil⟩
  | cons l lines ih =>
    obtain ⟨op, n, -, rfl, hd, -, hrest⟩ | ⟨rest, rfl, -, hrest⟩ := collect_cons h
    · obtain ⟨hplayed, hsub⟩ := ih hrest
      refine ⟨?_, hsub.cons _⟩
      rw [hplayed, playedLines, playedLines, filter_cons_of_neg (by simp [hd])]
    · obtain ⟨hplayed, hsub⟩ := ih hrest
      simp only [playedLines, filter_cons] at hplayed ⊢
      exact ⟨by rw [hplayed], hsub.cons_cons l⟩

theorem playedLines_declares (hl : l ∈ playedLines lines) : ∀ op ∈ l, op.declares = false := by
  have := (mem_filter.1 hl).2
  rw [Bool.not_eq_true', any_eq_false] at this
  simpa using this

/-! ## The points of lines -/

/-- The gate of an operation on all its qubits. -/
def wholeGate (map : List (String × Step Int)) (op : SourceOp) : Gate := ⟨op.line, op.kind, op.name, qubitsOf map op, 0⟩

/-- The gate of an operation on one of its qubits. -/
def gateOn (op : SourceOp) (q : Int) : Gate := ⟨op.line, op.kind, op.name, [q], 0⟩

theorem physicalQubits_eq {params : List String} {qs : List Int} (h : physicalQubits names params = .ok qs) :
    qs = params.filterMap fun q => (names.map.lookup q).bind Except.toOption := by
  replace h := mapM_eq_ok.1 h
  induction h with
  | nil => rfl
  | @cons q n _ _ hq _ ih =>
    obtain ⟨target, hlook, rfl⟩ := bind_eq_ok.1 hq
    rw [filterMap_cons, orError_eq_ok.1 hlook, ih]
    rfl

theorem resolveOp_gate (hg : op.kind.isGate = true) {r : List TimedOp}
    (h : resolveOp names op = .ok r) : r = [.gate (wholeGate names.map op)] := by
  have hw : (op.kind == .wait) = false := by cases hk : op.kind <;> rw [hk] at hg <;> first | rfl | cases hg
  rw [resolveOp, hw, if_neg (by decide), if_pos hg] at h
  obtain ⟨qs, hqs, h⟩ := bind_eq_ok.1 h
  cases h
  rw [wholeGate, qubitsOf, if_pos hg, physicalQubits_eq hqs]

theorem linePoint_gates {ops : List SourceOp}
    {p : TimePoint Gate} (h : linePoint cfg ((op :: ops).map fun o => .gate (wholeGate map o)) = .ok p) :
    p.wait = ((op :: ops).map (gateLength cfg)).max?.getD 0 ∧ p.events = (op :: ops).map (wholeGate map) := by
  rw [map_cons, linePoint] at h
  obtain ⟨gates, hgates, h⟩ := bind_eq_ok.1 h
  obtain ⟨ds, hds, h⟩ := bind_eq_ok.1 h
  cases h
  have hall : gates = (op :: ops).map (wholeGate map) := by
    rw [← map_cons (f := fun o => TimedOp.gate (wholeGate map o))] at hgates
    exact mapM_ok_eq_map (mapM_eq_ok.2 (forall₂_map_left_iff.1 (mapM_eq_ok.1 hgates))) fun o _ g h => (Except.ok.inj h).symm
  subst hall
  have hlen : ds = (op :: ops).map (gateLength cfg) := by
    refine mapM_ok_eq_map (mapM_eq_ok.2 (forall₂_map_left_iff.1 (mapM_eq_ok.1 hds))) fun o _ d h => ?_
    obtain ⟨entry, hentry, h⟩ := bind_eq_ok.1 h
    cases h
    rw [gateLength, show cfg.operations.lookup o.name = some entry from orError_eq_ok.1 hentry]
    rfl
  exact ⟨by rw [hlen]; rfl, rfl⟩

/-- The gates of a line, each on all its qubits. -/
def lineGates (map : List (String × Step Int)) (l : List SourceOp) : List Gate :=
  (l.filter (·.kind.isGate)).map (wholeGate map)

theorem lineGates_singles (map : List (String × Step Int)) (l : List SourceOp) :
    ((lineGates map l).flatMap fun g => g.qubits.map fun q => { g with qubits := [q] }) =
      l.flatMap fun op => (qubitsOf map op).map (gateOn op) := by
  induction l with
  | nil => rfl
  | cons op l ih =>
    rw [flatMap_cons, ← ih, lineGates, lineGates, filter_cons]
    by_cases hg : op.kind.isGate = true
    · rw [if_pos hg]
      rfl
    · rw [if_neg hg, qubitsOf, if_neg hg]
      rfl

/-- **The point of a line** waits as long as the line and holds its gates. -/
theorem linePoint_spec {rs : List (List TimedOp)}
    {p : TimePoint Gate} (hd : ∀ op ∈ l, op.declares = false) (ha : ∀ op ∈ l, op.kind.isAlone = true → l = [op])
    (hr : l.mapM (resolveOp names) = .ok rs) (hp : linePoint cfg rs.flatten = .ok p) :
    p.wait = lineLength cfg l ∧ p.events = lineGates names.map l := by
  by_cases hw : ∃ op ∈ l, op.kind = .wait
  · obtain ⟨op, hop, hk⟩ := hw
    obtain rfl := ha op hop (by rw [hk]; rfl)
    have hres : resolveOp names op = .ok [.wait op] := by rw [resolveOp, hk]; rfl
    rw [mapM_cons, hres] at hr
    cases hr
    obtain ⟨entry, hentry, hp⟩ := bind_eq_ok.1 hp
    obtain ⟨arity, harity, hp⟩ := bind_eq_ok.1 hp
    cases hp
    have hlook := orError_eq_ok.1 hentry
    refine ⟨?_, ?_⟩
    · simp only [lineLength, hk, if_true, waitLength, hlook, Option.bind_some, harity, Except.toOption, beq_iff_eq]
    · simp [lineGates, hk, EventKind.isGate]
  · have hg : ∀ op ∈ l, op.kind.isGate = true := by
      intro op hop
      have h1 := hd op hop
      have h2 : op.kind ≠ .wait := fun hk => hw ⟨op, hop, hk⟩
      rw [SourceOp.declares] at h1
      cases hk : op.kind <;> simp_all [EventKind.isGate]
    have hrs := mapM_ok_eq_map hr fun op hop r h => resolveOp_gate (hg op hop) h
    have hflat : rs.flatten = l.map fun o => .gate (wholeGate names.map o) := by
      rw [hrs, ← flatMap_def, map_eq_flatMap]
    rw [hflat] at hp
    cases l with
    | nil => cases hp
    | cons op ops =>
      obtain ⟨hwait, hevents⟩ := linePoint_gates hp
      refine ⟨?_, ?_⟩
      · rw [hwait, lineLength, if_neg fun hk => hw ⟨op, mem_cons_self, hk⟩]
      · rw [hevents, lineGates, filter_eq_self.2 hg]

/-! ## The timing grid -/

/-- A point waits as long as its line and holds the gates of the line. -/
def PointOf (cfg : Config) (map : List (String × Step Int)) (l : List SourceOp) (p : TimePoint Gate) : Prop :=
  p.wait = lineLength cfg l ∧ p.events = lineGates map l

/-- The gates of a grid on single qubits, with their times. -/
def singles (g : Grid Gate) : List (Int × Gate) :=
  (timed g).flatMap fun x => x.2.qubits.map fun q => (x.1, { x.2 with qubits := [q] })

/-- A start as a gate at a time. -/
def startGate (s : Int × SourceOp × Int) : Int × Gate := (s.1, gateOn s.2.1 s.2.2)

theorem singles_withTimes (h : List.Forall₂ (PointOf cfg map) lines pts) (t : Int) :
    singles (withTimes t pts) = (startsFrom cfg map t lines).map startGate := by
  induction h generalizing t with
  | nil => rfl
  | @cons l p lines pts hp _ ih =>
    have hline : (p.events.map fun g => (t, g)).flatMap (fun x : Int × Gate =>
        x.2.qubits.map fun q => (x.1, { x.2 with qubits := [q] })) =
          (l.flatMap fun op => (qubitsOf map op).map (gateOn op)).map fun g => (t, g) := by
      rw [← lineGates_singles, ← hp.2, flatMap_map, map_flatMap]
      simp only [map_map, Function.comp_def]
    rw [withTimes, singles, timed_cons, flatMap_append, startsFrom, map_append, ← hp.1, ← ih, hline,
      map_flatMap, map_flatMap]
    simp only [map_map]
    rfl

theorem timingGrid_points
    {timedOps : List (List TimedOp)}
    (hd : ∀ l ∈ lines, ∀ op ∈ l, op.declares = false)
    (ha : ∀ l ∈ lines, ∀ op ∈ l, op.kind.isAlone = true → l = [op])
    (hr : resolveLines names lines = .ok timedOps) (hp : timedOps.mapM (linePoint cfg) = .ok pts) :
    List.Forall₂ (PointOf cfg names.map) lines pts := by
  replace hr := mapM_eq_ok.1 hr
  replace hp := mapM_eq_ok.1 hp
  induction hr generalizing pts with
  | nil =>
    cases hp
    exact .nil
  | cons hl _ ih =>
    cases hp with
    | cons hpt hpts =>
      obtain ⟨rs, hrs, hl⟩ := bind_eq_ok.1 hl
      cases hl
      rw [forall_mem_cons] at hd ha
      exact .cons (linePoint_spec hd.1 ha.1 hrs hpt) (ih hd.2 ha.2 hpts)

theorem perQubit_eq (h : g.qubits ≠ []) : g.perQubit = g.qubits.map fun q => { g with qubits := [q] } := by
  rw [Gate.perQubit]
  split
  · rfl
  · rename_i hlen
    obtain ⟨q, r, hq⟩ := exists_cons_of_ne_nil h
    rw [hq, length_cons] at hlen
    obtain rfl : r = [] := length_eq_zero_iff.1 (by omega)
    rw [hq, map_singleton, ← hq]

/-! ## Latencies -/

/-- A gate with the latency of its channel. -/
def withLatency (cfg : Config) (g : Gate) : Gate :=
  { g with latency := ((g.qubits.head?.bind fun q => (channelFor cfg q g.kind).toOption).map (·.latency)).getD 0 }

theorem withLatencies_spec {g out : Grid Gate} (h : withLatencies cfg g = .ok out) :
    out = mapEvents (fun e => [withLatency cfg e]) g ∧
      ∀ x ∈ timed g, ∃ q ch, x.2.qubits.head? = some q ∧ channelFor cfg q x.2.kind = .ok ch := by
  have hcases {e b : Gate} (hb : (do
      let q ← orError .indexInvalid e.qubits.head?
      let ch ← channelFor cfg q e.kind
      return { e with latency := ch.latency } : Step Gate) = .ok b) :
      b = withLatency cfg e ∧ ∃ q ch, e.qubits.head? = some q ∧ channelFor cfg q e.kind = .ok ch := by
    obtain ⟨q, hq, hb⟩ := bind_eq_ok.1 hb
    obtain ⟨ch, hch, hb⟩ := bind_eq_ok.1 hb
    cases hb
    have hhead := orError_eq_ok.1 hq
    exact ⟨by simp [withLatency, hhead, hch, Except.toOption], q, ch, hhead, hch⟩
  obtain ⟨hout, hall⟩ := mapM_events (fun e b hb => (hcases hb).1) h
  exact ⟨hout, fun x hx => (hcases (hall x hx)).2⟩

theorem channelFor_mem {q : Int} {kind : EventKind} {ch : Channel} (h : channelFor cfg q kind = .ok ch) :
    ∃ chs ∈ cfg.qubits, (kind.name, ch) ∈ chs := by
  obtain ⟨i, -, h⟩ := bind_eq_ok.1 h
  obtain ⟨chs, hchs, h⟩ := bind_eq_ok.1 h
  exact ⟨chs, mem_of_getElem? (orError_eq_ok.1 hchs), mem_of_lookup (orError_eq_ok.1 h)⟩

theorem minimum?_eq_min? (l : List Int) : minimum? l = l.min? := by cases l <;> rfl

theorem leastLatency_eq {d : Int} (h : leastLatency cfg = .ok d) :
    leastOf cfg = d ∧ ∀ chs ∈ cfg.qubits, ∀ x ∈ chs, d ≤ x.2.latency := by
  obtain ⟨each, heach, h⟩ := bind_eq_ok.1 h
  have hd := orError_eq_ok.1 h
  rw [minimum?_eq_min?, min?_eq_some_iff] at hd
  have hmin {chs : QubitChannels} {m : Int} (hm : orError .valueInvalid (minimum? (chs.map (·.2.latency))) = .ok m) :
      m ∈ chs.map (·.2.latency) ∧ ∀ b ∈ chs.map (·.2.latency), m ≤ b := by
    rw [orError_eq_ok, minimum?_eq_min?, min?_eq_some_iff] at hm
    exact hm
  have hle : ∀ chs ∈ cfg.qubits, ∀ x ∈ chs, d ≤ x.2.latency := by
    intro chs hchs x hx
    obtain ⟨m, hm, hmin'⟩ := mapM_ok_mem heach hchs
    exact Int.le_trans (hd.2 m hm) ((hmin hmin').2 _ (mem_map_of_mem hx))
  refine ⟨?_, hle⟩
  obtain ⟨chs, hchs, hm⟩ := mapM_ok_of_mem heach hd.1
  have hsome : (cfg.qubits.flatMap fun chs => chs.map (·.2.latency)).min? = some d := by
    rw [min?_eq_some_iff]
    refine ⟨mem_flatMap.2 ⟨chs, hchs, (hmin hm).1⟩, fun b hb => ?_⟩
    obtain ⟨chs', hchs', hb⟩ := mem_flatMap.1 hb
    obtain ⟨x, hx, rfl⟩ := mem_map.1 hb
    exact hle chs' hchs' x hx
  rw [leastOf, hsome]
  rfl

/-! ## Hardware events -/

/-- **What a gate becomes**, by the instruction of its channel: a pulse, a trigger without or with a codeword, or nothing. -/
theorem hwEventOf_inv {e : HwEvent} (h : hwEventOf cfg g = .ok e) :
    ∃ q ch instr, g.qubits = [q] ∧ channelFor cfg q g.kind = .ok ch ∧ ch.instruction = .ok instr ∧
      ((instr = "pulse" ∧ ∃ awg table cw, ch.awg = .ok awg ∧ ch.table = .ok table ∧ codewordOf cfg table g.name = .ok cw ∧
          e = { name := if cw = dummyCodeword then g.name else "pulse", codeword := cw, awg := awg }) ∨
        (instr = "trigger" ∧ ∃ bit format, ch.triggerBit = .ok bit ∧ ch.format = .ok format ∧
          ((ch.codewordBits = none ∧ e = { name := "trigger", triggerBit := bit, format := format }) ∨
            ∃ bits table cw, ch.codewordBits = some (.ok bits) ∧ ch.table = .ok table ∧ codewordOf cfg table g.name = .ok cw ∧
              e = { name := if cw = dummyCodeword then g.name else "trigger", codeword := cw
                    triggerBit := bit, format := format, codewordBits := bits })) ∨
        (instr ≠ "pulse" ∧ instr ≠ "trigger" ∧ e = {})) := by
  rw [hwEventOf] at h
  split at h
  · rename_i q hq
    obtain ⟨_, hsame, h⟩ := bind_eq_ok.1 h
    cases hsame
    obtain ⟨ch, hch, h⟩ := bind_eq_ok.1 h
    obtain ⟨instr, hinstr, h⟩ := bind_eq_ok.1 h
    refine ⟨q, ch, instr, hq, hch, hinstr, ?_⟩
    split at h
    · obtain ⟨awg, ha, h⟩ := bind_eq_ok.1 h
      obtain ⟨table, ht, h⟩ := bind_eq_ok.1 h
      obtain ⟨cw, hcw, h⟩ := bind_eq_ok.1 h
      exact .inl ⟨rfl, awg, table, cw, ha, ht, hcw, (Except.ok.inj h).symm⟩
    · obtain ⟨bit, hbit, h⟩ := bind_eq_ok.1 h
      obtain ⟨format, hformat, h⟩ := bind_eq_ok.1 h
      refine .inr (.inl ⟨rfl, bit, format, hbit, hformat, ?_⟩)
      split at h
      · rename_i hnone
        exact .inl ⟨hnone, (Except.ok.inj h).symm⟩
      · rename_i hsome
        obtain ⟨bits, hbits, h⟩ := bind_eq_ok.1 h
        obtain ⟨table, ht, h⟩ := bind_eq_ok.1 h
        obtain ⟨cw, hcw, h⟩ := bind_eq_ok.1 h
        exact .inr ⟨bits, table, cw, hbits ▸ hsome, ht, hcw, (Except.ok.inj h).symm⟩
    · rename_i hp ht
      exact .inr (.inr ⟨hp, ht, (Except.ok.inj h).symm⟩)
  · cases h

/-- The event of a gate; nothing if it has none. -/
def eventOf (cfg : Config) (g : Gate) : HwEvent := (hwEventOf cfg g).toOption.getD {}

theorem hardwareGrid_spec {g : Grid Gate} {out : Grid HwEvent} (h : hardwareGrid cfg g = .ok out) :
    out = mapEvents (fun e => [eventOf cfg e]) g ∧ ∀ x ∈ timed g, hwEventOf cfg x.2 = .ok (eventOf cfg x.2) :=
  mapM_events (fun e b hb => by rw [eventOf, hb]; rfl) h

/-- The hardware event of a start, ahead of it by its latency. -/
def startEvent (cfg : Config) (s : Int × SourceOp × Int) : Int × HwEvent :=
  let x := ahead (leastOf cfg) (s.1, withLatency cfg (gateOn s.2.1 s.2.2))
  (x.1, eventOf cfg x.2)

/-- The stages of a compilation. -/
structure Stages (cfg : Config) (loop : Bool) (lines : List (List SourceOp)) (c : Compilation) : Prop where
  resolved : resolveLines c.names lines = .ok c.timedOps
  placed : timingGrid cfg c.timedOps = .ok c.timed
  latent : withLatencies cfg (splitGates c.timed) = .ok c.latent
  least : leastLatency cfg = .ok c.least
  converted : hardwareGrid cfg (compensate c.least c.latent) = .ok c.converted
  staged : splitTriggers c.converted = .ok c.staged
  coded : applyCodewords c.staged = .ok c.coded
  divided : divideTriggers c.coded = .ok c.divided
  final : c.final = shiftBy (shiftOf c.divided) c.divided
  assembly : emit loop (shiftBy (shiftOf c.divided) c.divided) = .ok c.assembly
  compensated : c.compensated = compensate c.least c.latent

theorem compileNamed_stages {parsed : List (List SourceOp)} (h : compileNamed cfg loop text parsed names lines = .ok c) :
    Stages cfg loop lines c ∧ c.parsed = parsed ∧ c.names = names := by
  rw [compileNamed] at h
  dsimp only at h
  split at h
  · cases h
  obtain ⟨timedOps, h1, h⟩ := bind_eq_ok.1 h
  obtain ⟨timed, h2, h⟩ := bind_eq_ok.1 h
  obtain ⟨latent, h3, h⟩ := bind_eq_ok.1 h
  obtain ⟨least, h4, h⟩ := bind_eq_ok.1 h
  obtain ⟨converted, h5, h⟩ := bind_eq_ok.1 h
  obtain ⟨staged, h6, h⟩ := bind_eq_ok.1 h
  obtain ⟨coded, h7, h⟩ := bind_eq_ok.1 h
  obtain ⟨divided, h8, h⟩ := bind_eq_ok.1 h
  obtain ⟨assembly, h9, h⟩ := bind_eq_ok.1 h
  cases h
  exact ⟨⟨h1, h2, h3, h4, h5, h6, h7, h8, rfl, h9, rfl⟩, rfl, rfl⟩

theorem linePoint_declares {timedOps : List (List TimedOp)}
    {grid : Grid Gate} (hr : resolveLines names lines = .ok timedOps) (hg : timingGrid cfg timedOps = .ok grid) (hl : [op] ∈ lines) : op.declares = false := by
  by_contra hd
  obtain ⟨ops, hops, hline⟩ := mapM_ok_mem hr hl
  obtain ⟨pts, hpts, -⟩ := bind_eq_ok.1 hg
  obtain ⟨p, -, hp⟩ := mapM_ok_mem hpts hops
  have hres : resolveOp names op = .ok [] := by
    rw [resolveOp]
    cases hk : op.kind <;> simp_all [SourceOp.declares, EventKind.isGate, pure, Except.pure]
  rw [mapM_cons, hres] at hline
  cases hline
  cases hp

/-- The stages of a program that compiles run on its lines that take time. -/
theorem compileWith_stages {s : Session} (h : (s.compileWith cfg loop text).2 = .ok c) :
    Stages cfg loop (playedLines c.parsed) c ∧
      ∀ l ∈ playedLines c.parsed, ∀ op ∈ l, op.kind.isAlone = true → l = [op] := by
  rw [Session.compileWith] at h
  split at h
  · cases h
  rename_i ops hops
  split at h
  · cases h
  rename_i names lines hcollect
  obtain ⟨hst, hparsed, -⟩ := compileNamed_stages h
  subst hparsed
  have halone := parseProgram_alone hops
  obtain ⟨hplayed, hsub⟩ := collect_playedLines hcollect
  have hlines : playedLines lines = lines := by
    refine filter_eq_self.2 fun l hl => ?_
    rw [Bool.not_eq_true', any_eq_false]
    intro op hop hd
    have hone := halone l (hsub.subset hl) op hop (by
      cases hk : op.kind <;> simp_all [SourceOp.declares, EventKind.isAlone])
    rw [linePoint_declares hst.resolved hst.placed (hone ▸ hl)] at hd
    cases hd
  rw [← hplayed, hlines]
  exact ⟨hst, fun l hl => halone l (hsub.subset hl)⟩

theorem waits_eq (h : List.Forall₂ (PointOf cfg map) lines pts) : pts.map (·.wait) = lines.map (lineLength cfg) := by
  induction h with
  | nil => rfl
  | cons hp _ ih => rw [map_cons, map_cons, hp.1, ih]

/-- The gates of the timing grid on single qubits are the starts of the lines. -/
theorem Stages.split_plan (hst : Stages cfg loop lines c) (hd : ∀ l ∈ lines, ∀ op ∈ l, op.declares = false)
    (ha : ∀ l ∈ lines, ∀ op ∈ l, op.kind.isAlone = true → l = [op]) (hw : ∀ l ∈ lines, 0 ≤ lineLength cfg l) :
    Plan (programLength cfg lines) ((startsFrom cfg c.names.map 0 lines).map startGate) (splitGates c.timed) := by
  obtain ⟨pts, hpts, hgrid⟩ := bind_eq_ok.1 hst.placed
  replace hgrid : withTimes 0 pts = c.timed := Except.ok.inj hgrid
  have hpoints := timingGrid_points hd ha hst.resolved hpts
  have hwaits := waits_eq hpoints
  have hpos : ∀ p ∈ pts, 0 ≤ p.wait := by
    intro p hp
    have hmem := mem_map_of_mem (f := fun p : TimePoint Gate => p.wait) hp
    rw [hwaits] at hmem
    obtain ⟨l, hl, hlen⟩ := mem_map.1 hmem
    exact hlen ▸ hw l hl
  have hplan := (withTimes_plan hpos 0).1.mapEvents Gate.perQubit
  rw [hwaits, Int.zero_add, hgrid] at hplan
  -- a gate without a qubit would have no latency
  have hqubits : ∀ x ∈ timed c.timed, x.2.qubits ≠ [] := by
    intro x hx hnil
    have hmem : x ∈ timed (splitGates c.timed) := by
      rw [show splitGates c.timed = mapEvents Gate.perQubit c.timed from rfl, timed_mapEvents]
      refine mem_flatMap.2 ⟨x, hx, mem_map.2 ⟨x.2, ?_, rfl⟩⟩
      rw [Gate.perQubit, hnil]
      exact mem_singleton_self _
    obtain ⟨q, -, hq, -⟩ := (withLatencies_spec hst.latent).2 x hmem
    rw [hnil] at hq
    cases hq
  have hlist : ((timed c.timed).flatMap fun x => x.2.perQubit.map fun e => (x.1, e)) =
      (startsFrom cfg c.names.map 0 lines).map startGate := by
    rw [← singles_withTimes hpoints, hgrid, singles]
    refine flatMap_congr fun x hx => ?_
    rw [perQubit_eq (hqubits x hx), map_map]
    rfl
  rw [hlist] at hplan
  exact hplan

/-- The events that gates become hold the event of each start, ahead by its latency, and end with the program. -/
theorem Stages.converted_plan (hst : Stages cfg loop lines c) (hd : ∀ l ∈ lines, ∀ op ∈ l, op.declares = false)
    (ha : ∀ l ∈ lines, ∀ op ∈ l, op.kind.isAlone = true → l = [op]) (hw : ∀ l ∈ lines, 0 ≤ lineLength cfg l) :
    Plan (programLength cfg lines) ((startsFrom cfg c.names.map 0 lines).map (startEvent cfg)) c.converted ∧
      ∀ s ∈ startsFrom cfg c.names.map 0 lines,
        hwEventOf cfg (withLatency cfg (gateOn s.2.1 s.2.2)) = .ok (startEvent cfg s).2 := by
  have hsplit := hst.split_plan hd ha hw
  obtain ⟨hleast, hle⟩ := leastLatency_eq hst.least
  obtain ⟨hlatent, hchannels⟩ := withLatencies_spec hst.latent
  have hlat := hsplit.mapEach (withLatency cfg)
  rw [← hlatent, map_map] at hlat
  have hlate : ∀ x ∈ (startsFrom cfg c.names.map 0 lines).map (fun s => ((startGate s).1, withLatency cfg (startGate s).2)),
      c.least ≤ x.2.latency := by
    intro x hx
    obtain ⟨s, hs, rfl⟩ := mem_map.1 hx
    obtain ⟨q, ch, hq, hch⟩ := hchannels (startGate s) (hsplit.events.mem_iff.2 (mem_map_of_mem hs))
    obtain ⟨chs, hchs, hmem⟩ := channelFor_mem hch
    have := hle chs hchs _ hmem
    simpa [withLatency, hq, hch, Except.toOption] using this
  have hcomp := compensate_plan hlat hlate
  obtain ⟨hconv, hevents⟩ := hardwareGrid_spec hst.converted
  have hhw := hcomp.mapEach (eventOf cfg)
  rw [← hconv, map_map, map_map, ← hleast] at hhw
  exact ⟨hhw, fun s hs => hevents _ (hcomp.events.mem_iff.2 (mem_map_of_mem (mem_map_of_mem hs)))⟩

/-- A pulse at a later time. -/
def Pulse.later (d : Int) (x : Pulse) : Pulse := { x with time := x.time + d }

/-- A pulse channel on a generator. -/
def pulseChannel (latency awg : Int) : Channel :=
  { latency := latency, format := .error .keyMissing, instruction := .ok "pulse", awg := .ok awg, table := .ok 0
    triggerBit := .error .keyMissing, codewordBits := none }

/-- Two qubits with pulse channels, the second of greater latency; `y` takes `d` clocks and `pulse` plays nothing. -/
def twoChannels (latency d : Int) : Config :=
  let gate (clocks : Int) : Operation := ⟨.rf, .ok ⟨"1", some 1⟩, clocks, []⟩
  { cycle := 5, initClocks := 100, physical := [0, 1]
    qubits := [[("rf", pulseChannel 0 0)], [("rf", pulseChannel latency 1)]]
    tables := .ok [.ok [("x", .ok 1), ("y", .ok 2), ("pulse", .ok dummyCodeword)]]
    operations := [("x", gate 4), ("y", gate d), ("pulse", gate 4), ("init_all", ⟨.wait, .ok ⟨"0", some 0⟩, 100, []⟩)]
    qubitMap := some [("a", .ok 0), ("b", .ok 1)] }

/-- Behind a line of negative length a gate is moved ahead twice: the pulse and the end are one clock apart here, and
should be at one time. -/
theorem compileWith_negativeLength :
    ∃ c, (Session.compileWith {} (twoChannels 1 (-1)) true "y b").2 = .ok c ∧
      scheduled (twoChannels 1 (-1)) c.names.map (playedLines c.parsed) = [⟨-1, 1, 2⟩] ∧
      programLength (twoChannels 1 (-1)) (playedLines c.parsed) = -1 ∧ playLoop c.assembly = ([⟨0, 1, 2⟩], 1) :=
  ⟨_, rfl, rfl, rfl, by decide +kernel⟩

end QubitLab.Qasm
