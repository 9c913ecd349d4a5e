import QubitLab.Proofs.Sessions

/-!
# Configurations that are written and loaded again

A compiler writes the configuration that it holds by changing it in place: clocks become nanoseconds and types become
names. A configuration is taken apart into its operations, its channels and the rest (`withParts`), and the steps of a
dump are followed on these parts. `Loads.dump` says what is written for a configuration that was loaded. The first time this
succeeds, and the tables then are what was written; it succeeds once more only if there are no operations
(`Loads.dump_again`). What was written loads as the same configuration if it has no measurement and all its times come
back as they were (`Loads.load_written`); with a measurement it does not load at all, because the name that is written is
not the one that is read.
-/

namespace QubitLab.Qasm

open List

/-! ## Fields of records -/

section
variable {k k' : String} {fs : Fields} {v w : Value}

theorem put_cons (k : String) (v : Value) (k' : String) (w : Value) (fs : Fields) :
    Fields.put k v ((k', w) :: fs) = if k' = k then (k, v) :: fs else (k', w) :: Fields.put k v fs := by
  simp [Fields.put, Assoc.put]

theorem get?_cons (k k' : String) (w : Value) (fs : Fields) :
    Fields.get? ((k', w) :: fs) k = if k' = k then some w else Fields.get? fs k := by
  by_cases h : k' = k
  · subst h
    simp [Fields.get?]
  · simp [Fields.get?, lookup_cons, h, beq_eq_false_iff_ne.2 (Ne.symm h)]

theorem get?_put_self (k : String) (v : Value) (fs : Fields) : Fields.get? (Fields.put k v fs) k = some v := by
  induction fs with
  | nil => simp [Fields.put, Assoc.put, Fields.get?]
  | cons x fs ih =>
    rw [put_cons]
    split
    · rw [get?_cons, if_pos rfl]
    · rename_i hne
      rw [get?_cons, if_neg hne, ih]

theorem get?_put_ne (h : k' ≠ k) (v : Value) (fs : Fields) : Fields.get? (Fields.put k v fs) k' = Fields.get? fs k' := by
  induction fs with
  | nil => simp [Fields.put, Assoc.put, Fields.get?, lookup_cons, beq_eq_false_iff_ne.2 h]
  | cons x fs ih =>
    rw [put_cons]
    split
    · rename_i heq
      rw [get?_cons, get?_cons, if_neg h.symm, heq, if_neg h.symm]
    · rw [get?_cons, get?_cons, ih]

theorem put_put (k : String) (v w : Value) (fs : Fields) : Fields.put k v (Fields.put k w fs) = Fields.put k v fs := by
  induction fs with
  | nil => simp [Fields.put, Assoc.put]
  | cons x fs ih =>
    rw [put_cons, put_cons]
    split
    · rw [put_cons, if_pos rfl]
    · rename_i hne
      rw [put_cons, if_neg hne, ih]

theorem put_get? (h : Fields.get? fs k = some v) : Fields.put k v fs = fs := by
  induction fs with
  | nil => cases h
  | cons x fs ih =>
    obtain ⟨k', w⟩ := x
    rw [get?_cons] at h
    rw [put_cons]
    split at h
    · rename_i heq
      cases h
      rw [if_pos heq, heq]
    · rename_i hne
      rw [if_neg hne, ih h]

theorem put_comm (hne : k ≠ k') (h : Fields.has fs k = true) (v w : Value) :
    Fields.put k v (Fields.put k' w fs) = Fields.put k' w (Fields.put k v fs) := by
  induction fs with
  | nil => cases h
  | cons x fs ih =>
    obtain ⟨k₀, u⟩ := x
    rcases eq_or_ne k₀ k with rfl | h₀
    · simp [put_cons, hne]
    · rcases eq_or_ne k₀ k' with rfl | h₀'
      · simp [put_cons, h₀]
      · have hfs : Fields.has fs k = true := by rwa [Fields.has, get?_cons, if_neg h₀] at h
        simp [put_cons, h₀, h₀', ih hfs]

theorem has_put_self (k : String) (v : Value) (fs : Fields) : Fields.has (Fields.put k v fs) k = true := by
  rw [Fields.has, get?_put_self, Option.isSome_some]

theorem changeField_record (h : Fields.get? fs k = some v) (f : Value → Value) :
    changeField k f (.record fs) = .record (Fields.put k (f v) fs) := by
  simp only [changeField, h]

theorem changeField_none (h : Fields.get? fs k = none) (f : Value → Value) :
    changeField k f (.record fs) = .record fs := by
  simp only [changeField, h]

end

/-! ## Times that come back -/

/-- The channels that a configuration gives its qubits. -/
def channelsOf (config : Value) : List Value :=
  ((((config.get? "hardware specification").bind (·.get? "qubit_cfgs")).bind Value.items?).getD []).flatMap fun q =>
    (q.fields?.getD []).map Prod.snd

/-- The times that a channel gives: its latency and the stages of its triggers. -/
def channelTimes (c : Value) : List Value := (c.get? "latency").toList ++ ((c.get? "format").bind Value.items?).getD []

/-- All times that a configuration gives, in nanoseconds. -/
def timesOf (config : Value) : List Value :=
  (operationsOf config).filterMap (fun x => x.2.get? "duration") ++ (channelsOf config).flatMap channelTimes

/-- The clocks of a time, in nanoseconds as a double, are as many clocks again. -/
def ComesBack (cycle : Float) (v : Value) : Prop :=
  ∀ n, clocks cycle v = .ok n → clocks cycle (inNanoseconds cycle (.int n)) = .ok n

variable {ch : Channel} {kind : EventKind} {cycle : Float}

section
variable {v : Value}

instance : Decidable (ComesBack cycle v) :=
  match h : clocks cycle v with
  | .ok n => decidable_of_iff (clocks cycle (inNanoseconds cycle (.int n)) = .ok n)
      ⟨fun hn m hm => by cases h.symm.trans hm; exact hn, fun hv => hv n h⟩
  | .error _ => .isTrue fun _ hm => by cases h.symm.trans hm

theorem inClocks_eq {n : Int} (h : clocks cycle v = .ok n) : inClocks cycle v = .int n := by rw [inClocks, h]

theorem ComesBack.clocks {n : Int} (h : ComesBack cycle v) (hn : clocks cycle v = .ok n) :
    clocks cycle (inNanoseconds cycle (inClocks cycle v)) = .ok n := by
  rw [inClocks_eq hn]
  exact h n hn

/-- A function that gives for a changed item what it gave for the item. -/
theorem mapM_map_ok {α β : Type} {F : α → Step β} {g : α → α} {l : List α} {out : List β}
    (hg : ∀ a ∈ l, ∀ b, F a = .ok b → F (g a) = .ok b) (h : l.mapM F = .ok out) : (l.map g).mapM F = .ok out := by
  rw [mapM_eq_ok] at h ⊢
  rw [forall₂_map_left_iff]
  induction h with
  | nil => exact .nil
  | cons hab _ ih => exact .cons (hg _ mem_cons_self _ hab) (ih fun a ha => hg a (mem_cons_of_mem _ ha))

/-! ## Channels -/

theorem changeTimes_eq {fs : Fields} (h : Fields.get? fs "latency" = some v) (f : Value → Value) :
    ∃ fs', changeTimes f (.record fs) = .record fs' ∧ Fields.get? fs' "latency" = some (f v) ∧
      Fields.get? fs' "format" = (Fields.get? fs "format").map (changeItems f) ∧
      ∀ k, k ≠ "latency" → k ≠ "format" → Fields.get? fs' k = Fields.get? fs k := by
  rw [changeTimes, changeField_record h]
  have hformat := get?_put_ne (show "format" ≠ "latency" by decide) (f v) fs
  rcases hf : Fields.get? fs "format" with _ | w
  · rw [hf] at hformat
    exact ⟨_, changeField_none hformat _, get?_put_self _ _ _, hformat, fun k hl _ => get?_put_ne hl _ _⟩
  · rw [hf] at hformat
    refine ⟨_, changeField_record hformat _, ?_, get?_put_self _ _ _, fun k hl hk => ?_⟩
    · rw [get?_put_ne (by decide), get?_put_self]
    · rw [get?_put_ne hk, get?_put_ne hl]

theorem channelOf_latency (h : channelOf cycle v = .ok ch) :
    ∃ fs d, v = .record fs ∧ Fields.get? fs "latency" = some d ∧ clocks cycle d = .ok ch.latency := by
  obtain ⟨fs, hfs, h⟩ := bind_eq_ok.1 h
  obtain ⟨d, hd, h⟩ := bind_eq_ok.1 h
  obtain ⟨latency, hlatency, h⟩ := bind_eq_ok.1 h
  obtain ⟨format, -, h⟩ := bind_eq_ok.1 h
  cases h
  exact ⟨fs, d, asRecord_eq_ok.1 hfs, needed_eq_ok.1 hd, hlatency⟩

theorem changeTimes_ne (h : channelOf cycle v = .ok ch) :
    changeTimes (inNanoseconds cycle) (changeTimes (inClocks cycle) v) ≠ changeTimes (inClocks cycle) v := by
  obtain ⟨fs, d, rfl, hd, hclocks⟩ := channelOf_latency h
  obtain ⟨fs₁, h₁, hl₁, -⟩ := changeTimes_eq hd (inClocks cycle)
  rw [inClocks_eq hclocks] at hl₁
  obtain ⟨fs₂, h₂, hl₂, -⟩ := changeTimes_eq hl₁ (inNanoseconds cycle)
  rw [h₁, h₂]
  rintro ⟨⟩
  rw [hl₁] at hl₂
  cases hl₂

theorem formatOf_changed {x : Option Value} {format : Step (List Int)} (h : formatOf cycle x = .ok format)
    (ht : ∀ w ∈ (x.bind Value.items?).getD [], ComesBack cycle w) :
    formatOf cycle ((x.map (changeItems (inClocks cycle))).map (changeItems (inNanoseconds cycle))) = .ok format := by
  rcases x with _ | w
  · exact h
  · cases w with
    | list ds =>
      obtain ⟨cs, hcs, h⟩ := bind_eq_ok.1 h
      cases h
      have hback : ((ds.map (inClocks cycle)).map (inNanoseconds cycle)).mapM (clocks cycle) = .ok cs := by
        rw [map_map]
        exact mapM_map_ok (fun d hd n hn => (ht d hd).clocks hn) hcs
      exact bind_eq_ok.2 ⟨cs, hback, rfl⟩
    | _ => cases h

/-- A channel whose times come back is read as it was. -/
theorem channelOf_changed (h : channelOf cycle v = .ok ch) (ht : ∀ w ∈ channelTimes v, ComesBack cycle w) :
    channelOf cycle (changeTimes (inNanoseconds cycle) (changeTimes (inClocks cycle) v)) = .ok ch := by
  obtain ⟨fs, hfs, hread⟩ := bind_eq_ok.1 h
  obtain rfl := asRecord_eq_ok.1 hfs
  obtain ⟨lv, hlv, hread⟩ := bind_eq_ok.1 hread
  obtain ⟨latency, hlatency, hread⟩ := bind_eq_ok.1 hread
  obtain ⟨format, hformat, hread⟩ := bind_eq_ok.1 hread
  replace hlv := needed_eq_ok.1 hlv
  obtain ⟨fs₁, h₁, hl₁, hf₁, hk₁⟩ := changeTimes_eq hlv (inClocks cycle)
  obtain ⟨fs₂, h₂, hl₂, hf₂, hk₂⟩ := changeTimes_eq hl₁ (inNanoseconds cycle)
  have hother {k : String} (hl : k ≠ "latency") (hf : k ≠ "format") : Fields.get? fs₂ k = Fields.get? fs k :=
    (hk₂ k hl hf).trans (hk₁ k hl hf)
  rw [hf₁] at hf₂
  rw [h₁, h₂]
  refine bind_eq_ok.2 ⟨fs₂, rfl, bind_eq_ok.2 ⟨_, needed_eq_ok.2 hl₂, bind_eq_ok.2 ⟨latency, ?_, bind_eq_ok.2 ⟨format, ?_, ?_⟩⟩⟩⟩
  · have hmem : lv ∈ channelTimes (.record fs) :=
      mem_append_left _ (Option.mem_toList.2 hlv)
    exact (ht lv hmem).clocks hlatency
  · rw [hf₂]
    exact formatOf_changed hformat fun w hw => ht w (mem_append_right _ hw)
  · rw [← hread]
    simp only [needed, hother (show "qumis" ≠ "latency" by decide) (by decide),
      hother (show "awg_nr" ≠ "latency" by decide) (by decide), hother (show "lut" ≠ "latency" by decide) (by decide),
      hother (show "trigger bit" ≠ "latency" by decide) (by decide),
      hother (show "codeword bit" ≠ "latency" by decide) (by decide)]

theorem qubitChannelsOf_changed {chs : QubitChannels} (h : qubitChannelsOf cycle v = .ok chs)
    (ht : ∀ c ∈ (v.fields?.getD []).map Prod.snd, ∀ w ∈ channelTimes c, ComesBack cycle w) :
    qubitChannelsOf cycle (changeFields (changeTimes (inNanoseconds cycle)) (changeFields (changeTimes (inClocks cycle)) v)) =
      .ok chs := by
  obtain ⟨fs, hfs, hread⟩ := bind_eq_ok.1 h
  obtain rfl := asRecord_eq_ok.1 hfs
  refine bind_eq_ok.2 ⟨_, rfl, ?_⟩
  rw [map_map]
  refine mapM_map_ok (fun x hx b hb => ?_) hread
  obtain ⟨ch, hch, hb⟩ := bind_eq_ok.1 hb
  exact bind_eq_ok.2 ⟨ch, channelOf_changed hch (ht x.2 (mem_map_of_mem hx)), hb⟩

/-! ## Operations -/

/-- The name that is written for the kind of an operation. -/
def EventKind.written : EventKind → String
  | .measurement => "measure"
  | kind => kind.name

/-- An operation as a compiler writes it that has just loaded it. -/
def writtenOperation (cycle : Float) (o : Value) : Value := (dumpOperation cycle (holdOperation cycle o)).1

theorem heldType_name (h : kind.isGate = true) : heldType (.text kind.name) = .text kind.tag := by
  rw [heldType, kindOf?_eq_some.2 ⟨h, rfl⟩]

theorem writtenType?_tag (h : kind.isGate = true) : writtenType? (.text kind.tag) = some kind.written := by
  revert h
  cases kind <;> decide

theorem writtenType?_written (h : kind.isGate = true) : writtenType? (.text kind.written) = none := by
  revert h
  cases kind <;> decide

section
variable {fo : Fields} {d : Value} {op : Operation}

theorem OperationRead.measurement_iff (h : OperationRead cycle fo d op) :
    (Value.record fo).get? "type" = some (.text EventKind.measurement.name) ↔ op.kind = .measurement := by
  rw [Value.get?, Value.fields?, Option.bind_some, h.type, Option.some.injEq, Value.text.injEq]
  cases op.kind <;> decide

theorem holdOperation_eq (h : OperationRead cycle fo d op) : holdOperation cycle (.record fo) =
    .record (Fields.put "type" (.text op.kind.tag) (Fields.put "duration" (.int op.duration) fo)) := by
  have htype := (get?_put_ne (show "type" ≠ "duration" by decide) (.int op.duration) fo).trans h.type
  rw [holdOperation, changeField_record h.given, inClocks_eq h.duration, changeField_record htype, heldType_name h.gate]

/-- An operation that was read is written: its clocks in nanoseconds, and its type by its name. -/
theorem dumpOperation_hold (h : OperationRead cycle fo d op) : dumpOperation cycle (holdOperation cycle (.record fo)) =
    (.record (Fields.put "type" (.text op.kind.written)
      (Fields.put "duration" (inNanoseconds cycle (.int op.duration)) fo)), none) := by
  have hduration : Fields.get? (Fields.put "type" (.text op.kind.tag) (Fields.put "duration" (.int op.duration) fo)) "duration" =
      some (.int op.duration) := (get?_put_ne (by decide) _ _).trans (get?_put_self _ _ _)
  -- The type stands between the two durations, and both fields are there: the later duration takes the earlier one's place.
  have hput : Fields.put "duration" (inNanoseconds cycle (.int op.duration))
      (Fields.put "type" (.text op.kind.tag) (Fields.put "duration" (.int op.duration) fo)) =
      Fields.put "type" (.text op.kind.tag) (Fields.put "duration" (inNanoseconds cycle (.int op.duration)) fo) := by
    rw [put_comm (by decide) (has_put_self _ _ _), put_put]
  have htype := get?_put_self "type" (.text op.kind.tag) (Fields.put "duration" (inNanoseconds cycle (.int op.duration)) fo)
  have hget : (Value.record (Fields.put "type" (.text op.kind.tag)
      (Fields.put "duration" (inNanoseconds cycle (.int op.duration)) fo))).get? "type" = some (.text op.kind.tag) := htype
  rw [holdOperation_eq h, dumpOperation, changeField_record hduration, hput]
  simp only [hget, writtenType?_tag h.gate, changeField_record htype, put_put]

theorem writtenOperation_ne (h : OperationRead cycle fo d op) :
    writtenOperation cycle (.record fo) ≠ holdOperation cycle (.record fo) := by
  have hne : op.kind.written ≠ op.kind.tag := by
    have hgate := h.gate
    revert hgate
    cases op.kind <;> decide
  rw [writtenOperation, dumpOperation_hold h, holdOperation_eq h]
  intro heq
  have htype := congrArg (fun o => Value.get? o "type") heq
  simp only [Value.get?, Value.fields?, Option.bind_some, get?_put_self, Option.some.injEq, Value.text.injEq] at htype
  exact hne htype

theorem dumpOperation_unexpected {type : Value} (h : Fields.get? fo "type" = some type) (ht : writtenType? type = none) :
    (dumpOperation cycle (.record fo)).2 = some (.typeUnexpected type.display) := by
  obtain ⟨fo', hfo', htype⟩ : ∃ fo', changeField "duration" (inNanoseconds cycle) (.record fo) = .record fo' ∧
      (Value.record fo').get? "type" = some type := by
    rcases hd : Fields.get? fo "duration" with _ | d
    · exact ⟨fo, changeField_none hd _, h⟩
    · exact ⟨_, changeField_record hd _, (get?_put_ne (by decide) _ _).trans h⟩
  simp only [dumpOperation, hfo', htype, ht]

/-- An operation whose duration comes back is read as it was, if it is no measurement. -/
theorem operationOf_written {name : String} (h : OperationRead cycle fo d op) (hkind : op.kind ≠ .measurement)
    (hd : ComesBack cycle d) : operationOf cycle name (writtenOperation cycle (.record fo)) = .ok op := by
  -- Only for a measurement the name that is written differs from the name that is read.
  have hname : op.kind.written = op.kind.name := by
    cases hk : op.kind <;> first | rfl | exact absurd hk hkind
  have htype : Fields.get? (Fields.put "duration" (inNanoseconds cycle (.int op.duration)) fo) "type" =
      some (.text op.kind.name) := (get?_put_ne (by decide) _ _).trans h.type
  rw [writtenOperation, dumpOperation_hold h, operationOf_eq_ok, hname, put_get? htype]
  refine ⟨_, _, rfl, h.gate, htype, get?_put_self _ _ _, hd _ h.duration, ?_, ?_⟩
  · rw [h.arity, arityOf, arityOf, needed, needed, get?_put_ne (by decide)]
  · rw [h.listing, put_put]

theorem operationOf_measure {name : String} (h : Fields.get? fo "type" = some (.text EventKind.measurement.written)) :
    operationOf cycle name (.record fo) = .error (.operationType EventKind.measurement.written name) :=
  bind_eq_error.2 (.inr ⟨fo, rfl, bind_eq_error.2 (.inr ⟨_, needed_eq_ok.2 h, rfl⟩)⟩)

end

section
variable {k : String} {o o' : Value} {r : Fields}

theorem dumpOperations_cons (h : dumpOperation cycle o = (o', none)) : dumpOperations cycle ((k, o) :: r) =
    ((k, o') :: (dumpOperations cycle r).1, (dumpOperations cycle r).2) := by
  rw [dumpOperations, h]

theorem dumpOperations_cons_error {e : CompileError} (h : (dumpOperation cycle o).2 = some e) :
    (dumpOperations cycle ((k, o) :: r)).2 = some e := by
  have ho : dumpOperation cycle o = ((dumpOperation cycle o).1, some e) := Prod.ext rfl h
  rw [dumpOperations, ho]

end

end

/-! ## Configurations with other parts -/

/-- A configuration with these operations, and these channels for its qubits. -/
def withParts (fs hw dict : Fields) (cs : List Value) : Value :=
  .record (Fields.put "hardware specification" (.record (Fields.put "qubit_cfgs" (.list cs) hw))
    (Fields.put "operation dictionary" (.record dict) fs))

def mapValues (f : Value → Value) (fs : Fields) : Fields := fs.map fun (k, v) => (k, f v)

/-- The channels of a qubit as a compiler writes them that has just loaded them. -/
def writtenQubit (cycle : Float) (q : Value) : Value :=
  changeFields (changeTimes (inNanoseconds cycle)) (changeFields (changeTimes (inClocks cycle)) q)

section
variable {fs hw dict dict' : Fields} {cs cs' : List Value}

theorem withParts_self (hh : Fields.get? fs "hardware specification" = some (.record hw))
    (hc : Fields.get? hw "qubit_cfgs" = some (.list cs)) (hd : Fields.get? fs "operation dictionary" = some (.record dict)) :
    withParts fs hw dict cs = .record fs := by
  rw [withParts, put_get? hc, put_get? hd, put_get? hh]

theorem get?_operations (H D : Value) (fs : Fields) : Fields.get? (Fields.put "hardware specification" H
    (Fields.put "operation dictionary" D fs)) "operation dictionary" = some D :=
  (get?_put_ne (by decide) _ _).trans (get?_put_self _ _ _)

theorem operationsOf_withParts : operationsOf (withParts fs hw dict cs) = dict := by
  rw [operationsOf, withParts, Value.get?, Value.fields?, Option.bind_some, get?_operations]
  rfl

theorem changeField_withParts {f : Value → Value} (h : f (.record dict) = .record dict') :
    changeField "operation dictionary" f (withParts fs hw dict cs) = withParts fs hw dict' cs := by
  rw [withParts, changeField_record (get?_operations _ _ _), h, put_comm (by decide) (has_put_self _ _ _), put_put]
  rfl

theorem changeChannels_withParts (f : Value → Value) : changeChannels f (withParts fs hw dict cs) =
    withParts fs hw dict (cs.map (changeFields (changeTimes f))) := by
  rw [withParts, changeChannels, changeField_record (get?_put_self _ _ _), changeField_record (get?_put_self _ _ _),
    changeItems, put_put, put_put]
  rfl

theorem withParts_inj (h : withParts fs hw dict cs = withParts fs hw dict' cs') : dict = dict' ∧ cs = cs' := by
  have hqubits (d : Fields) (c : List Value) : ((withParts fs hw d c).get? "hardware specification").bind
      (·.get? "qubit_cfgs") = some (.list c) := by
    simp only [withParts, Value.get?, Value.fields?, Option.bind_some, get?_put_self]
  constructor
  · rw [← @operationsOf_withParts fs hw dict cs, h, operationsOf_withParts]
  · have hc := hqubits dict cs
    rw [h, hqubits] at hc
    cases hc
    rfl

/-! ## Dumps -/

theorem dump_withParts (h : dumpOperations cycle dict = (dict', none)) :
    let v := withParts fs hw dict' (cs.map (changeFields (changeTimes (inNanoseconds cycle))))
    Tables.dump ⟨cycle, withParts fs hw dict cs⟩ = (⟨cycle, v⟩, .ok v) := by
  simp only [Tables.dump, operationsOf_withParts, h]
  rw [changeField_withParts rfl, changeChannels_withParts]

theorem dump_withParts_error {e : CompileError} (h : (dumpOperations cycle dict).2 = some e) :
    (Tables.dump ⟨cycle, withParts fs hw dict cs⟩).2 = .error e := by
  simp only [Tables.dump, operationsOf_withParts, h]

theorem dumpOperations_held {ops : List (String × Operation)} (h : userOperationsOf cycle dict = .ok ops) :
    dumpOperations cycle (mapValues (holdOperation cycle) dict) = (mapValues (writtenOperation cycle) dict, none) := by
  replace h := mapM_eq_ok.1 h
  induction h with
  | nil => rfl
  | @cons x _ dict _ hx _ ih =>
    obtain ⟨op, hop, -⟩ := bind_eq_ok.1 hx
    obtain ⟨fo, d, hfo, hread⟩ := operationOf_eq_ok.1 hop
    have hdump : dumpOperation cycle (holdOperation cycle x.2) = (writtenOperation cycle x.2, none) := by
      rw [writtenOperation, hfo, dumpOperation_hold hread]
    rw [mapValues, map_cons, dumpOperations_cons hdump, ← mapValues, ih]
    rfl

/-- Operations that were written are not written again: the first one already has a type that cannot be written. -/
theorem dumpOperations_written {ops : List (String × Operation)} (h : userOperationsOf cycle dict = .ok ops)
    (hne : dict ≠ []) : ∃ kind : EventKind,
      (dumpOperations cycle (mapValues (writtenOperation cycle) dict)).2 = some (.typeUnexpected kind.written) := by
  obtain ⟨x, r, rfl⟩ := exists_cons_of_ne_nil hne
  obtain ⟨_, -, hx⟩ := mapM_ok_mem h (mem_cons_self)
  obtain ⟨op, hop, -⟩ := bind_eq_ok.1 hx
  obtain ⟨fo, d, hfo, hread⟩ := operationOf_eq_ok.1 hop
  refine ⟨op.kind, dumpOperations_cons_error ?_⟩
  rw [hfo, writtenOperation, dumpOperation_hold hread]
  exact dumpOperation_unexpected (get?_put_self _ _ _) (writtenType?_written hread.gate)

/-! ## Checks of what was written -/

/-- The kinds of the channels that a qubit has. -/
def kindsOf (q : Value) : Option (List String) := q.fields?.map Fields.keys

theorem kindsOf_changeFields (f : Value → Value) (q : Value) : kindsOf (changeFields f q) = kindsOf q := by
  cases q with
  | record fq =>
    simp only [kindsOf, changeFields, Value.fields?, Option.map_some, Fields.keys, map_map]
    rfl
  | _ => rfl

theorem has_put (k k' : String) (v : Value) (fs : Fields) :
    Fields.has (Fields.put k v fs) k' = (decide (k' = k) || Fields.has fs k') := by
  by_cases h : k' = k
  · subst h
    simp [has_put_self]
  · simp [Fields.has, get?_put_ne h, h]

theorem forM_requireKinds (h : cs'.map kindsOf = cs.map kindsOf) : cs'.forM requireKinds = cs.forM requireKinds := by
  let check (ks : Option (List String)) : Step Unit := do
    let ks ← orError .memberMissing ks
    if ks.any fun k => !(["rf", "flux", "measurement"].contains k) then .error .channelKeys
  have hcheck (l : List Value) : l.forM requireKinds = (l.map kindsOf).forM check := by
    rw [forM_eq_forM, forM_eq_forM, forM_map]
    rfl
  rw [hcheck, hcheck, h]

theorem validate_withParts (h : cs'.map kindsOf = cs.map kindsOf) :
    validate (withParts fs hw dict' cs') = validate (withParts fs hw dict cs) := by
  have hlength : cs'.length = cs.length := by simpa using congrArg List.length h
  have hother {k : String} (hk : k ≠ "qubit_cfgs") (c : List Value) :
      Fields.get? (Fields.put "qubit_cfgs" (.list c) hw) k = Fields.get? hw k := get?_put_ne hk _ _
  simp only [validate, withParts, Value.fields?, has_put, get?_put_self, needed, orError, bind, Except.bind, extent,
    hother (show "qubit list" ≠ "qubit_cfgs" by decide), hother (show "init time" ≠ "qubit_cfgs" by decide),
    hother (show "cycle time" ≠ "qubit_cfgs" by decide), hlength, forM_requireKinds h]

/-! ## Loading what was written -/

section
variable {config : Value} {cfg : Config} {ops : List (String × Operation)}

theorem Loads.eq_withParts (h : Loads config cfg fs hw cs dict ops) : config = withParts fs hw dict cs :=
  h.fields.trans (withParts_self h.hardware h.channels h.dictionary).symm

/-- Channels and operations that are read as before can take the place of those that were loaded. -/
theorem Loads.load_withParts (h : Loads config cfg fs hw cs dict ops) (hkinds : cs'.map kindsOf = cs.map kindsOf)
    (hqubits : cs'.mapM (qubitChannelsOf cfg.cycle) = .ok cfg.qubits) (hread : userOperationsOf cfg.cycle dict' = .ok ops) :
    Config.load (withParts fs hw dict' cs') = .ok cfg := by
  have hother {k : String} (hk : k ≠ "qubit_cfgs") :
      Fields.get? (Fields.put "qubit_cfgs" (.list cs') hw) k = Fields.get? hw k := get?_put_ne hk _ _
  have hfield {k : String} (hk : k ≠ "hardware specification") (hk' : k ≠ "operation dictionary") (H D : Value) :
      Fields.get? (Fields.put "hardware specification" H (Fields.put "operation dictionary" D fs)) k = Fields.get? fs k :=
    (get?_put_ne hk _ _).trans (get?_put_ne hk' _ _)
  refine load_eq_ok.2 ⟨_, _, cs', dict', ops, ?_, rfl, get?_put_self _ _ _, ?_, ?_, h.measure, ?_, get?_put_self _ _ _, hqubits,
    get?_operations _ _ _, hread, h.operations, ?_, ?_⟩
  · rw [validate_withParts hkinds, ← h.eq_withParts, h.valid]
  · rw [hother (by decide)]
    exact h.cycle
  · rw [hother (by decide)]
    exact h.init
  · rw [hother (by decide)]
    exact h.physical
  · rw [hfield (by decide) (by decide)]
    exact h.tables
  · rw [hfield (by decide) (by decide)]
    exact h.qubitMap

/-- The configuration that a compiler writes that has just loaded it. -/
def writtenConfig (cycle : Float) (fs hw dict : Fields) (cs : List Value) : Value :=
  withParts fs hw (mapValues (writtenOperation cycle) dict) (cs.map (writtenQubit cycle))

theorem Loads.ofConfig (h : Loads config cfg fs hw cs dict ops) : Tables.ofConfig cfg.cycle config =
    ⟨cfg.cycle, withParts fs hw (mapValues (holdOperation cfg.cycle) dict)
      (cs.map (changeFields (changeTimes (inClocks cfg.cycle))))⟩ := by
  rw [Tables.ofConfig, h.eq_withParts, changeField_withParts rfl, changeChannels_withParts]
  rfl

/-- The first time a configuration is written without an error. The tables are then what was written. -/
theorem Loads.dump (h : Loads config cfg fs hw cs dict ops) : (Tables.ofConfig cfg.cycle config).dump =
    (⟨cfg.cycle, writtenConfig cfg.cycle fs hw dict cs⟩, .ok (writtenConfig cfg.cycle fs hw dict cs)) := by
  rw [h.ofConfig, dump_withParts (dumpOperations_held h.read), map_map]
  rfl

theorem operationsOf_eq (h : Loads config cfg fs hw cs dict ops) : operationsOf config = dict := by
  rw [h.eq_withParts, operationsOf_withParts]

theorem channelsOf_eq (h : Loads config cfg fs hw cs dict ops) :
    channelsOf config = cs.flatMap fun q => (q.fields?.getD []).map Prod.snd := by
  rw [channelsOf, h.fields, Value.get?, Value.fields?, Option.bind_some, h.hardware, Option.bind_some, Value.get?, Value.fields?,
    Option.bind_some, h.channels]
  rfl

/-- Without measurements, and with times that come back, what was written loads as what was loaded. -/
theorem Loads.load_written (h : Loads config cfg fs hw cs dict ops)
    (hkind : ∀ x ∈ dict, x.2.get? "type" ≠ some (.text EventKind.measurement.name))
    (htimes : ∀ w ∈ timesOf config, ComesBack cfg.cycle w) : Config.load (writtenConfig cfg.cycle fs hw dict cs) = .ok cfg := by
  rw [timesOf, operationsOf_eq h, channelsOf_eq h] at htimes
  refine h.load_withParts ?_ ?_ ?_
  · rw [map_map]
    refine map_congr_left fun q _ => ?_
    rw [Function.comp_apply, writtenQubit, kindsOf_changeFields, kindsOf_changeFields]
  · refine mapM_map_ok (fun q hq chs hchs => qubitChannelsOf_changed hchs fun c hc w hw => htimes w ?_) h.qubits
    exact mem_append_right _ (mem_flatMap.2 ⟨c, mem_flatMap.2 ⟨q, hq, hc⟩, hw⟩)
  · refine mapM_map_ok (fun x hx y hy => ?_) h.read
    obtain ⟨op, hop, hy⟩ := bind_eq_ok.1 hy
    obtain ⟨fo, d, hfo, hread⟩ := operationOf_eq_ok.1 hop
    have hgate : op.kind ≠ .measurement := by
      rw [Ne, ← hread.measurement_iff, ← hfo]
      exact hkind x hx
    have hback : ComesBack cfg.cycle d :=
      htimes d (mem_append_left _ (mem_filterMap.2 ⟨x, hx, by rw [hfo]; exact hread.given⟩))
    refine bind_eq_ok.2 ⟨op, ?_, hy⟩
    change operationOf cfg.cycle x.1 (writtenOperation cfg.cycle x.2) = .ok op
    rw [hfo]
    exact operationOf_written hread hgate hback

theorem Loads.not_load_written (h : Loads config cfg fs hw cs dict ops) {x : String × Value} (hx : x ∈ dict)
    (hkind : x.2.get? "type" = some (.text EventKind.measurement.name)) (cfg' : Config) :
    Config.load (writtenConfig cfg.cycle fs hw dict cs) ≠ .ok cfg' := by
  intro hload
  obtain ⟨_, hop, hy⟩ := mapM_ok_mem h.read hx
  obtain ⟨op, hop, hy⟩ := bind_eq_ok.1 hy
  obtain ⟨fo, d, hfo, hread⟩ := operationOf_eq_ok.1 hop
  rw [hfo, hread.measurement_iff] at hkind
  obtain ⟨_, _, _, dict', _, h'⟩ := load_eq_ok.1 hload
  have hdict : dict' = mapValues (writtenOperation cfg.cycle) dict := by
    rw [← operationsOf_eq h', writtenConfig, operationsOf_withParts]
  have hx' : (x.1, writtenOperation cfg.cycle x.2) ∈ dict' := by
    rw [hdict]
    exact mem_map_of_mem hx
  obtain ⟨_, -, hy⟩ := mapM_ok_mem h'.read hx'
  obtain ⟨op', hop', -⟩ := bind_eq_ok.1 hy
  rw [hfo, writtenOperation, dumpOperation_hold hread, hkind, operationOf_measure (get?_put_self _ _ _)] at hop'
  cases hop'

/-! ## Dumps again -/

/-- The tables after a number of dumps. -/
def Tables.afterDumps : Nat → Tables → Tables
  | 0, t => t
  | n + 1, t => Tables.afterDumps n t.dump.1

theorem dump_afterDumps (cycle : Float) (n : Nat) (cs : List Value) :
    ∃ v, (Tables.afterDumps n ⟨cycle, withParts fs hw [] cs⟩).dump.2 = .ok v := by
  induction n generalizing cs with
  | zero => exact ⟨_, congrArg Prod.snd (dump_withParts rfl)⟩
  | succ n ih =>
    rw [Tables.afterDumps, dump_withParts rfl]
    exact ih _

theorem Loads.dump_again (h : Loads config cfg fs hw cs dict ops) :
    (∀ n, ∃ v, ((Tables.ofConfig cfg.cycle config).afterDumps n).dump.2 = .ok v) ↔ operationsOf config = [] := by
  rw [operationsOf_eq h]
  constructor
  · intro hall
    by_contra hne
    obtain ⟨kind, hkind⟩ := dumpOperations_written h.read hne
    obtain ⟨v, hv⟩ := hall 1
    rw [Tables.afterDumps, Tables.afterDumps, h.dump, writtenConfig, dump_withParts_error hkind] at hv
    cases hv
  · rintro rfl n
    rw [h.ofConfig]
    exact dump_afterDumps _ n _

theorem mapValues_written_iff (h : userOperationsOf cycle dict = .ok ops) :
    mapValues (writtenOperation cycle) dict = mapValues (holdOperation cycle) dict ↔ dict = [] := by
  constructor
  · intro heq
    refine eq_nil_iff_forall_not_mem.2 fun x hx => ?_
    obtain ⟨_, -, hy⟩ := mapM_ok_mem h hx
    obtain ⟨op, hop, -⟩ := bind_eq_ok.1 hy
    obtain ⟨fo, d, hfo, hread⟩ := operationOf_eq_ok.1 hop
    have hsame := congrArg Prod.snd (map_inj_left.1 heq x hx)
    exact writtenOperation_ne hread (hfo ▸ hsame)
  · rintro rfl
    rfl

theorem writtenQubit_iff {q : Value} {chs : QubitChannels} (h : qubitChannelsOf cycle q = .ok chs) :
    writtenQubit cycle q = changeFields (changeTimes (inClocks cycle)) q ↔ (q.fields?.getD []).map Prod.snd = [] := by
  obtain ⟨fq, hfq, hread⟩ := bind_eq_ok.1 h
  obtain rfl := asRecord_eq_ok.1 hfq
  rw [map_eq_nil_iff]
  constructor
  · intro heq
    have hsame : mapValues (changeTimes (inNanoseconds cycle)) (mapValues (changeTimes (inClocks cycle)) fq) =
      mapValues (changeTimes (inClocks cycle)) fq := Value.record.inj heq
    rw [mapValues, mapValues, map_map] at hsame
    refine eq_nil_iff_forall_not_mem.2 fun x hx => ?_
    obtain ⟨_, -, hy⟩ := mapM_ok_mem hread hx
    obtain ⟨ch, hch, -⟩ := bind_eq_ok.1 hy
    exact changeTimes_ne hch (congrArg Prod.snd (map_inj_left.1 hsame x hx))
  · intro hnil
    cases hnil
    rfl

/-- A dump changes the tables, unless there is nothing to change. -/
theorem Loads.dump_unchanged (h : Loads config cfg fs hw cs dict ops) :
    (Tables.ofConfig cfg.cycle config).dump.1 = Tables.ofConfig cfg.cycle config ↔
      operationsOf config = [] ∧ channelsOf config = [] := by
  have hqubits : cs.map (writtenQubit cfg.cycle) = cs.map (changeFields (changeTimes (inClocks cfg.cycle))) ↔
      ∀ q ∈ cs, (q.fields?.getD []).map Prod.snd = [] := by
    rw [map_inj_left]
    refine forall₂_congr fun q hq => ?_
    obtain ⟨chs, -, hchs⟩ := mapM_ok_mem h.qubits hq
    exact writtenQubit_iff hchs
  rw [h.dump, h.ofConfig, operationsOf_eq h, channelsOf_eq h, Tables.mk.injEq, flatMap_eq_nil_iff, ← hqubits,
    ← mapValues_written_iff h.read]
  constructor
  · rintro ⟨-, heq⟩
    exact withParts_inj heq
  · rintro ⟨hdict, hcs⟩
    rw [writtenConfig, hdict, hcs]
    exact ⟨rfl, rfl⟩

end

end

/-- What a configuration that loads is after it was written. The first dump succeeds, and the tables then hold what was
written. They are as before only if there are no operations and no channels, and dumps succeed any number of times exactly
if there are no operations. Without measurements, and with times that come back, what was written compiles every
program as before; with a measurement it compiles none. -/
theorem dump_compile {config : Value} {cfg : Config} (hc : Config.load config = .ok cfg) :
    ∃ v, (Tables.ofConfig cfg.cycle config).dump = (⟨cfg.cycle, v⟩, .ok v) ∧
      ((Tables.ofConfig cfg.cycle config).dump.1 = Tables.ofConfig cfg.cycle config ↔
        operationsOf config = [] ∧ channelsOf config = []) ∧
      ((∀ n, ∃ w, ((Tables.ofConfig cfg.cycle config).afterDumps n).dump.2 = .ok w) ↔ operationsOf config = []) ∧
      ((∀ x ∈ operationsOf config, x.2.get? "type" ≠ some (.text "measurement")) →
        (∀ w ∈ timesOf config, ComesBack cfg.cycle w) →
        ∀ (s : Session) (loop : Bool) (text : String), s.compile v loop text = s.compile config loop text) ∧
      ∀ x ∈ operationsOf config, x.2.get? "type" = some (.text "measurement") →
        ∀ (s : Session) (loop : Bool) (text : String), ∃ e, (s.compile v loop text).2 = .error e := by
  obtain ⟨fs, hw, cs, dict, ops, h⟩ := load_eq_ok.1 hc
  refine ⟨_, h.dump, h.dump_unchanged, h.dump_again, ?_, ?_⟩
  · intro hkind htimes s loop text
    rw [operationsOf_eq h] at hkind
    rw [Session.compile, Session.compile, hc, h.load_written hkind htimes]
  · intro x hx hkind s loop text
    rw [operationsOf_eq h] at hx
    rw [Session.compile]
    rcases hload : Config.load (writtenConfig cfg.cycle fs hw dict cs) with e | cfg'
    · exact ⟨e, rfl⟩
    · exact absurd hload (h.not_load_written hx hkind cfg')

/-- A configuration with one operation for one qubit. -/
def oneOperation (cycle duration : Value) (type : String) : Value :=
  .record [
    ("operation dictionary", .record [
      ("x", .record [("parameters", .int 1), ("duration", duration), ("type", .text type)])]),
    ("hardware specification", .record [
      ("qubit list", .ofInts [0]), ("init time", .int 200000), ("cycle time", cycle),
      ("qubit_cfgs", .list [.record [
        (type, .record [("qumis", .text "pulse"), ("latency", .int 10), ("format", .ofInts [5, 12]), ("awg_nr", .int 0),
          ("lut", .int 0)])]])]),
    ("luts", .list [.record [("x", .int 1)]])]

/-- Pulses of four clocks come back as they were. -/
theorem dump_compile_onePulse : ∃ cfg v, Config.load (oneOperation (.int 5) (.int 20) "rf") = .ok cfg ∧
    (Tables.ofConfig cfg.cycle (oneOperation (.int 5) (.int 20) "rf")).dump.2 = .ok v ∧
    (∀ w ∈ timesOf (oneOperation (.int 5) (.int 20) "rf"), ComesBack cfg.cycle w) ∧
    ∀ (s : Session) (loop : Bool) (text : String),
      s.compile v loop text = s.compile (oneOperation (.int 5) (.int 20) "rf") loop text := by
  have hback : (Config.load (oneOperation (.int 5) (.int 20) "rf")).map (fun cfg =>
      decide (∀ w ∈ timesOf (oneOperation (.int 5) (.int 20) "rf"), ComesBack cfg.cycle w)) = .ok true := by decide +kernel
  obtain ⟨cfg, hc, hback⟩ := map_eq_ok.1 hback
  have htimes := of_decide_eq_true hback
  obtain ⟨v, hdump, -, -, hsame, -⟩ := dump_compile hc
  refine ⟨cfg, v, hc, congrArg Prod.snd hdump, htimes, hsame (fun x hx => ?_) htimes⟩
  obtain rfl := mem_singleton.1 hx
  exact fun htype => absurd (Value.text.inj (Option.some.inj htype)) (by decide)

/-- The configuration that is written for one that loads. -/
def rewritten (config : Value) : Step Value := do
  let cfg ← Config.load config
  (Tables.ofConfig cfg.cycle config).dump.2

/-- A second dump fails, a measurement is not read again, and three clocks of 0.7 nanoseconds come back as two. -/
theorem dump_compile_differs :
    ((Config.load (oneOperation (.int 5) (.int 20) "rf")).bind fun cfg =>
      ((Tables.ofConfig cfg.cycle (oneOperation (.int 5) (.int 20) "rf")).afterDumps 1).dump.2.map fun _ => ()) =
        .error (.typeUnexpected "rf") ∧
      ((compile (oneOperation (.int 5) (.int 20) "measurement") true "qubit q0\nmap q0 0\nx q0").map (·.assembly)).isOk = true ∧
      ((rewritten (oneOperation (.int 5) (.int 20) "measurement")).bind fun v =>
        (compile v true "qubit q0\nmap q0 0\nx q0").map (·.assembly)) = .error (.operationType "measure" "x") ∧
      (Config.load (oneOperation (.real 0.7) (.real 2.2) "rf")).map (fun cfg =>
        (cfg.operations.lookup "x").map (·.duration)) = .ok (some 3) ∧
      ((rewritten (oneOperation (.real 0.7) (.real 2.2) "rf")).bind fun v => (Config.load v).map fun cfg =>
        (cfg.operations.lookup "x").map (·.duration)) = .ok (some 2) := by
  decide +kernel

end QubitLab.Qasm
