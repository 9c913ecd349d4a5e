import QubitLab.Proofs.PulseTiming

/-!
# Lines that declare and map qubits

Before a program is timed, the lines that declare or map qubits are taken out of it. The walk along the lines counts
operations and not lines, so behind a line of `n` operations that start together it passes `n - 1` lines without a look:
these are the lines of `passed`. `collect_consumes_iff`: all declarations and maps are taken out and noted exactly if no
passed line holds one. A declaration that is left ends the timing, so a program that compiles has none there; but a
program with one is refused (`collect_leftDeclaration`).
-/

namespace QubitLab.Qasm

/-! ## What lines declare -/

/-- The qubits that an operation declares. -/
def SourceOp.declared (op : SourceOp) : List String := if op.kind = .declare then op.params else []

/-- The entry of the qubit map that an operation gives. -/
def SourceOp.mapped (op : SourceOp) : List (String × Step Int) :=
  match op.kind, op.params with
  | .map, [q, target] => ((Decimal.readInt? 10 target.toList).map fun n => (q, .ok n)).toList
  | _, _ => []

/-- Names with what operations declare and map; a fixed map stays. -/
def QubitNames.noting (names : QubitNames) (ops : List SourceOp) : QubitNames :=
  { names with
    declared := names.declared ++ ops.flatMap SourceOp.declared
    map := if names.fixed then names.map else names.map ++ ops.flatMap SourceOp.mapped }

theorem QubitNames.noting_append (names : QubitNames) (xs ys : List SourceOp) :
    (names.noting xs).noting ys = names.noting (xs ++ ys) := by
  obtain ⟨declared, map, fixed⟩ := names
  cases fixed <;> simp [QubitNames.noting]

theorem QubitNames.noting_silent (names : QubitNames) {ops : List SourceOp} (h : ∀ op ∈ ops, op.declares = false) :
    names.noting ops = names := by
  have hop {op : SourceOp} (hop : op.declares = false) : op.declared = [] ∧ op.mapped = [] := by
    simp only [SourceOp.declares, Bool.or_eq_false_iff, beq_eq_false_iff_ne] at hop
    rw [SourceOp.declared, if_neg hop.1, SourceOp.mapped]
    split
    · exact absurd ‹_› hop.2
    · exact ⟨rfl, rfl⟩
  rw [QubitNames.noting, List.flatMap_eq_nil_iff.2 fun op h' => (hop (h op h')).1,
    List.flatMap_eq_nil_iff.2 fun op h' => (hop (h op h')).2, List.append_nil, List.append_nil, ite_self]

variable {names names' : QubitNames} {physical : List Int} {lines : List (List SourceOp)}

theorem declare_noting {physical line : Nat} {qs : List String} (h : names.declare physical line qs = (names', none)) :
    names' = { names with declared := names.declared ++ qs } := by
  induction qs generalizing names with
  | nil =>
    obtain ⟨rfl, -⟩ := Prod.mk.inj h
    simp
  | cons q qs ih =>
    rw [QubitNames.declare] at h
    split at h
    · cases h
    · simpa using ih h

theorem addMap_noting {line : Nat} {params : List String} (h : names.addMap physical line params = (names', none)) :
    ∃ q target n, params = [q, target] ∧ Decimal.readInt? 10 target.toList = some n ∧
      names' = { names with map := names.map ++ [(q, .ok n)] } := by
  unfold QubitNames.addMap at h
  split at h
  · rename_i q target
    split at h
    · cases h
    split at h
    · cases h
    split at h
    · cases h
    rename_i n hn
    split at h
    · cases h
    · cases h
      exact ⟨q, target, n, rfl, hn, rfl⟩
  · cases h

theorem step_noting {op : SourceOp} (hd : op.declares = true)
    (h : names.step physical op = (names', none)) : names' = names.noting [op] := by
  have hk : op.kind = .declare ∨ op.kind = .map := by simpa [SourceOp.declares] using hd
  rcases hk with hk | hk
  · rw [QubitNames.step, hk] at h
    simp [declare_noting h, QubitNames.noting, SourceOp.declared, SourceOp.mapped, hk]
  · rw [QubitNames.step, hk] at h
    by_cases hf : names.fixed = true
    · simp only [if_pos hf] at h
      cases h
      rw [QubitNames.noting, if_pos hf]
      simp [SourceOp.declared, hk]
    · simp only [if_neg hf] at h
      obtain ⟨q, target, n, hp, hn, rfl⟩ := addMap_noting h
      simp [QubitNames.noting, SourceOp.declared, SourceOp.mapped, hf, hk, hp, hn]

/-! ## The walk along the lines -/

/-- The lines that are not looked at when the next `k` lines are passed: a line of `n` operations that is looked at is
passed together with the `n - 1` lines behind it. -/
def passed : Nat → List (List SourceOp) → List (List SourceOp)
  | _, [] => []
  | k + 1, l :: r => l :: passed k r
  | 0, l :: r => passed (l.length - 1) r

theorem passed_cons (k : Nat) (l : List SourceOp) (r : List (List SourceOp)) :
    passed k (l :: r) = (if k = 0 then [] else [l]) ++ passed (if k = 0 then l.length - 1 else k - 1) r := by
  cases k <;> simp [passed]

theorem passed_subset_collect {out : List (List SourceOp)} {k : Nat}
    (h : QubitNames.collect physical names k lines = (names', .ok out)) : passed k lines ⊆ out := by
  induction lines generalizing out names k with
  | nil => simp [passed]
  | cons l lines ih =>
    rw [passed_cons]
    obtain ⟨op, n, rfl, rfl, -, -, hrest⟩ | ⟨rest, rfl, -, hrest⟩ := collect_cons h
    · exact ih hrest
    · refine List.append_subset.2 ⟨?_, List.Subset.trans (ih hrest) (List.subset_cons_self l rest)⟩
      split <;> simp

/-- **Where no passed line declares anything**, nothing that declares is left and all declarations are noted. -/
theorem collect_noting {out : List (List SourceOp)} {k : Nat}
    (ha : ∀ l ∈ lines, ∀ op ∈ l, op.declares = true → l = [op])
    (hp : ∀ l ∈ passed k lines, ∀ op ∈ l, op.declares = false)
    (h : QubitNames.collect physical names k lines = (names', .ok out)) :
    (∀ l ∈ out, ∀ op ∈ l, op.declares = false) ∧ names' = names.noting lines.flatten := by
  induction lines generalizing out names k with
  | nil =>
    cases h
    exact ⟨by simp, (QubitNames.noting_silent _ (by simp)).symm⟩
  | cons l lines ih =>
    rw [List.forall_mem_cons] at ha
    rw [passed_cons, List.forall_mem_append] at hp
    obtain ⟨op, n, rfl, rfl, hd, hstep, hrest⟩ | ⟨rest, rfl, hone, hrest⟩ := collect_cons h
    · obtain ⟨hout, rfl⟩ := ih ha.2 hp.2 hrest
      refine ⟨hout, ?_⟩
      rw [step_noting hd hstep, QubitNames.noting_append, List.flatten_cons]
    · obtain ⟨hout, rfl⟩ := ih ha.2 hp.2 hrest
      -- a line that stays was passed, or it was looked at and does not declare
      have hl : ∀ op ∈ l, op.declares = false := by
        intro op hop
        by_cases hk : k = 0
        · by_contra hd
          have hd : op.declares = true := by simpa using hd
          rw [hone hk op (ha.1 op hop hd)] at hd
          cases hd
        · exact hp.1 l (by simp [hk]) op hop
      refine ⟨List.forall_mem_cons.2 ⟨hl, hout⟩, ?_⟩
      rw [List.flatten_cons, ← QubitNames.noting_append, names.noting_silent hl]

theorem playedLines_eq_self (h : ∀ l ∈ lines, ∀ op ∈ l, op.declares = false) : playedLines lines = lines :=
  List.filter_eq_self.2 fun l hl => by simpa using h l hl

theorem isAlone_of_declares {op : SourceOp} (h : op.declares = true) : op.kind.isAlone = true := by
  rcases (by simpa [SourceOp.declares] using h : op.kind = .declare ∨ op.kind = .map) with hk | hk <;> rw [hk] <;> rfl

/-- **Declarations are taken out of the lines of a program**, and all of them are noted in order, exactly if no line that
declares or maps qubits is among the lines that are passed. In a program that compiles none is. -/
theorem collect_consumes_iff {cfg : Config} {text : String} {lines : List (List SourceOp)}
    (hp : parseProgram cfg text = .ok lines) :
    (∀ (physical : List Int) (map : List (String × Step Int)) (fixed : Bool) (names : QubitNames)
        (out : List (List SourceOp)),
      QubitNames.collect physical { map := map, fixed := fixed } 0 lines = (names, .ok out) →
      ((out = playedLines lines ∧ names.declared = lines.flatten.flatMap SourceOp.declared ∧
          names.map = if fixed then map else map ++ lines.flatten.flatMap SourceOp.mapped) ↔
        ∀ l ∈ passed 0 lines, ∀ op ∈ l, op.declares = false)) ∧
    ∀ (s : Session) (loop : Bool) (c : Compilation), (s.compileWith cfg loop text).2 = .ok c →
      ∀ l ∈ passed 0 lines, ∀ op ∈ l, op.declares = false := by
  have halone := parseProgram_alone hp
  refine ⟨fun physical map fixed names out h => ⟨fun hout l hl => ?_, fun hpassed => ?_⟩, fun s loop c hc l hl => ?_⟩
  · exact playedLines_declares (hout.1 ▸ passed_subset_collect h hl)
  · obtain ⟨hout, rfl⟩ := collect_noting (fun l hl op hop hd => halone l hl op hop (isAlone_of_declares hd)) hpassed h
    refine ⟨?_, rfl, rfl⟩
    rw [← (collect_playedLines h).1, playedLines_eq_self hout]
  · rw [Session.compileWith, hp] at hc
    dsimp only at hc
    split at hc
    · cases hc
    rename_i names out hcollect
    have hst := (compileNamed_stages hc).1
    -- what is left has a point for each line
    intro op hop
    by_contra hd
    have hone := halone l ((collect_playedLines hcollect).2.subset (passed_subset_collect hcollect hl)) op hop
      (isAlone_of_declares (by simpa using hd))
    exact hd (linePoint_declares hst.resolved hst.placed (hone ▸ passed_subset_collect hcollect hl))

/-- Two qubits that a program declares and maps. -/
def declaringQubits : Config :=
  { twoChannels 0 4 with
    qubitMap := none
    operations := (twoChannels 0 4).operations ++
      [("qubit", ⟨.declare, .ok ⟨"-1", none⟩, 0, []⟩), ("map", ⟨.map, .ok ⟨"2", some 2⟩, 0, []⟩)] }

theorem collect_consumes_iff_betweenGates :
    ∃ lines names out,
      parseProgram declaringQubits "qubit a\nmap a 0\nx a | y a\nx a\nqubit b\nmap b 1\ny b" = .ok lines ∧
      QubitNames.collect [0, 1] {} 0 lines = (names, .ok out) ∧ (passed 0 lines).length = 1 ∧ out = playedLines lines ∧
      names.declared = ["a", "b"] ∧ names.map = [("a", .ok 0), ("b", .ok 1)] := by
  have hrun : (parseProgram declaringQubits "qubit a\nmap a 0\nx a | y a\nx a\nqubit b\nmap b 1\ny b").map (fun lines =>
      ((QubitNames.collect [0, 1] {} 0 lines).2.toOption.isSome, (passed 0 lines).length,
        decide (∀ l ∈ passed 0 lines, ∀ op ∈ l, op.declares = false),
        decide (lines.flatten.flatMap SourceOp.declared = ["a", "b"]),
        decide (lines.flatten.flatMap SourceOp.mapped = [("a", .ok 0), ("b", .ok 1)]))) =
      .ok (true, 1, true, true, true) := by
    decide +kernel
  obtain ⟨lines, hp, hshown⟩ := map_eq_ok.1 hrun
  simp only [Prod.mk.injEq] at hshown
  obtain ⟨hsome, hlength, hpassed, hdeclared, hmapped⟩ := hshown
  obtain ⟨out, hout⟩ := Option.isSome_iff_exists.1 hsome
  have hc : QubitNames.collect [0, 1] {} 0 lines = (_, .ok out) := Prod.ext rfl (toOption_eq_some.1 hout)
  obtain ⟨hplayed, hd, hm⟩ := ((collect_consumes_iff hp).1 _ _ _ _ _ hc).2 (of_decide_eq_true hpassed)
  exact ⟨lines, _, out, hp, hc, hlength, hplayed, hd.trans (of_decide_eq_true hdeclared),
    hm.trans (of_decide_eq_true hmapped)⟩

/-- A declaration behind two gates that start together is left among the lines, and is not noted. -/
theorem collect_leftDeclaration :
    (parseProgram declaringQubits "qubit a\nmap a 0\nx a | y a\nqubit b\nx a").map (fun lines =>
      let (names, out) := QubitNames.collect [0, 1] {} 0 lines
      (names.declared, out.map fun ls => ls.map fun l => l.map (·.name))) =
        .ok (["a"], .ok [["x", "y"], ["qubit"], ["x"]]) ∧
    (Session.compileWith {} declaringQubits true "qubit a\nmap a 0\nx a | y a\nqubit b\nx a").2.map (·.assembly) =
      .error .indexInvalid := by
  decide +kernel

end QubitLab.Qasm
