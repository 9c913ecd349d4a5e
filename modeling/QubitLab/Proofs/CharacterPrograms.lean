import QubitLab.Proofs.BenchmarkPrograms

/-!
# Character benchmarking performs the named Pauli

Each kernel of character benchmarking is named after a Pauli of each qubit, and its gates multiply to these
(`Character.kernels_perform_pauli`), because the Pauli is joined with the first Clifford of a sequence that does nothing. The
kernel keeps to the benchmarked qubits if and only if they are the two on which the controlled-phase pulse is always
played, or no such pulse is played at all: the random Cliffords are local, and so are then the recovery and the joined
Clifford (`Pair.IsLocal`). `Character.kernels_stray` is a program that leaves its qubits.
-/

namespace QubitLab

open List

namespace Clifford

open Action

/-! ## Local Cliffords -/

namespace Pair

/-- The Clifford acts on each qubit by itself. -/
def IsLocal (n : Int) : Prop := 0 ≤ n ∧ n < 576

variable {n : Nat}

theorem action_local (hn : n < 576) : action n = placed (n / 24) (n % 24) := by
  have hsize : n < size := by unfold size; omega
  have hdiv : n / 576 = 0 := by omega
  have hmod : n / 24 % 24 = n / 24 := by omega
  rw [action_eq hsize, hdiv, hmod]
  exact identity_mul (placed_proper _ _)

theorem exists_local {a b : Nat} (ha : a < 24) (hb : b < 24) : ∃ k < 576, placed a b = action k := by
  refine ⟨24 * a + b, by omega, ?_⟩
  rw [action_local (by omega)]
  congr 1 <;> omega

theorem exists_local_mul {m : Nat} (hm : m < 576) (hn : n < 576) : ∃ k < 576, mul (action m) (action n) = action k := by
  rw [action_local hm, action_local hn]
  obtain ⟨i, hi, j, hj, h⟩ := exists_placed_mul (a := m / 24) (b := m % 24) (c := n / 24) (d := n % 24)
    (by omega) (by omega) (by omega) (by omega)
  rw [h]
  exact exists_local hi hj

theorem exists_local_inverse (hn : n < 576) : ∃ k < 576, mul (action k) (action n) = identity 16 := by
  obtain ⟨a, ha, b, hb, hundo⟩ := exists_placed_inverse (a := n / 24) (b := n % 24) (by omega) (by omega)
  obtain ⟨k, hk, h⟩ := exists_local ha hb
  exact ⟨k, hk, by rw [← h, action_local hn, hundo]⟩

theorem exists_local_inTurn {ns : List Nat} (h : ∀ n ∈ ns, n < 576) : ∃ k < 576, inTurn 16 (ns.map action) = action k := by
  induction ns using List.reverseRecOn with
  | nil => exact ⟨0, by decide, rfl⟩
  | append_singleton ns n ih =>
    obtain ⟨k, hk, hact⟩ := ih fun m hm => h m (by simp [hm])
    rw [map_append, map_singleton, inTurn_concat, hact]
    exact exists_local_mul (h n (by simp)) hk

theorem lt_of_mul_eq_identity {r : Nat} (hr : r < size) (hn : n < 576) (h : mul (action r) (action n) = identity 16) :
    r < 576 := by
  have hsize : n < size := by unfold size; omega
  obtain ⟨k, hk, hundo⟩ := exists_local_inverse hn
  have hksize : k < size := by unfold size; omega
  have hback : mul (action n) (action k) = identity 16 := mul_eq_identity_comm (proper hsize) (proper hksize) hundo
  have heq : action r = action k := by
    rw [← mul_identity (proper hr), ← hback, ← mul_assoc' (proper hr) (proper hsize) (proper hksize), h,
      identity_mul (proper hksize)]
  rwa [Group.action_inj (g := .pair) hr hksize heq]

theorem cz_mem_gates (n : Nat) : .cz ∈ gates n ↔ ¬ n < 576 := by
  have hrotate {place : Rotation → PairGate} (hplace : ∀ r, place r ≠ .cz) (k : Nat) : .cz ∉ rotate place k := by
    simp [rotate, hplace]
  by_cases hn : n < 576
  · rw [gates, kind, if_pos hn, mem_append]
    exact iff_of_false (not_or.2 ⟨hrotate (by simp) _, hrotate (by simp) _⟩) (not_not.2 hn)
  · refine iff_of_true ?_ hn
    rw [gates, kind, if_neg hn]
    split_ifs <;> simp only [mem_append, mem_singleton, true_or, or_true]

end Pair

theorem Yields.mono {α : Type} {P Q : α → Prop} {x : Drawing α} (h : Yields x P) (hpq : ∀ a, P a → Q a) : Yields x Q := by
  intro m
  obtain ⟨a, m', hx, ha⟩ := h m
  exact ⟨a, m', hx, hpq a ha⟩

theorem recovery_local {ns : List Int} (hns : ∀ n ∈ ns, Pair.IsLocal n) {r : Nat} (hr : r < Pair.size)
    (h : mul (Pair.action r) (inTurn 16 (ns.map fun n => Pair.action n.natAbs)) = Pair.action 0) : r < 576 := by
  have hall : ∀ n ∈ ns.map Int.natAbs, n < 576 := forall_mem_map.2 fun n hn => by
    obtain ⟨h0, hlt⟩ := hns n hn
    omega
  obtain ⟨k, hk, hact⟩ := Pair.exists_local_inTurn hall
  rw [map_map] at hact
  exact Pair.lt_of_mul_eq_identity hr hk (hact ▸ h)

theorem cz_mem_cliffordGates {n : Int} {gs : List PairGate} (hn : Program.Playable .pair n)
    (h : Program.cliffordGates .pair n = .ok gs) : .cz ∈ gs ↔ ¬ Pair.IsLocal n := by
  rcases hn with ⟨h0, hlt⟩ | ⟨-, rfl⟩
  · lift n to Nat using h0
    rw [Program.cliffordGates, if_neg (by unfold Program.barePhase; omega), cliffordNumber_eq (by omega)] at h
    cases h
    refine (Pair.cz_mem_gates n).trans (not_congr ?_)
    unfold Pair.IsLocal
    omega
  · cases h
    exact iff_of_true (by simp) (by unfold Pair.IsLocal; decide)

end Clifford

namespace Program

open Clifford Instruction

/-! ## Instructions and their qubits -/

/-- The qubits that an instruction acts on. -/
def Instruction.qubits (i : Instruction) : List Qubit :=
  match i with
  | ⟨"gate", _ :: .list qs :: _⟩ => qs
  | ⟨_, qs⟩ => qs

/-- All instructions of a kernel act on some of the qubits. -/
def Kernel.KeepsTo (k : Kernel) (qs : List Int) : Prop := ∀ i ∈ k.body, ∀ q ∈ i.qubits, q ∈ qs.map Value.int

/-- The instruction with a pulse on both qubits, in either order, written as the controlled-phase gate. -/
def Instruction.respelled (pulse : String) (p q : Int) (i : Instruction) : Instruction :=
  match i with
  | ⟨"gate", [.text g, .list [.int a, .int b]]⟩ =>
    if g = pulse ∧ (a = p ∧ b = q ∨ a = q ∧ b = p) then gate "cz" [.int p, .int q] else i
  | i => i

/-- The gates of a kernel before its measurements, where a pulse is the controlled-phase gate. -/
def Kernel.gatesWith? (pulse : String) (p q : Int) (k : Kernel) : Option (List PairGate) :=
  Kernel.gates? [p, q] { k with body := k.body.map (Instruction.respelled pulse p q) }

namespace Character

/-- Benchmarking of two different qubits. -/
def plain (p q : Int) (pulse : String) : Character := ⟨.int p, .int q, pulse⟩

/-- The pulse is played on the benchmarked qubits. -/
def Matches (p q : Int) : Prop := p = 2 ∧ q = 0 ∨ p = 0 ∧ q = 2

theorem gateBody_cons (qs : List Qubit) (phase : PhaseGate) (g : PairGate) (gs : List PairGate) :
    gateBody qs phase (g :: gs) = gateBody qs phase [g] ++ gateBody qs phase gs := by
  simp [gateBody]

theorem keepsTo_kernelOf (p q : Int) (pulse name : String) (gs : List PairGate) :
    ((plain p q pulse).kernelOf name gs).KeepsTo [p, q] ↔ .cz ∉ gs ∨ Matches p q := by
  have hpulse : (∀ i ∈ gateBody [.int p, .int q] (plain p q pulse).phase [.cz], ∀ x ∈ i.qubits, x ∈ [p, q].map Value.int) ↔
      Matches p q := by
    simp only [gateBody, PhaseGate.body, phase, flatMap_singleton]
    simp [Instruction.qubits, gate, Instruction.apply, Instruction.barrier, pause, Matches]
    omega
  have hbody : (∀ i ∈ gateBody [.int p, .int q] (plain p q pulse).phase gs, ∀ x ∈ i.qubits, x ∈ [p, q].map Value.int) ↔
      .cz ∉ gs ∨ Matches p q := by
    induction gs with
    | nil => simp [gateBody]
    | cons g gs ih =>
      rw [gateBody_cons, forall_mem_append, ih]
      cases g with
      | first r => simp [gateBody, Instruction.qubits, gate, Instruction.apply]
      | second r => simp [gateBody, Instruction.qubits, gate, Instruction.apply]
      | cz =>
        rw [hpulse]
        simp +contextual
  have hends : ∀ x ∈ [Value.int p, Value.int q], ∀ y ∈ (prepare x).qubits ++ (Instruction.measure x).qubits,
      y ∈ [p, q].map Value.int := by
    simp [Instruction.qubits, prepare, Instruction.measure]
  rw [← hbody, Kernel.KeepsTo, kernelOf, kernel]
  simp only [forall_mem_append, forall_mem_cons] at hends ⊢
  exact ⟨fun h => h.1.2, fun h => ⟨⟨⟨hends.1.1, hends.2.1.1, by simp⟩, h⟩, hends.1.2, hends.2.1.2, by simp⟩⟩

variable {p q : Int}

theorem respelled_gateBody (pulse : String) {gs : List PairGate} (h : .cz ∉ gs ∨ Matches p q) :
    (gateBody [.int p, .int q] (plain p q pulse).phase gs).map (Instruction.respelled pulse p q) =
      gateBody [.int p, .int q] (plainPhase [p, q]) gs := by
  induction gs with
  | nil => rfl
  | cons g gs ih =>
    rw [gateBody_cons, map_append, ih (h.imp_left fun h hm => h (.tail _ hm)), gateBody_cons _ _ g gs]
    refine congrArg (· ++ _) ?_
    cases g with
    | first r => rfl
    | second r => rfl
    | cz =>
      have hqs : 2 = p ∧ 0 = q ∨ 2 = q ∧ 0 = p := by
        have := h.resolve_left (by simp)
        unfold Matches at this
        omega
      change [_, Instruction.respelled pulse p q (gate pulse [.int 2, .int 0]), _] = [_, _, _]
      rw [show Instruction.respelled pulse p q (gate pulse [.int 2, .int 0]) = gate "cz" [.int p, .int q] from
        if_pos ⟨rfl, hqs⟩]
      rfl

theorem gatesWith?_kernelOf (hpq : p ≠ q) (pulse name : String) {gs : List PairGate} (h : .cz ∉ gs ∨ Matches p q) :
    ((plain p q pulse).kernelOf name gs).gatesWith? pulse p q = some gs := by
  have hplays : Plays [p, q] ([prepare (.int p), prepare (.int q)] ++ gateBody [.int p, .int q] (plainPhase [p, q]) gs) gs :=
    ((Plays.prepare _).append (.prepare _)).append (plays_gateBody (g := .pair) ⟨p, q, hpq, rfl⟩ fun _ _ => trivial)
  have hbody : ((plain p q pulse).kernelOf name gs).body.map (Instruction.respelled pulse p q) =
      ([prepare (.int p), prepare (.int q)] ++ gateBody [.int p, .int q] (plainPhase [p, q]) gs) ++
        [Instruction.measure (.int p), Instruction.measure (.int q)] := by
    rw [← respelled_gateBody pulse h, kernelOf, kernel, map_append, map_append]
    rfl
  rw [Kernel.gatesWith?, hbody, Kernel.gates?, takeWhile_append_of_pos hplays.noMeasure,
    takeWhile_cons_of_neg (by simp [Instruction.measure]), append_nil, hplays.gates]

/-! ## Sequences -/

/-- The Paulis of a name, that of the second qubit first. -/
def pauliAction (name : String) : Action :=
  match name.toList with
  | [a, b] => Action.pair (Single.pauli ("IXYZ".toList.idxOf a)) (Single.pauli ("IXYZ".toList.idxOf b))
  | _ => Action.identity 16

theorem length_paulis : ∀ paulis ∈ characterPaulis, paulis.length = 4 := by decide

/-- The numbers of the Paulis are those of local Cliffords that do them. -/
theorem exists_pauli {paulis : List String} (h : paulis ∈ characterPaulis) {pauli : String} (hp : pauli ∈ paulis) :
    ∃ c : Nat, (commonNumber? pauli).getD 0 = c ∧ c < 576 ∧ Pair.action c = pauliAction pauli := by
  have hall : ∀ paulis ∈ characterPaulis, ∀ pauli ∈ paulis, (commonNumber? pauli).getD 0 < 576 ∧
      0 ≤ (commonNumber? pauli).getD 0 ∧ Pair.action ((commonNumber? pauli).getD 0).toNat = pauliAction pauli := by
    decide +kernel
  obtain ⟨hlt, h0, hact⟩ := hall paulis h pauli hp
  exact ⟨_, (Int.toNat_of_nonneg h0).symm, by omega, hact⟩

theorem yields_pick : Yields (drawn fun m => .ok (m.draw 4 1)) fun l => ∃ i < 4, l = [i] := by
  intro m
  obtain ⟨hlen, hlt⟩ := Random.Mersenne.draw_spec (show 0 < 4 by decide) 1 m
  obtain ⟨i, hi⟩ := length_eq_one_iff.1 hlen
  exact ⟨(m.draw 4 1).1, (m.draw 4 1).2, rfl, i, hlt i (by rw [hi]; exact mem_singleton_self i), hi⟩

theorem cz_mem_flatten {ns : List Int} {gss : List (List PairGate)} (hns : ∀ n ∈ ns, Playable .pair n)
    (h : ns.mapM (cliffordGates .pair) = .ok gss) : .cz ∈ gss.flatten ↔ ∃ n ∈ ns, ¬ Pair.IsLocal n := by
  replace h := mapM_eq_ok.1 h
  induction h with
  | nil => simp
  | cons hgs _ ih =>
    have hhead := cz_mem_cliffordGates (hns _ mem_cons_self) hgs
    have htail := ih fun n hn => hns n (mem_cons_of_mem _ hn)
    rw [flatten_cons, exists_mem_cons_iff]
    exact mem_append.trans (or_congr hhead htail)

/-- The kernel has the name of a Pauli of the class, and its gates multiply to this Pauli. -/
def Performs (b : Character) (name : String → String) (hasPhase : Prop) (paulis : List String) (k : Kernel) : Prop :=
  ∃ pauli ∈ paulis, ∃ gs, k = b.kernelOf (name pauli) gs ∧
    (gs.map PairGate.matrix).reverse.prod = (pauliAction pauli).transfer 16 ∧ (.cz ∈ gs ↔ hasPhase)

theorem yields_sequenceKernels (b : Character) (name : String → String) {f : Nat} {rest : List Int} (hf : f < 576)
    (hrest : ∀ n ∈ rest, Playable .pair n)
    (hnet : Action.inTurn 16 (((f : Int) :: rest).map fun n => Pair.action n.natAbs) = Action.identity 16) :
    Yields (b.sequenceKernels name (f :: rest))
      (List.Forall₂ (b.Performs name (∃ n ∈ rest, ¬ Pair.IsLocal n)) characterPaulis) := by
  obtain ⟨gss, hgss, -, hgates⟩ := exists_mapM_gates hrest
  have hprod : (gss.flatten.map PairGate.matrix).reverse.prod =
      (Action.inTurn 16 (rest.map fun n => Pair.action n.natAbs)).transfer 16 := hgates
  have hsize {n : Nat} (hn : n < 576) : n < Group.pair.size := by change n < 11520; omega
  have hproper : ∀ a ∈ rest.map fun n => Pair.action n.natAbs, a.Proper 16 :=
    forall_mem_map.2 fun n hn => Pair.proper (hrest n hn).natAbs_lt
  have hundo : (Action.inTurn 16 (rest.map fun n => Pair.action n.natAbs)).transfer 16 * (Pair.action f).transfer 16 = 1 := by
    have hfirst : ∀ a ∈ [Pair.action f], a.Proper 16 := by simpa using Pair.proper (hsize hf)
    rw [← Action.transfer_identity, ← hnet, map_cons, ← singleton_append, Int.natAbs_natCast,
      Action.inTurn_append hfirst hproper, Action.transfer_mul (.inTurn hfirst)]
    exact congrArg (_ * Action.transfer 16 ·) (Action.mul_identity (Pair.proper (hsize hf))).symm
  refine (Yields.lift (P := (· = (f : Int))) rfl rfl).bind fun first hfirst => ?_
  refine (Yields.lift (P := (· = gss)) hgss rfl).bind fun gss' hgss' => .mapM fun paulis hpaulis => ?_
  refine yields_pick.bind fun l hl => ?_
  obtain ⟨i, hi, rfl⟩ := hl
  have hmem : paulis.getD i "" ∈ paulis := by
    have hlen := length_paulis paulis hpaulis
    rw [getD_eq_getElem _ _ (by omega)]
    exact getElem_mem _
  obtain ⟨c, hc, hlt, hact⟩ := exists_pauli hpaulis hmem
  obtain ⟨k, hk, hmul, hkact⟩ := Group.mul?_eq (hsize hf) (hsize hlt)
  have hlocal : k < 576 := by
    obtain ⟨j, hj, hjact⟩ := Pair.exists_local_mul hf hlt
    rwa [Group.action_inj (g := .pair) hk (hsize hj) (hkact.trans hjact)]
  refine (Yields.lift (P := (· = c)) (by rw [headD_cons, hc]; exact cliffordNumber_eq (hsize hlt)) rfl).bind fun c' hc' => ?_
  refine (Yields.lift (P := (· = f)) (by rw [hfirst]; exact cliffordNumber_eq (hsize hf)) rfl).bind fun f' hf' => ?_
  refine (Yields.lift (P := (· = k)) (by rw [hc', hf', hmul]; rfl) rfl).bind fun k' hk' => .pure ?_
  rw [hk', hgss']
  refine ⟨_, hmem, _, rfl, ?_, ?_⟩
  · have hjoined : ((gatesOf .pair k).map PairGate.matrix).reverse.prod =
        (Pair.action f).transfer 16 * (Pair.action c).transfer 16 := by
      rw [← Action.transfer_mul (Pair.proper (hsize hlt))]
      exact (Group.prod_gateMatrix hk).trans (congrArg (Action.transfer 16) hkact)
    have hpauli : (Action.inTurn 16 (rest.map fun n => Pair.action n.natAbs)).transfer 16 *
        ((Pair.action f).transfer 16 * (Pair.action c).transfer 16) = (Pair.action c).transfer 16 := by
      rw [← mul_assoc, hundo, one_mul]
    rw [map_append, reverse_append, prod_append, hjoined, hprod, hpauli, hact]
  · have hnone : .cz ∉ gatesOf .pair k := fun h => (Pair.cz_mem_gates k).1 h hlocal
    exact mem_append.trans ((or_iff_right hnone).trans (cz_mem_flatten hrest hgss))

/-! ## Programs -/

/-- The kernel's name is that of a character sequence. -/
def IsSequence (k : Kernel) : Prop := "CharBench_P".toList <+: k.name.toList

/-- Kernels keep to their qubits: the pulse is played on these, or no Clifford of the sequence needs it. -/
def Safe (p q : Int) (count : Int) (extra? : Option Int) : Prop :=
  Matches p q ∨ count = 0 ∨ ∀ x ∈ extra?, Pair.IsLocal x

/-- What a kernel is made for. -/
structure Point where
  seed : Nat
  count : Value
  extra : Value
  /-- The class of Paulis. -/
  paulis : List String

/-- The points of a seed, in order. -/
def points (counts extras : List Value) (seed : Nat) : List Point :=
  counts.flatMap fun c => extras.flatMap fun x => characterPaulis.map fun paulis => ⟨seed, c, x, paulis⟩

/-- The kernel is named after a Pauli of its class. It keeps to its qubits if and only if its point is safe, and then its
gates, with the pulse as the controlled-phase gate, multiply to the Pauli. -/
def Answers (p q : Int) (pulse : String) (pt : Point) (k : Kernel) : Prop :=
  IsSequence k ∧ ∃ count extra? pauli, countOf pt.count = .ok count ∧ extraOf pt.extra = .ok extra? ∧ pauli ∈ pt.paulis ∧
    k.name = kernelName (kernelText count pt.seed pt.extra pauli) ∧
    (k.KeepsTo [p, q] ↔ Safe p q count extra?) ∧
    (Safe p q count extra? → ∃ gs, k.gatesWith? pulse p q = some gs ∧
      (gs.map PairGate.matrix).reverse.prod = (pauliAction pauli).transfer 16)

theorem isSequence_kernelOf (b : Character) (count : Int) (seed : Nat) (extra : Value) (pauli : String)
    (gs : List PairGate) : IsSequence (b.kernelOf (kernelText count seed extra pauli) gs) := by
  rw [IsSequence, kernelOf, kernel]
  delta kernelText
  simp only [String.append_assoc]
  rw [toList_kernelName_append]
  exact ⟨_, congrArg (· ++ _) (by decide)⟩

theorem exists_calibration (b : Character) (calibrate second : Bool) :
    ∃ cal, b.calibration calibrate second = .ok cal ∧ ∀ k ∈ cal, ¬ IsSequence k := by
  cases calibrate with
  | false => exact ⟨[], rfl, by simp⟩
  | true =>
    obtain ⟨cal, hcal, hnames⟩ := exists_statePoints b.first b.second second
    exact ⟨cal, hcal, fun k hk => (hnames k hk).not_begins (by decide) (by decide)⟩

/-- A drawn sequence with its recovery begins with a local Clifford, and another one is not local if and only if one that
is not local was interleaved. -/
theorem exists_first {count : Int} {ns : List Int} (hns : Drawn .pair 567 count ns) {extra? : Option Int}
    (hextra : ∀ x ∈ extra?, Playable .pair x) {r : Nat} (hr : r < Pair.size)
    (hact : Action.mul (Pair.action r) (Action.inTurn 16 ((interleaved extra? ns).map fun n => Pair.action n.natAbs)) =
      Pair.action 0) :
    ∃ (f : Nat) (rest : List Int), f < 576 ∧ interleaved extra? ns ++ [(r : Int)] = (f : Int) :: rest ∧
      (∀ n ∈ rest, Playable .pair n) ∧
      ((∃ n ∈ rest, ¬ Pair.IsLocal n) ↔ ¬ (count = 0 ∨ ∀ x ∈ extra?, Pair.IsLocal x)) := by
  have hplayable : ∀ n ∈ interleaved extra? ns ++ [(r : Int)], Playable .pair n := by
    rw [forall_mem_append, forall_mem_singleton]
    exact ⟨playable_interleaved hns hextra, .inl ⟨by omega, by change (r : Int) < (Pair.size : Nat); omega⟩⟩
  have hdrawn : ∀ n ∈ ns, Pair.IsLocal n := fun n hn => by
    obtain ⟨h0, -, hlt⟩ := hns.2 n hn
    exact ⟨h0, by omega⟩
  cases ns with
  | nil =>
    have hnone : ∀ n ∈ ([] : List Int), Pair.IsLocal n := by simp
    have hr' : r < 576 := recovery_local hnone hr (by cases extra? <;> exact hact)
    have hcount : count = 0 := hns.1.symm
    refine ⟨r, [], hr', by cases extra? <;> rfl, by simp, ?_⟩
    simp [hcount]
  | cons a ns =>
    have hcount : count ≠ 0 := by
      have := hns.1
      rw [length_cons] at this
      omega
    obtain ⟨h0, hlt⟩ := hdrawn a mem_cons_self
    lift a to Nat using h0
    obtain ⟨rest, hrest, hextraRest⟩ : ∃ rest : List Int,
        interleaved extra? ((a : Int) :: ns) = (a : Int) :: rest ∧ ∀ x ∈ extra?, x ∈ rest := by
      cases extra? with
      | none => exact ⟨ns, rfl, by simp⟩
      | some x => exact ⟨x :: interleave x ns, rfl, by simp⟩
    refine ⟨a, rest ++ [(r : Int)], by omega, by rw [hrest]; rfl, ?_, ?_⟩
    · intro n hn
      exact hplayable n (by rw [hrest]; exact mem_cons_of_mem _ hn)
    · rw [or_iff_right hcount]
      constructor
      · rintro ⟨n, hn, hnot⟩ hlocal
        -- all are local, so the recovery is, too
        have hall := forall_mem_interleaved hdrawn hlocal
        have hr' := recovery_local hall hr hact
        rcases mem_append.1 hn with hn | hn
        · exact hnot (hall n (hrest ▸ mem_cons_of_mem _ hn))
        · exact hnot (mem_singleton.1 hn ▸ ⟨by omega, by omega⟩)
      · intro hnot
        simp only [not_forall] at hnot
        obtain ⟨x, hx, hnot⟩ := hnot
        exact ⟨x, mem_append_left _ (hextraRest x hx), hnot⟩

theorem yields_pointKernels (hpq : p ≠ q) (pulse : String) (seed : Nat) {c : Value} {count : Int}
    (hc : countOf c = .ok count) (h0 : 0 ≤ count) {extra : Value} {extra? : Option Int} (hextra : extraOf extra = .ok extra?)
    (hplayable : ∀ x ∈ extra?, Playable .pair x) :
    Yields ((plain p q pulse).pointKernels seed count extra)
      (List.Forall₂ (Answers p q pulse) (characterPaulis.map fun paulis => ⟨seed, c, extra, paulis⟩)) := by
  refine (Yields.lift (P := (· = extra?)) hextra rfl).bind fun e he => ?_
  rw [he]
  refine (yields_drawSequence (by decide) h0 _).bind fun seq hseq => ?_
  obtain ⟨ns, rfl, hns⟩ := hseq
  have hvalid : ∀ n ∈ interleaved extra? ns, n.natAbs < Group.pair.size := fun n hn =>
    (playable_interleaved hns hplayable n hn).natAbs_lt
  obtain ⟨r, hr, hrecovery, hact⟩ := recoveryOf_eq hvalid (w := 0) (by decide)
  refine (Yields.lift (P := (· = r)) hrecovery rfl).bind fun r' hr' => ?_
  obtain ⟨f, rest, hf, hseq, hrest, hphase⟩ := exists_first hns hplayable hr hact
  have hnet : Action.inTurn 16 (((f : Int) :: rest).map fun n => Pair.action n.natAbs) = Action.identity 16 := by
    rw [← hseq, map_append, map_singleton, Action.inTurn_concat]
    exact hact
  rw [hr', hseq]
  refine (yields_sequenceKernels (plain p q pulse) (kernelText count seed extra) hf hrest hnet).mono fun ks hks => ?_
  refine forall₂_map_left_iff.2 (hks.imp fun paulis k hk => ?_)
  obtain ⟨pauli, hpauli, gs, rfl, hprod, hcz⟩ := hk
  have hsafe : .cz ∉ gs ∨ Matches p q ↔ Safe p q count extra? := by
    rw [hcz, hphase, not_not, Safe, or_comm]
  refine ⟨isSequence_kernelOf _ _ _ _ _ gs, count, extra?, pauli, hc, hextra, hpauli, rfl, ?_, fun h => ?_⟩
  · rw [keepsTo_kernelOf, hsafe]
  · exact ⟨gs, gatesWith?_kernelOf hpq pulse _ (hsafe.2 h), hprod⟩

theorem yields_kernels (hpq : p ≠ q) (pulse : String) (seeds : Nat) {counts extras : List Value}
    (hcounts : ∀ c ∈ counts, ∃ n, countOf c = .ok n ∧ 0 ≤ n)
    (hextras : ∀ x ∈ extras, ∃ extra?, extraOf x = .ok extra? ∧ ∀ y ∈ extra?, Playable .pair y) (calibrate second : Bool) :
    ∃ cal, (∀ k ∈ cal, ¬ IsSequence k) ∧
      Yields ((plain p q pulse).kernels seeds counts extras calibrate second) fun ks => ∃ rows, ks = rows.flatMap (· ++ cal) ∧
        List.Forall₂ (fun seed row => List.Forall₂ (Answers p q pulse) (points counts extras seed) row)
          (List.range seeds) rows := by
  obtain ⟨cal, hcal, hnames⟩ := exists_calibration (plain p q pulse) calibrate second
  refine ⟨cal, hnames, ?_⟩
  refine (Yields.mapM (R := fun seed row => ∃ ks, row = ks ++ cal ∧
    List.Forall₂ (Answers p q pulse) (points counts extras seed) ks) fun seed _ => ?_).bind fun rows hrows => .pure ?_
  · refine (Yields.mapM (R := fun c ks => List.Forall₂ (Answers p q pulse)
      (extras.flatMap fun x => characterPaulis.map fun paulis => ⟨seed, c, x, paulis⟩) ks) fun c hc => ?_).bind fun kss hkss => ?_
    · obtain ⟨n, hn, h0⟩ := hcounts c hc
      refine (Yields.lift (P := (· = n)) hn rfl).bind fun count hcount => ?_
      rw [hcount]
      refine (Yields.mapM fun x hx => ?_).bind fun kss hkss => .pure (Benchmark.forall₂_flatMap hkss)
      obtain ⟨extra?, hextra, hplayable⟩ := hextras x hx
      exact yields_pointKernels hpq pulse seed hn h0 hextra hplayable
    · exact (Yields.lift (P := (· = cal)) hcal rfl).bind fun e he =>
        .pure ⟨kss.flatten, by rw [he], Benchmark.forall₂_flatMap hkss⟩
  · obtain ⟨kss, rfl, hkss⟩ := exists_map_of_forall₂ hrows
    exact ⟨kss, rfl, hkss⟩

/-- From every state of the generator there is one kernel for each point, with the name of a Pauli. It keeps to the two
qubits if and only if these are the ones of the pulse, or there are no Cliffords, or the interleaved one is local; and
then its gates multiply to the Pauli. After the kernels of each seed come calibration points. -/
theorem kernels_perform_pauli (p q : Int) (hpq : p ≠ q) (pulse : String) (seeds : Nat) (counts extras : List Value)
    (hcounts : ∀ c ∈ counts, ∃ n, countOf c = .ok n ∧ 0 ≤ n)
    (hextras : ∀ x ∈ extras, ∃ extra?, extraOf x = .ok extra? ∧ ∀ y ∈ extra?, Playable .pair y)
    (calibrate second : Bool) (m : Random.Mersenne) :
    ∃ rows cal m', (plain p q pulse).kernels seeds counts extras calibrate second m =
        (.ok (rows.flatMap (· ++ cal)), m') ∧
      List.Forall₂ (fun seed row => List.Forall₂ (Answers p q pulse) (points counts extras seed) row)
        (List.range seeds) rows ∧
      ∀ k ∈ cal, ¬ IsSequence k := by
  obtain ⟨cal, hnames, hall⟩ := yields_kernels hpq pulse seeds hcounts hextras calibrate second
  obtain ⟨_, m', hrun, rows, rfl, hrows⟩ := hall m
  exact ⟨rows, cal, m', hrun, hrows, hnames⟩

/-- Bare controlled-phase gates between local Cliffords, on the qubits of the pulse. -/
theorem kernels_perform_pauli_phase :
    ∃ rows cal m', (plain 0 2 "fl_cw_01").kernels 2 [.int 3] [.null, .int (-4368)] true true (Random.Mersenne.seeded 1) =
        (.ok (rows.flatMap (· ++ cal)), m') ∧
      List.Forall₂ (fun seed row => List.Forall₂ (Answers 0 2 "fl_cw_01") (points [.int 3] [.null, .int (-4368)] seed) row)
        (List.range 2) rows ∧
      ∀ k ∈ cal, ¬ IsSequence k := by
  refine kernels_perform_pauli 0 2 (by decide) "fl_cw_01" 2 _ _ ?_ ?_ true true _
  · intro c hc
    cases mem_singleton.1 hc
    exact ⟨3, rfl, by decide⟩
  · intro x hx
    rcases mem_cons.1 hx with rfl | hx
    · exact ⟨none, rfl, by simp⟩
    · cases mem_singleton.1 hx
      exact ⟨some (-4368), rfl, fun y hy => Option.mem_some_iff.1 hy ▸ .inr ⟨rfl, rfl⟩⟩

/-- On other qubits a bare controlled-phase gate leaves them. -/
theorem kernels_stray : ∃ ks m', (plain 0 1 "cz").kernels 1 [.int 1] [.int (-4368)] false false (Random.Mersenne.seeded 0) =
    (.ok ks, m') ∧ ∃ k ∈ ks, IsSequence k ∧ ¬ k.KeepsTo [0, 1] := by
  have hcounts : ∀ c ∈ [Value.int 1], ∃ n, countOf c = .ok n ∧ 0 ≤ n := by
    intro c hc
    cases mem_singleton.1 hc
    exact ⟨1, rfl, by decide⟩
  have hextras : ∀ x ∈ [Value.int (-4368)], ∃ extra?, extraOf x = .ok extra? ∧ ∀ y ∈ extra?, Playable .pair y := by
    intro x hx
    cases mem_singleton.1 hx
    exact ⟨some (-4368), rfl, fun y hy => Option.mem_some_iff.1 hy ▸ .inr ⟨rfl, rfl⟩⟩
  obtain ⟨cal, -, hall⟩ := yields_kernels (p := 0) (q := 1) (by decide) "cz" 1 hcounts hextras false false
  obtain ⟨ks, m', hrun, rows, rfl, hrows⟩ := hall (Random.Mersenne.seeded 0)
  obtain ⟨row, rows, hrow, -, rfl⟩ := forall₂_cons_left_iff.1 hrows
  obtain ⟨k, row, ⟨hname, count, extra?, pauli, hcount, hextra, -, -, hkeeps, -⟩, -, rfl⟩ := forall₂_cons_left_iff.1 hrow
  refine ⟨_, m', hrun, k, by simp, hname, fun h => ?_⟩
  cases hcount
  cases hextra
  -- neither the qubits nor the number of Cliffords nor the interleaved one is safe
  rcases hkeeps.1 h with h | h | h
  · unfold Matches at h
    omega
  · cases h
  · have := (h (-4368) rfl).1
    omega

end Character

end Program

end QubitLab
