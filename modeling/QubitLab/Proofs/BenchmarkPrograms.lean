import QubitLab.Program.Benchmarking
import QubitLab.Proofs.GateProducts

/-!
# Benchmarking programs perform the wanted Clifford

The gates of a kernel are read back from its instructions (`Kernel.gates?`). `Benchmark.kernels_perform`: from every
state of the generator the program has one kernel for each seed, number of Cliffords, interleaved Clifford and wanted
Clifford, in this order, and its gates multiply to the wanted Clifford; all other kernels are calibration points.
-/

namespace QubitLab

open List

/-! ## Computations that draw -/

namespace Clifford

variable {α β : Type}

/-- From every state of the generator the computation gives a result, and the result has a property. -/
def Yields (x : Drawing α) (P : α → Prop) : Prop := ∀ m, ∃ a m', x m = (.ok a, m') ∧ P a

variable {P : α → Prop}

theorem Yields.pure {a : α} (h : P a) : Yields (Pure.pure a) P := fun m => ⟨a, m, rfl, h⟩

theorem Yields.lift {x : Attempt α} {a : α} (hx : x = .ok a) (h : P a) : Yields (liftM x) P :=
  fun m => ⟨a, m, by rw [hx]; rfl, h⟩

theorem Yields.bind {Q : β → Prop} {x : Drawing α} {f : α → Drawing β} (hx : Yields x P)
    (hf : ∀ a, P a → Yields (f a) Q) : Yields (x >>= f) Q := by
  intro m
  obtain ⟨a, m₁, hxa, ha⟩ := hx m
  obtain ⟨b, m₂, hfb, hb⟩ := hf a ha m₁
  refine ⟨b, m₂, ?_, hb⟩
  change ExceptT.bindCont f (x m).1 (x m).2 = _
  rw [hxa]
  exact hfb

theorem Yields.mapM {R : α → β → Prop} {f : α → Drawing β} {l : List α} (h : ∀ a ∈ l, Yields (f a) (R a)) :
    Yields (l.mapM f) (List.Forall₂ R l) := by
  induction l with
  | nil => exact .pure .nil
  | cons a l ih =>
    rw [mapM_cons]
    refine (h a (by simp)).bind fun b hb => ?_
    refine (ih fun c hc => h c (by simp [hc])).bind fun bs hbs => ?_
    exact .pure (.cons hb hbs)

theorem yields_drawSequence {g : Group} {top count : Int} (htop : 1 ≤ top) (hcount : 0 ≤ count) (extra? : Option Int) :
    Yields (drawn (drawSequence g top count extra?)) fun seq => ∃ ns, seq = interleaved extra? ns ∧ Drawn g top count ns := by
  intro m
  obtain ⟨ns, m', hdraw, hns⟩ := drawSequence_eq (g := g) htop hcount extra? m
  exact ⟨_, m', by rw [drawn, hdraw], ns, rfl, hns⟩

end Clifford

namespace Program

open Clifford Instruction

/-! ## Reading kernels -/

/-- The rotation with a name. -/
def rotationNamed? (name : String) : Option Rotation :=
  [Rotation.I, .X180, .Y180, .X90, .Y90, .mX90, .mY90, .mX180, .mY180].find? fun r => r.name == name

theorem rotationNamed?_name (r : Rotation) : rotationNamed? r.name = some r := by
  cases r <;> decide

/-- What an instruction does to the qubits: preparations and waiting times do nothing, a gate on one of the qubits is the
rotation of its name, and the gate "cz" on both qubits is the controlled-phase gate. -/
def Instruction.gates? (qs : List Int) (i : Instruction) : Option (List PairGate) :=
  match i with
  | ⟨"prepz", _⟩ => some []
  | ⟨"gate", .text g :: operands⟩ =>
    if g = "wait" then some []
    else match operands with
      | [.list [.int q]] =>
        if qs[0]? = some q then (rotationNamed? g).map fun r => [.first r]
        else if qs[1]? = some q then (rotationNamed? g).map fun r => [.second r]
        else none
      | [.list [.int p, .int q]] => if g = "cz" ∧ qs = [p, q] then some [.cz] else none
      | _ => none
  | _ => none

/-- The gates of a kernel before its measurements. -/
def Kernel.gates? (qs : List Int) (k : Kernel) : Option (List PairGate) :=
  ((k.body.takeWhile fun i => i.name != "measure").mapM (Instruction.gates? qs)).map List.flatten

/-- Instructions that are read as gates and hold no measurement. -/
structure Plays (qs : List Int) (body : List Instruction) (gs : List PairGate) : Prop where
  noMeasure : ∀ i ∈ body, (i.name != "measure") = true
  gates : (body.mapM (Instruction.gates? qs)).map List.flatten = some gs

namespace Plays

variable {qs : List Int}

theorem nil : Plays qs [] [] := ⟨by simp, rfl⟩

theorem single {i : Instruction} {gs : List PairGate} (hi : (i.name != "measure") = true) (h : i.gates? qs = some gs) :
    Plays qs [i] gs where
  noMeasure := by simpa using hi
  gates := by simp [h]

theorem append {b c : List Instruction} {gs hs : List PairGate} (h : Plays qs b gs) (h' : Plays qs c hs) :
    Plays qs (b ++ c) (gs ++ hs) where
  noMeasure i hi := (mem_append.1 hi).elim (h.noMeasure i) (h'.noMeasure i)
  gates := by
    obtain ⟨x, hx, rfl⟩ := Option.map_eq_some_iff.1 h.gates
    obtain ⟨y, hy, rfl⟩ := Option.map_eq_some_iff.1 h'.gates
    simp [mapM_append, hx, hy]

variable {α : Type} {q : Int}

theorem flatMap {l : List α} {f : α → List Instruction} {g : α → List PairGate}
    (h : ∀ x ∈ l, Plays qs (f x) (g x)) : Plays qs (l.flatMap f) (l.flatMap g) := by
  induction l with
  | nil => exact nil
  | cons x l ih => exact (h x (by simp)).append (ih fun y hy => h y (by simp [hy]))

theorem map {f : α → Instruction} {g : α → PairGate} (h : ∀ x, Plays qs [f x] [g x]) (l : List α) :
    Plays qs (l.map f) (l.map g) := by
  induction l with
  | nil => exact nil
  | cons x l ih => exact (h x).append ih

theorem map_nil {f : α → Instruction} (h : ∀ x, Plays qs [f x] []) (l : List α) : Plays qs (l.map f) [] := by
  induction l with
  | nil => exact nil
  | cons x l ih => exact (h x).append ih

theorem prepare (q : Qubit) : Plays qs [prepare q] [] := single rfl rfl

theorem barrier (l : List Qubit) : Plays qs [barrier l] [] := single rfl rfl

theorem first (h : qs[0]? = some q) (r : Rotation) : Plays qs [gate r.name [.int q]] [.first r] := by
  refine single rfl ?_
  have hname : r.name ≠ "wait" := by cases r <;> decide
  simp [gate, apply, Instruction.gates?, hname, h, rotationNamed?_name]

theorem second {p : Int} (hqs : qs = [p, q]) (hpq : p ≠ q) (r : Rotation) :
    Plays qs [gate r.name [.int q]] [.second r] := by
  refine single rfl ?_
  have hname : r.name ≠ "wait" := by cases r <;> decide
  simp [gate, apply, Instruction.gates?, hname, hqs, hpq, rotationNamed?_name]

theorem phase {p : Int} (hqs : qs = [p, q]) : Plays qs [gate "cz" [.int p, .int q]] [.cz] :=
  single rfl (by simp [gate, apply, Instruction.gates?, hqs])

end Plays

/-- The controlled-phase gate of two qubits with the usual pulse and no other pairs. -/
def plainPhase (qs : List Int) : PhaseGate := ⟨"cz", qs.map .int, [], false⟩

/-- The qubits of a group. -/
def Fits (g : Group) (qs : List Int) : Prop :=
  match g with
  | .single => ∃ q, qs = [q]
  | .pair => ∃ p q, p ≠ q ∧ qs = [p, q]

/-- The gates that the qubits of a group have. -/
def Belongs (g : Group) (x : PairGate) : Prop :=
  match g with
  | .single => ∃ r, x = .first r
  | .pair => True

variable {g : Group} {qs ns : List Int} {gs : List PairGate} {count w : Int} {extra? : Option Int} {α : Type}

theorem plays_gateBody (hqs : Fits g qs) (h : ∀ x ∈ gs, Belongs g x) :
    Plays qs (gateBody (qs.map .int) (plainPhase qs) gs) gs := by
  suffices hone : ∀ x ∈ gs, Plays qs (gateBody (qs.map .int) (plainPhase qs) [x]) [x] by
    have := Plays.flatMap hone
    rwa [flatMap_singleton', show gs.flatMap (fun x => gateBody (qs.map .int) (plainPhase qs) [x]) =
      gateBody (qs.map .int) (plainPhase qs) gs from flatMap_congr fun x _ => append_nil _] at this
  intro x hx
  match g with
  | .single =>
    obtain ⟨q, rfl⟩ := hqs
    obtain ⟨r, rfl⟩ := h x hx
    exact .first rfl r
  | .pair =>
    obtain ⟨p, q, hpq, rfl⟩ := hqs
    cases x with
    | first r => exact .first rfl r
    | second r => exact .second rfl hpq r
    | cz => exact ((Plays.barrier _).append (.phase rfl)).append (.barrier _)

theorem benchmarkKernel_gates? (hqs : qs ≠ []) (name : String) (start : Bool) {body : List Instruction}
    (h : Plays qs body gs) :
    (benchmarkKernel name (qs.map .int) start body).gates? qs = some gs := by
  have hstart : Plays qs (if start then (qs.map .int).map Instruction.prepare else []) [] := by
    cases start
    · exact .nil
    · exact .map_nil .prepare _
  have hplays := (hstart.append h).append (.barrier (qs.map .int))
  have hbody : (benchmarkKernel name (qs.map .int) start body).body.takeWhile (fun i => i.name != "measure") =
      (if start then (qs.map .int).map Instruction.prepare else []) ++ body ++ [Instruction.barrier (qs.map .int)] := by
    obtain ⟨q, rest, rfl⟩ := exists_cons_of_ne_nil hqs
    have hsplit : (benchmarkKernel name ((q :: rest).map .int) start body).body =
        ((if start then ((q :: rest).map .int).map Instruction.prepare else []) ++ body ++
          [Instruction.barrier ((q :: rest).map .int)]) ++ (measure (.int q) :: ((rest.map .int).map measure ++
            [Instruction.barrier ((q :: rest).map .int)])) := by
      simp [benchmarkKernel, kernel, jointReadout]
    rw [hsplit, takeWhile_append_of_pos hplays.noMeasure, takeWhile_cons_of_neg (by simp [Instruction.measure]),
      append_nil]
  rw [Kernel.gates?, hbody, hplays.gates, nil_append, append_nil]

/-! ## The Clifford of gates -/

/-- The rotations of a qubit by its place. -/
def rotationsOn (i : Nat) (gs : List PairGate) : List Rotation :=
  gs.filterMap fun x => match x with
    | .first r => if i = 0 then some r else none
    | .second r => if i = 1 then some r else none
    | .cz => none

/-- The gates do a Clifford. On a pair their matrices multiply to its matrix. On single qubits there is no
controlled-phase gate, and the rotations of each of the qubits multiply to its matrix. -/
def Performs (g : Group) (qubits : Nat) (gs : List PairGate) (w : Nat) : Prop :=
  match g with
  | .pair => (gs.map PairGate.matrix).reverse.prod = (Pair.action w).transfer 16
  | .single => PairGate.cz ∉ gs ∧
      ∀ i < qubits, ((rotationsOn i gs).map Rotation.matrix).reverse.prod = (Single.action w).transfer 4

theorem rotationsOn_first (rs : List Rotation) : rotationsOn 0 (rs.map .first) = rs := by
  simp [rotationsOn, filterMap_map]

theorem exists_rotations (h : ∀ x ∈ gs, Belongs .single x) : ∃ rs : List Rotation, gs = rs.map .first := by
  induction gs with
  | nil => exact ⟨[], rfl⟩
  | cons x gs ih =>
    obtain ⟨r, rfl⟩ := h x (by simp)
    obtain ⟨rs, rfl⟩ := ih fun y hy => h y (by simp [hy])
    exact ⟨r :: rs, rfl⟩

theorem performs_of_prod (hqs : Fits g qs) {w : Nat}
    (h : ∀ x ∈ gs, Belongs g x) (hprod : (gs.map g.gateMatrix).reverse.prod = (g.action w).transfer g.dimension) :
    Performs g qs.length gs w := by
  match g with
  | .pair => exact hprod
  | .single =>
    obtain ⟨q, rfl⟩ := hqs
    obtain ⟨rs, rfl⟩ := exists_rotations h
    refine ⟨by simp, fun i hi => ?_⟩
    obtain rfl : i = 0 := by simpa using hi
    rw [rotationsOn_first]
    rw [map_map] at hprod
    exact hprod

/-! ## Sequences -/

/-- A number that can be interleaved: one of a Clifford, or for a pair the bare controlled-phase gate. -/
def Playable (g : Group) (n : Int) : Prop := (0 ≤ n ∧ n < g.size) ∨ (g = .pair ∧ n = barePhase)

theorem Playable.natAbs_lt {n : Int} (h : Playable g n) : n.natAbs < g.size := by
  rcases h with h | ⟨rfl, rfl⟩
  · omega
  · decide

theorem playable_interleaved {top : Int} (h : Drawn g top count ns)
    (hextra : ∀ x ∈ extra?, Playable g x) : ∀ n ∈ interleaved extra? ns, Playable g n :=
  forall_mem_interleaved (fun n hn => .inl ⟨(h.2 n hn).1, (h.2 n hn).2.1⟩) hextra

theorem belongs_gatesOf (g : Group) (n : Nat) : ∀ x ∈ gatesOf g n, Belongs g x := by
  match g with
  | .single =>
    intro x hx
    obtain ⟨r, -, rfl⟩ := mem_map.1 hx
    exact ⟨r, rfl⟩
  | .pair => exact fun _ _ => trivial

theorem Playable.exists_gates {n : Int} (h : Playable g n) : ∃ gs, cliffordGates g n = .ok gs ∧
    (∀ x ∈ gs, Belongs g x) ∧ (gs.map g.gateMatrix).reverse.prod = (g.action n.natAbs).transfer g.dimension := by
  rcases h with ⟨h0, hn⟩ | ⟨rfl, rfl⟩
  · lift n to Nat using h0
    refine ⟨gatesOf g n, ?_, belongs_gatesOf g n, Group.prod_gateMatrix (by omega)⟩
    rw [cliffordGates, if_neg (by unfold barePhase; omega), cliffordNumber_eq (by omega)]
    rfl
  · -- the Clifford number 4368 is the controlled-phase gate
    have hcz : Pair.action 4368 = Pair.cz := rfl
    exact ⟨[.cz], rfl, fun _ _ => trivial, prod_singleton.trans (congrArg (Action.transfer 16) hcz).symm⟩

theorem exists_mapM_gates (h : ∀ n ∈ ns, Playable g n) :
    ∃ gss, ns.mapM (cliffordGates g) = .ok gss ∧ (∀ x ∈ gss.flatten, Belongs g x) ∧
      (gss.flatten.map g.gateMatrix).reverse.prod =
        (Action.inTurn g.dimension (ns.map fun n => g.action n.natAbs)).transfer g.dimension := by
  obtain ⟨gss, hgss, hall⟩ := exists_mapM_ok fun n hn => (h n hn).exists_gates
  refine ⟨gss, hgss, fun x hx => ?_, Action.prod_flatten (fun n hn => g.proper (h n hn).natAbs_lt) (hall.imp fun _ _ => And.right)⟩
  obtain ⟨gs, hgs, hx⟩ := mem_flatten.1 hx
  obtain ⟨n, hn, hok⟩ := mapM_ok_of_mem hgss hgs
  obtain ⟨gs', hok', hbelongs, -⟩ := (h n hn).exists_gates
  cases hok.symm.trans hok'
  exact hbelongs x hx

/-- A sequence of playable Cliffords gets a kernel for each wanted Clifford, and it performs this one. -/
theorem sequenceKernels_perform (hqs : Fits g qs) (start : Bool) (name : Int → String)
    {wanted : List Int} (hwanted : ∀ w ∈ wanted, 0 ≤ w ∧ w < g.size) (hns : ∀ n ∈ ns, Playable g n) :
    ∃ ks, sequenceKernels g (qs.map .int) start (plainPhase qs) name wanted ns = .ok ks ∧
      List.Forall₂ (fun w k => k.name = kernelName (name w) ∧
        ∃ gs, Kernel.gates? qs k = some gs ∧ Performs g qs.length gs w.toNat) wanted ks := by
  have hvalid : ∀ n ∈ ns, n.natAbs < g.size := fun n hn => (hns n hn).natAbs_lt
  obtain ⟨net, -, hnet, -⟩ := netOf_eq hvalid
  obtain ⟨gss, hgss, hbelongs, hprod⟩ := exists_mapM_gates hns
  have hne : qs ≠ [] := by
    match g with
    | .single => obtain ⟨q, rfl⟩ := hqs; simp
    | .pair => obtain ⟨p, q, -, rfl⟩ := hqs; simp
  have hproper : ∀ a ∈ ns.map fun n => g.action n.natAbs, a.Proper g.dimension :=
    forall_mem_map.2 fun k hk => g.proper (hvalid k hk)
  have hone : ∀ w ∈ wanted, ∃ k, (do
      let r ← recoveryOf g (cliffordNumber g w) ns
      return benchmarkKernel (name w) (qs.map .int) start
        (gateBody (qs.map .int) (plainPhase qs) (gss.flatten ++ gatesOf g r)) : Attempt Kernel) = .ok k ∧
      k.name = kernelName (name w) ∧ ∃ gs, Kernel.gates? qs k = some gs ∧ Performs g qs.length gs w.toNat := by
    intro w hw
    obtain ⟨h0, hlt⟩ := hwanted w hw
    lift w to Nat using h0
    obtain ⟨r, hr, hrecovery, hact⟩ := recoveryOf_eq hvalid (w := w) (by omega)
    have hall : ∀ x ∈ gss.flatten ++ gatesOf g r, Belongs g x := fun x hx =>
      (mem_append.1 hx).elim (hbelongs x) (belongs_gatesOf g r x)
    refine ⟨_, bind_eq_ok.2 ⟨r, by rw [cliffordNumber_eq (by omega), hrecovery], rfl⟩, rfl, _,
      benchmarkKernel_gates? hne (name w) start (plays_gateBody hqs hall), performs_of_prod hqs hall ?_⟩
    rw [map_append, reverse_append, prod_append, hprod, Group.prod_gateMatrix hr,
      ← Action.transfer_mul (.inTurn hproper), hact, Int.toNat_natCast]
  obtain ⟨ks, hks, hperform⟩ := exists_mapM_ok hone
  exact ⟨ks, bind_eq_ok.2 ⟨net, hnet, bind_eq_ok.2 ⟨gss, hgss, hks⟩⟩, hperform⟩

/-! ## Qubits at the same time -/

theorem oneQubitBody_eq (q : Qubit) (h : ∀ n ∈ ns, 0 ≤ n ∧ n < 24) : oneQubitBody q ns =
    .ok ((ns.flatMap fun n => Single.rotations n.natAbs).map fun r => gate r.name [q]) := by
  have hone : ∀ n ∈ ns, ∃ rs, (do return Single.rotations (← cliffordNumber .single n) : Attempt (List Rotation)) = .ok rs ∧
      rs = Single.rotations n.natAbs := by
    intro n hn
    obtain ⟨h0, hlt⟩ := h n hn
    lift n to Nat using h0
    rw [cliffordNumber_eq (show n < 24 by omega)]
    exact ⟨_, rfl, rfl⟩
  obtain ⟨rss, hrss, heq⟩ := exists_mapM_ok hone
  refine bind_eq_ok.2 ⟨rss, hrss, ?_⟩
  rw [flatMap_def, (forall₂_eq_eq_eq ▸ forall₂_map_left_iff.2 (heq.imp fun _ _ => Eq.symm) :
    ns.map (fun n => Single.rotations n.natAbs) = rss)]
  rfl

theorem yields_drawClosed (hcount : 0 ≤ count) (hextra : ∀ x ∈ extra?, Playable .single x) (hw : 0 ≤ w ∧ w < 24) :
    Yields (drawClosed count extra? w) fun ns => (∀ n ∈ ns, 0 ≤ n ∧ n < 24) ∧
      Action.inTurn 4 (ns.map fun n => Single.action n.natAbs) = Single.action w.toNat := by
  obtain ⟨h0, hlt⟩ := hw
  lift w to Nat using h0
  refine (yields_drawSequence (by decide) hcount extra?).bind fun seq hseq => ?_
  obtain ⟨ns, rfl, hns⟩ := hseq
  have hplayable := playable_interleaved hns hextra
  obtain ⟨r, hr, hrecovery, hact⟩ := recoveryOf_eq (fun n hn => (hplayable n hn).natAbs_lt) (w := w)
    (show w < 24 by omega)
  rw [← cliffordNumber_eq (show w < Group.single.size from show w < 24 by omega)] at hrecovery
  refine (Yields.lift (P := (· = r)) hrecovery rfl).bind fun _ hr' => .pure ⟨fun n hn => ?_, ?_⟩
  · rcases mem_append.1 hn with hn | hn
    · rcases hplayable n hn with h | ⟨h, -⟩
      · exact h
      · cases h
    · have : r < 24 := hr
      rw [mem_singleton.1 hn, hr']
      omega
  · rw [map_append, map_singleton, Action.inTurn_concat, hr']
    exact hact

/-- The program of one qubit that does a Clifford. -/
def PlaysAlone (w : Int) (q : Int) (body : List Instruction) : Prop :=
  ∃ rs : List Rotation, body = rs.map (fun r => gate r.name [.int q]) ∧
    (rs.map Rotation.matrix).reverse.prod = (Single.action w.toNat).transfer 4

theorem yields_oneQubitBody (hcount : 0 ≤ count)
    (hextra : ∀ x ∈ extra?, Playable .single x) (hw : 0 ≤ w ∧ w < 24) (q : Int) :
    Yields (do oneQubitBody (.int q) (← drawClosed count extra? w)) (PlaysAlone w q) := by
  refine (yields_drawClosed hcount hextra hw).bind fun ns hns => ?_
  refine .lift (oneQubitBody_eq (.int q) hns.1) ⟨_, rfl, ?_⟩
  have hlt : ∀ n ∈ ns.map Int.natAbs, n < Single.size := forall_mem_map.2 fun n hn => by
    have := hns.1 n hn
    change n.natAbs < 24
    omega
  rw [← flatMap_map, Rotation.prod_flatMap hlt, map_map]
  exact congrArg (Action.transfer 4) hns.2

@[simp] theorem alternate_nil_right (xs : List α) : alternate xs [] = xs := by
  cases xs <;> rfl

theorem plays_alternate {p q : Int} (hpq : p ≠ q) (rs ss : List Rotation) :
    Plays [p, q] (alternate (rs.map fun r => gate r.name [.int p]) (ss.map fun r => gate r.name [.int q]))
      (alternate (rs.map .first) (ss.map .second)) := by
  have hfirst : ∀ r, Plays [p, q] [gate r.name [.int p]] [.first r] := Plays.first rfl
  have hsecond : ∀ r, Plays [p, q] [gate r.name [.int q]] [.second r] := Plays.second rfl hpq
  induction rs, ss using alternate.induct with
  | case1 ss => simpa [alternate] using Plays.map hsecond ss
  | case2 rs => simpa using Plays.map hfirst rs
  | case3 r rs s ss ih => exact ((hfirst r).append (hsecond s)).append ih

theorem filterMap_alternate {β : Type} (f : α → Option β) (xs ys : List α) :
    ((∀ y ∈ ys, f y = none) → (alternate xs ys).filterMap f = xs.filterMap f) ∧
      ((∀ x ∈ xs, f x = none) → (alternate xs ys).filterMap f = ys.filterMap f) := by
  induction xs, ys using alternate.induct with
  | case1 ys => exact ⟨fun h => by simpa [alternate] using h, fun _ => rfl⟩
  | case2 xs => exact ⟨fun _ => by rw [alternate_nil_right], fun h => by simpa using h⟩
  | case3 x xs y ys ih =>
    refine ⟨fun h => ?_, fun h => ?_⟩
    · rw [alternate, filterMap_cons, filterMap_cons_none (h y (by simp)), ih.1 fun z hz => h z (by simp [hz])]
      rw [filterMap_cons]
    · rw [alternate, filterMap_cons_none (h x (by simp)), filterMap_cons, ih.2 fun z hz => h z (by simp [hz])]
      rw [filterMap_cons]

theorem mem_alternate {z : α} {xs ys : List α} (h : z ∈ alternate xs ys) : z ∈ xs ∨ z ∈ ys := by
  induction xs, ys using alternate.induct with
  | case1 ys => exact .inr h
  | case2 xs => exact .inl (alternate_nil_right xs ▸ h)
  | case3 x xs y ys ih =>
    rw [alternate, mem_cons, mem_cons] at h
    rcases h with rfl | rfl | h
    · simp
    · simp
    · rcases ih h with h | h <;> simp [h]

/-- Programs of single qubits in turn do the Clifford on each of them. -/
theorem performs_inTurns (hqs : Fits .single qs ∨ Fits .pair qs) {bodies : List (List Instruction)}
    (h : List.Forall₂ (PlaysAlone w) qs bodies) :
    ∃ gs, Plays qs (inTurns bodies) gs ∧ Performs .single qs.length gs w.toNat := by
  rcases hqs with ⟨q, rfl⟩ | ⟨p, q, hpq, rfl⟩
  · cases h with | cons hq hnil => ?_
    cases hnil
    obtain ⟨rs, rfl, hprod⟩ := hq
    refine ⟨rs.map .first, .map (.first rfl) rs, by simp, fun i hi => ?_⟩
    obtain rfl : i = 0 := by simpa using hi
    rwa [rotationsOn_first]
  · cases h with | cons hp hrest => ?_
    cases hrest with | cons hq hnil => ?_
    cases hnil
    obtain ⟨rs, rfl, hrs⟩ := hp
    obtain ⟨ss, rfl, hss⟩ := hq
    refine ⟨alternate (rs.map .first) (ss.map .second), plays_alternate hpq rs ss, fun h => ?_, fun i hi => ?_⟩
    · rcases mem_alternate h with h | h <;> simp at h
    · obtain rfl | rfl : i = 0 ∨ i = 1 := by simp at hi; omega
      · have : rotationsOn 0 (alternate (rs.map .first) (ss.map .second)) = rs :=
          ((filterMap_alternate _ _ _).1 (by simp)).trans (rotationsOn_first rs)
        rwa [this]
      · have : rotationsOn 1 (alternate (rs.map .first) (ss.map .second)) = ss :=
          ((filterMap_alternate _ _ _).2 (by simp)).trans (by simp [filterMap_map])
        rwa [this]

/-! ## Programs -/

/-! ### Calibration points -/

theorem toList_kernelName_append (s t : String) : (kernelName (s ++ t)).toList =
    s.toList.map (fun c => if reserved.contains c then '_' else c) ++
      t.toList.map fun c => if reserved.contains c then '_' else c := by
  simp [kernelName]

/-- The kernel's name is that of a calibration point. -/
def IsPoint (k : Kernel) : Prop := "cal".toList <+: k.name.toList

theorem isPoint_kernel (t : String) (body : List Instruction) : IsPoint (kernel ("cal" ++ t) body) := by
  rw [IsPoint, kernel, toList_kernelName_append]
  exact ⟨_, congrArg (· ++ _) (by decide)⟩

theorem isPoint_onePoints (q : Qubit) (second : Bool) (measured : List Qubit) :
    ∀ k ∈ onePoints q second measured, IsPoint k := by
  have hnames : "cal_gr_" = "cal" ++ "_gr_" ∧ "cal_ex_" = "cal" ++ "_ex_" ∧ "cal_f_" = "cal" ++ "_f_" := by decide
  intro k hk
  simp only [onePoints, hnames, String.append_assoc, mem_append, mem_map] at hk
  rcases hk with (⟨i, -, rfl⟩ | ⟨i, -, rfl⟩) | hk
  · exact isPoint_kernel _ _
  · exact isPoint_kernel _ _
  · cases second with
    | false => cases hk
    | true =>
      obtain ⟨i, -, rfl⟩ := mem_map.1 hk
      exact isPoint_kernel _ _

theorem exists_statePoint (p q : Qubit) (i : Nat) {state : String} (h : state.toList.length = 2) :
    ∃ k, statePoint [p, q] i state = .ok k ∧ IsPoint k := by
  obtain ⟨a, c, hstate⟩ := length_eq_two.1 h
  refine ⟨_, bind_eq_ok.2 ⟨[levelGates a p, levelGates c q], ?_, rfl⟩, ?_⟩
  · rw [hstate]
    rfl
  · rw [String.append_assoc, String.append_assoc]
    exact isPoint_kernel _ _

theorem exists_statePoints (p q : Qubit) (second : Bool) :
    ∃ cal, statePoints [p, q] (benchmarkStates second) = .ok cal ∧ ∀ k ∈ cal, IsPoint k := by
  have hstates : ∀ x ∈ (benchmarkStates second).zipIdx, x.1.toList.length = 2 := by
    cases second <;> decide
  obtain ⟨cal, hcal, -⟩ := exists_mapM_ok fun x hx => exists_statePoint p q x.2 (hstates x hx)
  refine ⟨cal, hcal, fun k hk => ?_⟩
  obtain ⟨x, hx, hxk⟩ := mapM_ok_of_mem hcal hk
  obtain ⟨k', hk', hname⟩ := exists_statePoint p q x.2 (hstates x hx)
  cases hxk.symm.trans hk'
  exact hname

/-- A name begins with one text at most of two that differ in their first letters. -/
theorem IsPoint.not_begins {k : Kernel} (h : IsPoint k) {s : List Char} (hs : s.head? ≠ some 'c') (hne : s ≠ []) :
    ¬ s <+: k.name.toList := by
  rintro ⟨t, ht⟩
  obtain ⟨u, hu⟩ := h
  obtain ⟨c, s, rfl⟩ := exists_cons_of_ne_nil hne
  rw [← ht] at hu
  exact hs (congrArg some (cons.inj hu).1.symm)

namespace Benchmark

/-- A benchmark of one qubit or of two different ones with the usual controlled-phase gate and valid Cliffords. -/
structure Plain (b : Benchmark) (qs : List Int) : Prop where
  qubits : b.qubits = qs.map .int
  oneOrTwo : Fits .single qs ∨ Fits .pair qs
  phase : b.phase = plainPhase qs
  top : 1 ≤ b.top
  wanted : ∀ w ∈ b.wanted, 0 ≤ w ∧ w < b.group.size

/-- The kernel has the name of a wanted Clifford and performs it. -/
def Realizes (b : Benchmark) (qs : List Int) (name : Int → String) (w : Int) (k : Kernel) : Prop :=
  k.name = kernelName (name w) ∧ ∃ gs, k.gates? qs = some gs ∧ Performs b.group qs.length gs w.toNat

variable {b : Benchmark}

theorem yields_pointKernels (hb : b.Plain qs) (seed : Nat) {count : Int} (hcount : 0 ≤ count)
    {extra : Value} {extra? : Option Int} (hextra : extraOf extra = .ok extra?)
    (hplayable : ∀ x ∈ extra?, Playable b.group x) :
    Yields (b.pointKernels seed count extra) (List.Forall₂ (b.Realizes qs (kernelText count seed extra)) b.wanted) := by
  refine (Yields.lift (P := (· = extra?)) hextra rfl).bind fun e he => ?_
  rw [he]
  have hne : qs ≠ [] := by
    rcases hb.oneOrTwo with ⟨q, rfl⟩ | ⟨p, q, -, rfl⟩ <;> simp
  by_cases htogether : b.together
  · -- a sequence for each qubit
    rw [if_pos htogether]
    have hgroup : b.group = .single := by rw [group, htogether, Bool.true_or, if_pos rfl]
    refine .mapM fun w hw => ?_
    have hw' := hb.wanted w hw
    rw [hgroup] at hw' hplayable
    rw [hb.qubits]
    have hbodies : Yields ((qs.map Value.int).mapM fun q => do oneQubitBody q (← drawClosed count extra? w))
        (List.Forall₂ (PlaysAlone w) qs) := by
      rw [mapM_map]
      exact .mapM fun q _ => yields_oneQubitBody hcount hplayable hw' q
    refine hbodies.bind fun bodies hbodies => .pure ?_
    obtain ⟨gs, hplays, hperforms⟩ := performs_inTurns hb.oneOrTwo hbodies
    exact ⟨rfl, gs, benchmarkKernel_gates? hne _ _ hplays, hgroup ▸ hperforms⟩
  · rw [if_neg htogether]
    have hfits : Fits b.group qs := by
      have hgroup : b.group = if qs.length == 1 then .single else .pair := by simp [group, htogether, hb.qubits]
      rw [hgroup]
      rcases hb.oneOrTwo with ⟨q, rfl⟩ | ⟨p, q, hpq, rfl⟩
      · exact ⟨q, rfl⟩
      · exact ⟨p, q, hpq, rfl⟩
    refine (yields_drawSequence hb.top hcount _).bind fun seq hseq => ?_
    obtain ⟨ns, rfl, hns⟩ := hseq
    obtain ⟨ks, hks, hperform⟩ := sequenceKernels_perform hfits b.start (kernelText count seed extra) hb.wanted
      (playable_interleaved hns hplayable)
    rw [hb.qubits, hb.phase]
    exact .lift hks hperform

/-! ### Names -/

/-- The kernel's name is that of a benchmarking sequence. -/
def IsSequence (k : Kernel) : Prop := "RB_".toList <+: k.name.toList

theorem Realizes.isSequence {count : Int} {seed : Nat} {extra : Value} {w : Int} {k : Kernel}
    (h : b.Realizes qs (kernelText count seed extra) w k) : IsSequence k := by
  rw [IsSequence, h.1, kernelText]
  simp only [String.append_assoc]
  rw [toList_kernelName_append]
  exact ⟨_, congrArg (· ++ _) (by decide)⟩

theorem exists_calibration (hb : b.Plain qs) (calibrate second : Bool) :
    ∃ cal, b.calibration calibrate second = .ok cal ∧ ∀ k ∈ cal, ¬ IsSequence k := by
  cases calibrate with
  | false => exact ⟨[], rfl, by simp⟩
  | true =>
    rw [calibration, hb.qubits]
    rcases hb.oneOrTwo with ⟨q, rfl⟩ | ⟨p, q, -, rfl⟩
    · exact ⟨_, rfl, fun k hk => (isPoint_onePoints _ _ _ k hk).not_begins (by decide) (by decide)⟩
    · obtain ⟨cal, hcal, hnames⟩ := exists_statePoints (.int p) (.int q) second
      exact ⟨cal, hcal, fun k hk => (hnames k hk).not_begins (by decide) (by decide)⟩

/-! ### The program -/

/-- What a kernel of a sequence is made for. -/
structure Point where
  seed : Nat
  count : Value
  extra : Value
  wanted : Int

/-- The points of a seed, in order. -/
def points (b : Benchmark) (counts extras : List Value) (seed : Nat) : List Point :=
  counts.flatMap fun c => extras.flatMap fun x => b.wanted.map fun w => ⟨seed, c, x, w⟩

/-- The kernel is that of a point and performs the wanted Clifford. -/
def Answers (b : Benchmark) (qs : List Int) (p : Point) (k : Kernel) : Prop :=
  IsSequence k ∧ ∃ n, countOf p.count = .ok n ∧ b.Realizes qs (kernelText n p.seed p.extra) p.wanted k

theorem forall₂_flatMap {α β γ : Type} {R : β → γ → Prop} {f : α → List β} {l : List α} {css : List (List γ)}
    (h : List.Forall₂ (fun a cs => List.Forall₂ R (f a) cs) l css) : List.Forall₂ R (l.flatMap f) css.flatten := by
  induction h with
  | nil => exact .nil
  | cons h _ ih => exact rel_append h ih

theorem yields_countKernels (hb : b.Plain qs) (seed : Nat) {extras : List Value}
    (hextras : ∀ x ∈ extras, ∃ extra?, extraOf x = .ok extra? ∧ ∀ y ∈ extra?, Playable b.group y) {c : Value} {n : Int}
    (hn : countOf c = .ok n) (h0 : 0 ≤ n) :
    Yields (do return (← extras.mapM fun x => b.pointKernels seed n x).flatten) fun ks =>
      List.Forall₂ (b.Answers qs) (extras.flatMap fun x => b.wanted.map fun w => ⟨seed, c, x, w⟩) ks := by
  refine (Yields.mapM (R := fun x => List.Forall₂ (b.Realizes qs (kernelText n seed x)) b.wanted) fun x hx => ?_).bind
    fun kss hkss => .pure (forall₂_flatMap (hkss.imp fun x ks hks => ?_))
  · obtain ⟨extra?, hextra, hplayable⟩ := hextras x hx
    exact yields_pointKernels hb seed h0 hextra hplayable
  · exact forall₂_map_left_iff.2 (hks.imp fun w k hk => ⟨hk.isSequence, n, hn, hk⟩)

/-- From every state of the generator there is one kernel for each point, which performs the wanted Clifford; after the
kernels of each seed come calibration points, and these do not have the names of sequences. -/
theorem kernels_perform (b : Benchmark) (qs : List Int) (hb : b.Plain qs) (seeds : Nat) (counts extras : List Value)
    (hcounts : ∀ c ∈ counts, ∃ n, countOf c = .ok n ∧ 0 ≤ n)
    (hextras : ∀ x ∈ extras, ∃ extra?, extraOf x = .ok extra? ∧ ∀ y ∈ extra?, Playable b.group y)
    (calibrate second : Bool) (m : Random.Mersenne) :
    ∃ rows cal m', b.kernels seeds counts extras calibrate second m = (.ok (rows.flatMap (· ++ cal)), m') ∧
      List.Forall₂ (fun seed row => List.Forall₂ (b.Answers qs) (b.points counts extras seed) row) (List.range seeds) rows ∧
      ∀ k ∈ cal, ¬ IsSequence k := by
  obtain ⟨cal, hcal, hnames⟩ := exists_calibration hb calibrate second
  have hrow : ∀ seed ∈ List.range seeds, Yields (do
      let points ← counts.mapM fun c => do
        let count ← countOf c
        return (← extras.mapM fun x => b.pointKernels seed count x).flatten
      return points.flatten ++ (← b.calibration calibrate second)) fun row =>
        ∃ ks, row = ks ++ cal ∧ List.Forall₂ (b.Answers qs) (b.points counts extras seed) ks := by
    intro seed _
    refine (Yields.mapM (R := fun c ks => List.Forall₂ (b.Answers qs)
      (extras.flatMap fun x => b.wanted.map fun w => ⟨seed, c, x, w⟩) ks) fun c hc => ?_).bind fun kss hkss => ?_
    · obtain ⟨n, hn, h0⟩ := hcounts c hc
      refine (Yields.lift (P := (· = n)) hn rfl).bind fun e he => ?_
      rw [he]
      exact yields_countKernels hb seed hextras hn h0
    · exact (Yields.lift (P := (· = cal)) hcal rfl).bind fun e he => .pure ⟨kss.flatten, by rw [he], forall₂_flatMap hkss⟩
  have hall : Yields (b.kernels seeds counts extras calibrate second) fun ks => ∃ rows, ks = rows.flatMap (· ++ cal) ∧
      List.Forall₂ (fun seed row => List.Forall₂ (b.Answers qs) (b.points counts extras seed) row) (List.range seeds) rows := by
    refine (Yields.mapM hrow).bind fun rows hrows => .pure ?_
    obtain ⟨kss, rfl, hkss⟩ := exists_map_of_forall₂ hrows
    exact ⟨kss, rfl, hkss⟩
  obtain ⟨_, m', hrun, rows, rfl, hrows⟩ := hall m
  exact ⟨rows, cal, m', hrun, hrows, hnames⟩

/-- Two qubits with bare controlled-phase gates between random Cliffords. -/
theorem kernels_perform_phase :
    ∃ rows cal m', (⟨[.int 2, .int 0], false, true, plainPhase [2, 0], 11520, [0, 3]⟩ : Benchmark).kernels 2 [.int 3]
        [.null, .int (-4368)] true true (Random.Mersenne.seeded 1) = (.ok (rows.flatMap (· ++ cal)), m') ∧
      List.Forall₂ (fun seed row => List.Forall₂
        ((⟨[.int 2, .int 0], false, true, plainPhase [2, 0], 11520, [0, 3]⟩ : Benchmark).Answers [2, 0])
        ((⟨[.int 2, .int 0], false, true, plainPhase [2, 0], 11520, [0, 3]⟩ : Benchmark).points [.int 3]
          [.null, .int (-4368)] seed) row) (List.range 2) rows ∧
      ∀ k ∈ cal, ¬ IsSequence k := by
  refine kernels_perform _ [2, 0] ⟨rfl, .inr ⟨2, 0, by decide, rfl⟩, rfl, by decide, by decide⟩ 2 _ _ ?_ ?_ true true _
  · intro c hc
    cases mem_singleton.1 hc
    exact ⟨3, rfl, by decide⟩
  · intro x hx
    rcases mem_cons.1 hx with rfl | hx
    · exact ⟨none, rfl, by simp⟩
    · cases mem_singleton.1 hx
      exact ⟨some (-4368), rfl, fun y hy => Option.mem_some_iff.1 hy ▸ .inr ⟨rfl, rfl⟩⟩

end Benchmark

end Program

end QubitLab
