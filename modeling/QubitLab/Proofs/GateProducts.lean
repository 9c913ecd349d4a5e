import QubitLab.Proofs.Recovery

/-!
# Gates make the Cliffords they are listed for

`Rotation.matrix` and `PairGate.matrix` are the transfer matrices of gates. The gates of a Clifford of two qubits make
its action (`Pair.inTurn_gates`); those of one qubit do so by `Single.inTurn_rotations`. `gates_prod_eq_matrix`: the
matrices of all gates of a sequence multiply, later ones on the left, to the matrix of its net Clifford.
-/

namespace QubitLab.Clifford

open List Action

variable {n : Nat}

/-- Lists of gates that make one action each make these actions in turn. -/
theorem Action.prod_flatten {α γ : Type} {f : γ → Matrix (Fin n) (Fin n) ℤ} {act : α → Action} {l : List α}
    {gss : List (List γ)} (hact : ∀ x ∈ l, (act x).Proper n)
    (h : List.Forall₂ (fun x gs => (gs.map f).reverse.prod = (act x).transfer n) l gss) :
    (gss.flatten.map f).reverse.prod = (inTurn n (l.map act)).transfer n := by
  rw [transfer_inTurn (forall_mem_map.2 hact), map_map]
  clear hact
  induction h with
  | nil => rfl
  | cons hx _ ih =>
    rw [flatten_cons, map_append, reverse_append, prod_append, ih, hx, map_cons,
      reverse_cons, prod_append, prod_singleton, Function.comp_apply]

/-! ## Two qubits -/

namespace Pair

theorem gateAction_proper (x : PairGate) : (gateAction x).Proper 16 :=
  match x with
  | .first r => both_proper (.identity 4) (Single.rotation_proper r)
  | .second r => both_proper (Single.rotation_proper r) (.identity 4)
  | .cz => cz_proper

theorem map_gateAction_proper (gs : List PairGate) : ∀ a ∈ gs.map gateAction, a.Proper 16 :=
  forall_mem_map.2 fun x _ => gateAction_proper x

theorem turns_proper (rs : List Rotation) : (inTurn 4 (rs.map Single.rotation)).Proper 4 :=
  .inTurn (forall_mem_map.2 fun r _ => Single.rotation_proper r)

theorem inTurn_first (rs : List Rotation) :
    inTurn 16 ((rs.map PairGate.first).map gateAction) = both (identity 4) (inTurn 4 (rs.map Single.rotation)) := by
  induction rs using List.reverseRecOn with
  | nil => rfl
  | append_singleton rs r ih =>
    have hid := Proper.identity 4
    simp only [map_append, map_singleton, inTurn_concat, ih, gateAction, both]
    rw [mul_pair hid (Single.rotation_proper r) hid (turns_proper rs), identity_mul hid]

theorem inTurn_second (rs : List Rotation) :
    inTurn 16 ((rs.map PairGate.second).map gateAction) = both (inTurn 4 (rs.map Single.rotation)) (identity 4) := by
  induction rs using List.reverseRecOn with
  | nil => rfl
  | append_singleton rs r ih =>
    have hid := Proper.identity 4
    simp only [map_append, map_singleton, inTurn_concat, ih, gateAction, both]
    rw [mul_pair (Single.rotation_proper r) hid (turns_proper rs) hid, identity_mul hid]

variable {a b : Nat}

theorem exists_rotateAfter (ha : a < 24) (hb : b < 24) :
    ∃ k < 24, after a b = Single.action k ∧ ∀ place, rotateAfter place a b = rotate place k := by
  obtain ⟨k, hk, h⟩ := Single.exists_mul ha hb
  refine ⟨k, hk, h, fun place => ?_⟩
  have hindex : Single.index? (after a b) = some k := by
    rw [after, h]
    exact Group.index?_action (g := .single) hk
  rw [rotateAfter, hindex, Option.getD_some]

/-- The gates do what the actions do. -/
structure Makes (gs : List PairGate) (as : List Action) : Prop where
  proper : ∀ a ∈ as, a.Proper 16
  inTurn_eq : inTurn 16 (gs.map gateAction) = inTurn 16 as

theorem Makes.append {gs hs : List PairGate} {as bs : List Action} (h : Makes gs as) (h' : Makes hs bs) :
    Makes (gs ++ hs) (as ++ bs) where
  proper a ha := (mem_append.1 ha).elim (h.proper a) (h'.proper a)
  inTurn_eq := by
    rw [map_append, inTurn_append (map_gateAction_proper _) (map_gateAction_proper _), h.inTurn_eq, h'.inTurn_eq,
      inTurn_append h.proper h'.proper]

theorem makes_cz : Makes [.cz] [cz] := ⟨by simp [cz_proper], rfl⟩

theorem makes_rotate (ha : a < 24) (hb : b < 24) :
    Makes (rotate .first b ++ rotate .second a) [placed a b] where
  proper := by simp [placed_proper]
  inTurn_eq := by
    rw [map_append, inTurn_append (map_gateAction_proper _) (map_gateAction_proper _), rotate, rotate, inTurn_first,
      inTurn_second, Single.inTurn_rotations a ha, Single.inTurn_rotations b hb,
      both_eq (Single.proper a) (Single.proper b)]
    exact (mul_identity (placed_proper a b)).symm

theorem makes_rotateAfter_second {c : Nat} (ha : a < 24) (hb : b < 24) (hc : c < 24) :
    Makes (rotate .first c ++ rotateAfter .second a b) [both (after a b) (Single.action c)] := by
  obtain ⟨k, hk, hafter, hrotate⟩ := exists_rotateAfter ha hb
  rw [hafter, hrotate]
  exact makes_rotate hk hc

theorem makes_rotateAfter {c d : Nat} (ha : a < 24) (hb : b < 24) (hc : c < 24) (hd : d < 24) :
    Makes (rotateAfter .first c d ++ rotateAfter .second a b) [both (after a b) (after c d)] := by
  obtain ⟨k, hk, hafter, hrotate⟩ := exists_rotateAfter hc hd
  rw [hafter, hrotate]
  exact makes_rotateAfter_second ha hb hk

theorem makes_cnot (hn : n < 5184) :
    Makes (rotate .first (n % 24) ++ rotate .second (n / 24 % 24) ++ [.cz] ++ rotate .first (n / 576 % 3) ++
        rotateAfter .second (n / 1728) 21)
      [placed (n / 24 % 24) (n % 24), cz, both (after (n / 1728) 21) (Single.action (n / 576 % 3))] := by
  rw [append_assoc _ (rotate .first (n / 576 % 3))]
  exact ((makes_rotate (by omega) (by omega)).append makes_cz).append
    (makes_rotateAfter_second (by omega) (by omega) (by omega))

theorem makes_iswap (hn : n < 5184) :
    Makes (rotate .first (n % 24) ++ rotate .second (n / 24 % 24) ++ [.cz] ++ rotate .first 21 ++ rotate .second 15 ++
        [.cz] ++ rotateAfter .first (n / 576 % 3) 21 ++ rotateAfter .second (n / 1728) 16)
      [placed (n / 24 % 24) (n % 24), cz, placed 15 21, cz, both (after (n / 1728) 16) (after (n / 576 % 3) 21)] := by
  rw [append_assoc _ (rotate .first 21), append_assoc _ (rotateAfter .first (n / 576 % 3) 21)]
  exact ((((makes_rotate (by omega) (by omega)).append makes_cz).append (makes_rotate (by omega) (by omega))).append
    makes_cz).append (makes_rotateAfter (by omega) (by omega) (by omega) (by omega))

theorem makes_swap (hn : n < 576) :
    Makes (rotate .first (n % 24) ++ rotate .second (n / 24) ++ [.cz] ++ rotate .first 15 ++ rotate .second 21 ++ [.cz] ++
        rotate .first 21 ++ rotate .second 15 ++ [.cz] ++ rotate .first 0 ++ rotate .second 21)
      [placed (n / 24) (n % 24), cz, placed 21 15, cz, placed 15 21, cz, placed 21 0] := by
  rw [append_assoc _ (rotate .first 15), append_assoc _ (rotate .first 21), append_assoc _ (rotate .first 0)]
  exact ((((((makes_rotate (by omega) (by omega)).append makes_cz).append (makes_rotate (by omega) (by omega))).append
    makes_cz).append (makes_rotate (by omega) (by omega))).append makes_cz).append (makes_rotate (by omega) (by omega))

theorem inTurn_gates (hn : n < size) : inTurn 16 ((gates n).map gateAction) = action n := by
  have hn' : n < 11520 := hn
  have hmakes : Makes (gates n) (steps n) := by
    unfold gates steps kind
    split_ifs
    · exact makes_rotate (by omega) (by omega)
    · exact makes_cnot (by omega)
    · exact makes_iswap (by omega)
    · exact makes_swap (by omega)
  exact hmakes.inTurn_eq

end Pair

/-! ## Matrices of gates -/

/-- The transfer matrix of a rotation. -/
def Rotation.matrix (r : Rotation) : Matrix (Fin 4) (Fin 4) ℤ := (Single.rotation r).transfer 4

/-- The transfer matrix of a gate on two qubits. -/
def PairGate.matrix : PairGate → Matrix (Fin 16) (Fin 16) ℤ
  | .first r => bothMatrix 1 r.matrix
  | .second r => bothMatrix r.matrix 1
  | .cz => Pair.cz.transfer 16

theorem Rotation.prod_matrix (rs : List Rotation) :
    (rs.map Rotation.matrix).reverse.prod = (inTurn 4 (rs.map Single.rotation)).transfer 4 := by
  rw [transfer_inTurn (forall_mem_map.2 fun r _ => Single.rotation_proper r), map_map]
  rfl

/-- The rotations of Cliffords, one after the other, make what these do. -/
theorem Rotation.prod_flatMap {ns : List Nat} (h : ∀ n ∈ ns, n < Single.size) :
    ((ns.flatMap Single.rotations).map matrix).reverse.prod = (inTurn 4 (ns.map Single.action)).transfer 4 := by
  refine prod_flatten (fun n _ => Single.proper n) (forall₂_map_right_iff.2 (forall₂_same.2 fun n hn => ?_))
  rw [Rotation.prod_matrix, Single.inTurn_rotations n (h n hn)]

theorem PairGate.matrix_eq (x : PairGate) : x.matrix = (Pair.gateAction x).transfer 16 := by
  cases x with
  | first r => rw [Pair.gateAction, Pair.both, transfer_pair (.identity 4) (Single.rotation_proper r), transfer_identity]; rfl
  | second r => rw [Pair.gateAction, Pair.both, transfer_pair (Single.rotation_proper r) (.identity 4), transfer_identity]; rfl
  | cz => rfl

theorem PairGate.prod_matrix (gs : List PairGate) :
    (gs.map PairGate.matrix).reverse.prod = (inTurn 16 (gs.map Pair.gateAction)).transfer 16 := by
  rw [transfer_inTurn (Pair.map_gateAction_proper gs), map_map, map_congr_left fun x _ => x.matrix_eq]
  rfl

/-- The transfer matrix of a gate for the group; a gate that a single qubit does not have has the matrix zero. -/
def Group.gateMatrix : (g : Group) → PairGate → Matrix (Fin g.dimension) (Fin g.dimension) ℤ
  | .single, .first r => r.matrix
  | .single, _ => 0
  | .pair, x => x.matrix

theorem Group.prod_gateMatrix {g : Group} (hn : n < g.size) :
    ((gatesOf g n).map g.gateMatrix).reverse.prod = (g.action n).transfer g.dimension := by
  match g with
  | .single =>
    have hmap : (gatesOf .single n).map Group.single.gateMatrix = (Single.rotations n).map Rotation.matrix :=
      map_map
    rw [hmap]
    exact (Rotation.prod_matrix _).trans (congrArg (transfer 4) (Single.inTurn_rotations n hn))
  | .pair => exact (PairGate.prod_matrix _).trans (congrArg (transfer 16) (Pair.inTurn_gates hn))

/-- The entries of a matrix, row by row. -/
def rows {n : Nat} (A : Matrix (Fin n) (Fin n) ℤ) : List (List Int) := List.ofFn fun i => List.ofFn (A i)

theorem rows_transfer {a : Action} (ha : a.Proper n) : rows (a.transfer n) = a.matrix := ha.toRows_transfer

/-- The gates of a sequence multiply, later ones on the left, to the transfer matrix of its net Clifford. -/
theorem gates_prod_eq_matrix (g : Group) (ns : List Nat) (h : ∀ n ∈ ns, n < g.size) :
    ∃ net, netOf g (ns.map fun (n : Nat) => (n : Int)) = .ok net ∧
      rows ((ns.flatMap (gatesOf g)).map g.gateMatrix).reverse.prod = (g.action net).matrix := by
  have habs : ∀ n ∈ ns.map fun (n : Nat) => (n : Int), n.natAbs < g.size := by simpa using h
  obtain ⟨net, hnet, hok, hact⟩ := netOf_eq habs
  refine ⟨net, hok, ?_⟩
  have hprod : ((ns.flatMap (gatesOf g)).map g.gateMatrix).reverse.prod =
      (inTurn g.dimension (ns.map g.action)).transfer g.dimension :=
    prod_flatten (fun n hn => g.proper (h n hn))
      (forall₂_map_right_iff.2 (forall₂_same.2 fun n hn => Group.prod_gateMatrix (h n hn)))
  rw [hprod, ← rows_transfer (g.proper hnet), hact, map_map]
  rfl

theorem gates_prod_eq_matrix_classes :
    (∀ n ∈ [3, 600, 5771, 11000], n < Group.pair.size) ∧
      ∃ net, netOf .pair [3, 600, 5771, 11000] = .ok net ∧
        rows (([3, 600, 5771, 11000].flatMap (gatesOf .pair)).map Group.pair.gateMatrix).reverse.prod =
          (Group.pair.action net).matrix :=
  ⟨by decide, gates_prod_eq_matrix .pair [3, 600, 5771, 11000] (by decide)⟩

end QubitLab.Clifford
