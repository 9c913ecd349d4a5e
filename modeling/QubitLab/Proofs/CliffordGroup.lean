import QubitLab.Clifford.Sequence
import QubitLab.Proofs.TransferMatrix

/-!
# The Cliffords form a group

The 24 Cliffords of one qubit and the 11520 of two are closed under products (`Group.exists_mul`) and inverses
(`Group.exists_inverse`).

An action that turns every Clifford of a group into a Clifford of the group `Keeps` it. For one qubit this is checked
for the quarter turns about X and Y, of which all Cliffords are products (`Single.action_induction`). A Clifford of two
qubits applies one Clifford to each qubit and then one of twenty tails (`Pair.action_eq`), so an action that turns each
tail into a Clifford keeps the group (`Pair.keeps_of_tails`). This is checked for the quarter turns of each qubit and
for the controlled-phase gate.
-/

namespace QubitLab.Clifford

open Action

/-! ## Actions of Cliffords -/

namespace Single

theorem proper (n : Nat) : (action n).Proper 4 := by
  refine .inTurn fun a ha => ?_
  simp only [List.mem_append, List.mem_singleton, List.mem_replicate] at ha
  rcases ha with (rfl | ha) | ⟨-, rfl⟩
  · refine ⟨by simp [pauli], fun x hx => ?_⟩
    obtain ⟨q, hq, rfl⟩ := List.mem_map.1 hx
    exact List.mem_range.1 hq
  · split at ha
    · cases ha
    · obtain rfl := List.mem_singleton.1 ha
      exact ⟨rfl, by decide⟩
  · exact ⟨rfl, by decide⟩

theorem rotation_proper (r : Rotation) : (rotation r).Proper 4 := by
  cases r <;> exact proper _

end Single

namespace Pair

theorem both_proper {a b : Action} (ha : a.Proper 4) (hb : b.Proper 4) : (both a b).Proper 16 := ha.pair hb

theorem placed_proper (a b : Nat) : (placed a b).Proper 16 := both_proper (Single.proper a) (Single.proper b)

theorem after_proper (a b : Nat) : (after a b).Proper 4 := (Single.proper a).mul (Single.proper b)

theorem cz_proper : cz.Proper 16 := ⟨rfl, by decide⟩

/-- What a Clifford applies after the single-qubit Cliffords it begins with. -/
def tail (q : Nat) : List Action :=
  if q = 0 then []
  else if q < 10 then [cz, both (after ((q - 1) / 3) 21) (Single.action ((q - 1) % 3))]
  else if q < 19 then [cz, placed 15 21, cz, both (after ((q - 10) / 3) 16) (after ((q - 10) % 3) 21)]
  else [cz, placed 21 15, cz, placed 15 21, cz, placed 21 0]

variable {n : Nat}

theorem steps_eq (hn : n < size) : steps n = placed (n / 24 % 24) (n % 24) :: tail (n / 576) := by
  have hn' : n < 11520 := hn
  unfold steps kind tail
  split_ifs <;> first | omega | skip
  · simp [show n / 24 % 24 = n / 24 by omega]
  · simp [show (n - 576) / 24 % 24 = n / 24 % 24 by omega, show (n - 576) % 24 = n % 24 by omega,
      show (n - 576) / 1728 = (n / 576 - 1) / 3 by omega, show (n - 576) / 576 = n / 576 - 1 by omega]
  · simp [show (n - 5760) / 24 % 24 = n / 24 % 24 by omega, show (n - 5760) % 24 = n % 24 by omega,
      show (n - 5760) / 1728 = (n / 576 - 10) / 3 by omega, show (n - 5760) / 576 = n / 576 - 10 by omega]
  · simp [show (n - 10944) / 24 = n / 24 % 24 by omega, show (n - 10944) % 24 = n % 24 by omega]

theorem tail_proper {q : Nat} : ∀ a ∈ tail q, a.Proper 16 := by
  have := both_proper (after_proper ((q - 1) / 3) 21) (Single.proper ((q - 1) % 3))
  have := both_proper (after_proper ((q - 10) / 3) 16) (after_proper ((q - 10) % 3) 21)
  unfold tail
  split_ifs <;> simp [*, cz_proper, placed_proper]

/-- The action of a tail. -/
def tailAction (q : Nat) : Action := inTurn 16 (tail q)

theorem tailAction_proper (q : Nat) : (tailAction q).Proper 16 := .inTurn tail_proper

theorem action_eq (hn : n < size) : action n = mul (tailAction (n / 576)) (placed (n / 24 % 24) (n % 24)) := by
  have hfirst : ∀ a ∈ [placed (n / 24 % 24) (n % 24)], a.Proper 16 := by simp [placed_proper]
  rw [action, steps_eq hn, ← List.singleton_append, inTurn_append hfirst tail_proper, tailAction]
  congr 1
  exact mul_identity (placed_proper _ _)

theorem proper (hn : n < size) : (action n).Proper 16 :=
  action_eq hn ▸ (tailAction_proper _).mul (placed_proper _ _)

end Pair

namespace Group

/-- The number of Paulis that a group acts on. -/
def dimension : Group → Nat
  | .single => 4
  | .pair => 16

variable {g : Group}

theorem proper {n : Nat} (hn : n < g.size) : (g.action n).Proper g.dimension :=
  match g with
  | .single => Single.proper n
  | .pair => Pair.proper hn

theorem action_zero : g.action 0 = Action.identity g.dimension := by
  cases g <;> rfl

/-- The action turns every Clifford of the group into a Clifford of the group. -/
structure Keeps (g : Group) (a : Action) : Prop where
  proper : a.Proper g.dimension
  exists_mul : ∀ n < g.size, ∃ k < g.size, mul a (g.action n) = g.action k

theorem Keeps.mul {a b : Action} (ha : g.Keeps a) (hb : g.Keeps b) : g.Keeps (Action.mul a b) := by
  refine ⟨ha.proper.mul hb.proper, fun n hn => ?_⟩
  obtain ⟨k, hk, hbk⟩ := hb.exists_mul n hn
  rw [mul_assoc' ha.proper hb.proper (g.proper hn), hbk]
  exact ha.exists_mul k hk

theorem Keeps.inTurn {as : List Action} (h : ∀ a ∈ as, g.Keeps a) : g.Keeps (inTurn g.dimension as) := by
  induction as using List.reverseRecOn with
  | nil => exact ⟨.identity _, fun n hn => ⟨n, hn, identity_mul (g.proper hn)⟩⟩
  | append_singleton as a ih =>
    rw [inTurn_concat]
    exact (h a (by simp)).mul (ih fun b hb => h b (by simp [hb]))

end Group

/-- What an action makes of some actions is found, in order, under the numbers of a list. -/
theorem exists_of_map_eq {size n : Nat} {a : Action} {p act : Nat → Action} {l : List Nat}
    (h : (∀ k ∈ l, k < size) ∧ (List.range n).map (fun q => mul a (p q)) = l.map act) {q : Nat} (hq : q < n) :
    ∃ k < size, mul a (p q) = act k := by
  have hmem : mul a (p q) ∈ l.map act := h.2 ▸ List.mem_map.2 ⟨q, List.mem_range.2 hq, rfl⟩
  obtain ⟨k, hk, hfk⟩ := List.mem_map.1 hmem
  exact ⟨k, h.1 k hk, hfk.symm⟩

/-! ## One qubit -/

namespace Single

theorem inTurn_rotations : ∀ n < size, inTurn 4 ((rotations n).map rotation) = action n := by decide

variable {n : Nat}

/-- What holds of the quarter turns about X and Y and of products holds of every Clifford. -/
theorem action_induction {P : Action → Prop} (hx : P (rotation .X90)) (hy : P (rotation .Y90))
    (hmul : ∀ a b, P a → P b → P (mul a b)) (hn : n < size) : P (action n) := by
  have hx2 : P (rotation .X180) :=
    (by decide : mul (rotation .X90) (rotation .X90) = rotation .X180) ▸ hmul _ _ hx hx
  have hy2 : P (rotation .Y180) :=
    (by decide : mul (rotation .Y90) (rotation .Y90) = rotation .Y180) ▸ hmul _ _ hy hy
  have hrot : ∀ r, P (rotation r) := by
    intro r
    cases r with
    | I => exact (by decide : mul (rotation .X180) (rotation .X180) = rotation .I) ▸ hmul _ _ hx2 hx2
    | X90 => exact hx
    | Y90 => exact hy
    | X180 | mX180 => exact hx2
    | Y180 | mY180 => exact hy2
    | mX90 => exact (by decide : mul (rotation .X90) (rotation .X180) = rotation .mX90) ▸ hmul _ _ hx hx2
    | mY90 => exact (by decide : mul (rotation .Y90) (rotation .Y180) = rotation .mY90) ▸ hmul _ _ hy hy2
  have hturns : ∀ rs : List Rotation, P (inTurn 4 (rs.map rotation)) := by
    intro rs
    induction rs using List.reverseRecOn with
    | nil => exact cast (congrArg P (Group.action_zero (g := .single))) (hrot .I)
    | append_singleton rs r ih =>
      rw [List.map_append, List.map_singleton, inTurn_concat]
      exact hmul _ _ (hrot r) ih
  exact inTurn_rotations n hn ▸ hturns (rotations n)

theorem keeps_X90 : Group.single.Keeps (rotation .X90) where
  proper := rotation_proper _
  exists_mul _ := exists_of_map_eq (p := action) (l := [16, 12, 23, 13, 15, 20, 22, 18, 17, 19, 21, 14, 10, 0, 5, 7, 3, 2, 4, 6, 11, 1, 9, 8])
    (by decide)

theorem keeps_Y90 : Group.single.Keeps (rotation .Y90) where
  proper := rotation_proper _
  exists_mul _ := exists_of_map_eq (p := action) (l := [21, 17, 13, 18, 14, 16, 15, 23, 19, 12, 20, 22, 3, 11, 1, 0, 8, 4, 9, 5, 7, 6, 2, 10])
    (by decide)

theorem exists_mul {m : Nat} (hm : m < size) (hn : n < size) : ∃ k < size, mul (action m) (action n) = action k :=
  (action_induction (P := Group.single.Keeps) keeps_X90 keeps_Y90 (fun _ _ => .mul) hm).exists_mul n hn

/-- The numbers of the Cliffords that undo the Cliffords. -/
def inverses : List Nat := [0, 2, 1, 3, 8, 10, 6, 11, 4, 9, 5, 7, 12, 16, 23, 21, 13, 17, 18, 19, 20, 15, 22, 14]

theorem exists_inverse (hn : n < size) : ∃ k < size, mul (action k) (action n) = identity 4 := by
  have hall : ∀ n < size, inverses.getD n 0 < size ∧ mul (action (inverses.getD n 0)) (action n) = identity 4 := by
    decide
  exact ⟨_, hall n hn⟩

end Single

/-! ## Two qubits -/

namespace Pair

variable {a b n : Nat}

theorem exists_tail_placed {q : Nat} (hq : q < 20) (ha : a < 24) (hb : b < 24) :
    ∃ k < size, mul (tailAction q) (placed a b) = action k := by
  have hk : 576 * q + 24 * a + b < size := by unfold size; omega
  refine ⟨576 * q + 24 * a + b, hk, ?_⟩
  rw [action_eq hk, show (576 * q + 24 * a + b) / 576 = q by omega,
    show (576 * q + 24 * a + b) / 24 % 24 = a by omega, show (576 * q + 24 * a + b) % 24 = b by omega]

theorem exists_placed_mul {c d : Nat} (ha : a < 24) (hb : b < 24) (hc : c < 24) (hd : d < 24) :
    ∃ i < 24, ∃ j < 24, mul (placed a b) (placed c d) = placed i j := by
  obtain ⟨i, hi, hac⟩ := Single.exists_mul ha hc
  obtain ⟨j, hj, hbd⟩ := Single.exists_mul hb hd
  refine ⟨i, hi, j, hj, ?_⟩
  simp only [placed, both]
  rw [mul_pair (Single.proper a) (Single.proper b) (Single.proper c) (Single.proper d), hac, hbd]

/-- An action keeps the group if it turns the tails, in order, into the Cliffords of a list. -/
theorem keeps_of_tails {a : Action} (ha : a.Proper 16) (ks : List Nat)
    (h : (∀ k ∈ ks, k < size) ∧ (List.range 20).map (fun q => mul a (tailAction q)) = ks.map action) :
    Group.pair.Keeps a := by
  refine ⟨ha, fun n (hn : n < size) => ?_⟩
  have hn' : n < 11520 := hn
  obtain ⟨k, hk, hak⟩ := exists_of_map_eq h (q := n / 576) (by omega)
  have hk' : k < 11520 := hk
  obtain ⟨i, hi, j, hj, hij⟩ := exists_placed_mul (a := k / 24 % 24) (b := k % 24) (c := n / 24 % 24) (d := n % 24)
    (by omega) (by omega) (by omega) (by omega)
  obtain ⟨l, hl, htail⟩ := exists_tail_placed (q := k / 576) (by omega) hi hj
  refine ⟨l, hl, ?_⟩
  calc mul a (action n)
      = mul (mul a (tailAction (n / 576))) (placed (n / 24 % 24) (n % 24)) := by
        rw [action_eq hn, mul_assoc' ha (tailAction_proper _) (placed_proper _ _)]
    _ = mul (tailAction (k / 576)) (mul (placed (k / 24 % 24) (k % 24)) (placed (n / 24 % 24) (n % 24))) := by
        rw [hak, action_eq hk, mul_assoc' (tailAction_proper _) (placed_proper _ _) (placed_proper _ _)]
    _ = action l := by rw [hij, htail]

/-- Generators, each with the Cliffords that it makes of the tails. -/
def tailTable : List (Action × List Nat) :=
  [(cz, [4368, 2486, 6728, 7000, 863, 8207, 9120, 552, 5522, 5161, 7810, 1468, 1813, 6149, 3134, 3936, 11028, 10408,
     9853, 9300]),
   (both (identity 4) (Single.rotation .X90), [16, 1961, 1166, 599, 3689, 2894, 2327, 5417, 4622, 4055, 7443, 6648,
     6144, 9171, 8376, 7872, 10899, 10104, 9600, 11280]),
   (both (identity 4) (Single.rotation .Y90), [21, 1175, 809, 1742, 2903, 2537, 3470, 4631, 4265, 5198, 6720, 6291,
     7224, 8448, 8019, 8952, 10176, 9747, 10680, 11448]),
   (both (Single.rotation .X90) (identity 4), [384, 912, 1488, 2064, 4584, 5160, 5736, 2793, 3369, 3945, 5776, 6352,
     6928, 9229, 9805, 10381, 7579, 8155, 8731, 10960]),
   (both (Single.rotation .Y90) (identity 4), [504, 4521, 5097, 5673, 2640, 3216, 3792, 1128, 1704, 2280, 9307, 9883,
     10459, 7504, 8080, 8656, 5773, 6349, 6925, 10965])]

theorem tailTable_eq : ∀ x ∈ tailTable, (∀ k ∈ x.2, k < size) ∧
    (List.range 20).map (fun q => mul x.1 (tailAction q)) = x.2.map action := by
  -- one generator at a time, so that the kernel lets go of what it has computed
  simp only [tailTable, List.forall_mem_cons]
  refine ⟨?_, ?_, ?_, ?_, ?_, List.forall_mem_nil _⟩
  all_goals decide +kernel

theorem keeps_cz : Group.pair.Keeps cz := keeps_of_tails cz_proper _ (tailTable_eq (cz, _) (.head _))

theorem keeps_first (hn : n < 24) : Group.pair.Keeps (both (identity 4) (Single.action n)) := by
  have hid := Proper.identity 4
  refine (Single.action_induction (P := fun a => a.Proper 4 ∧ Group.pair.Keeps (both (identity 4) a)) ⟨Single.rotation_proper _, ?_⟩
    ⟨Single.rotation_proper _, ?_⟩ (fun a b ha hb => ⟨ha.1.mul hb.1, ?_⟩) hn).2
  · exact keeps_of_tails (both_proper hid (Single.rotation_proper _)) _ (tailTable_eq (_, _) (.tail _ (.head _)))
  · exact keeps_of_tails (both_proper hid (Single.rotation_proper _)) _ (tailTable_eq (_, _) (.tail _ (.tail _ (.head _))))
  · have := ha.2.mul hb.2
    rwa [both, both, mul_pair hid ha.1 hid hb.1, identity_mul hid] at this

theorem keeps_second (hn : n < 24) : Group.pair.Keeps (both (Single.action n) (identity 4)) := by
  have hid := Proper.identity 4
  refine (Single.action_induction (P := fun a => a.Proper 4 ∧ Group.pair.Keeps (both a (identity 4))) ⟨Single.rotation_proper _, ?_⟩
    ⟨Single.rotation_proper _, ?_⟩ (fun a b ha hb => ⟨ha.1.mul hb.1, ?_⟩) hn).2
  · exact keeps_of_tails (both_proper (Single.rotation_proper _) hid) _
      (tailTable_eq (_, _) (.tail _ (.tail _ (.tail _ (.head _)))))
  · exact keeps_of_tails (both_proper (Single.rotation_proper _) hid) _
      (tailTable_eq (_, _) (.tail _ (.tail _ (.tail _ (.tail _ (.head _))))))
  · have := ha.2.mul hb.2
    rwa [both, both, mul_pair ha.1 hid hb.1 hid, identity_mul hid] at this

theorem both_eq {a b : Action} (ha : a.Proper 4) (hb : b.Proper 4) :
    mul (both a (identity 4)) (both (identity 4) b) = both a b := by
  rw [both, both, mul_pair ha (.identity 4) (.identity 4) hb, mul_identity ha, identity_mul hb, both]

theorem keeps_placed (ha : a < 24) (hb : b < 24) : Group.pair.Keeps (placed a b) := by
  rw [placed, ← both_eq (Single.proper a) (Single.proper b)]
  exact (keeps_second ha).mul (keeps_first hb)

theorem keeps_tail {q : Nat} (hq : q < 20) : Group.pair.Keeps (tailAction q) := by
  have hcnot : Group.pair.Keeps (both (after ((q - 1) / 3 % 3) 21) (Single.action ((q - 1) % 3))) := by
    obtain ⟨k, hk, h⟩ := Single.exists_mul (m := ((q - 1) / 3 % 3)) (n := 21) (by unfold Single.size; omega) (by decide)
    rw [after, h]
    exact keeps_placed hk (by omega)
  have hiswap : Group.pair.Keeps (both (after ((q - 10) / 3 % 3) 16) (after ((q - 10) % 3) 21)) := by
    obtain ⟨k, hk, h⟩ := Single.exists_mul (m := ((q - 10) / 3 % 3)) (n := 16) (by unfold Single.size; omega) (by decide)
    obtain ⟨l, hl, h'⟩ := Single.exists_mul (m := ((q - 10) % 3)) (n := 21) (by unfold Single.size; omega) (by decide)
    rw [after, h, after, h']
    exact keeps_placed hk hl
  have h15 : Group.pair.Keeps (placed 15 21) := keeps_placed (by decide) (by decide)
  have h21 : Group.pair.Keeps (placed 21 15) := keeps_placed (by decide) (by decide)
  have hlast : Group.pair.Keeps (placed 21 0) := keeps_placed (by decide) (by decide)
  refine .inTurn fun a ha => ?_
  unfold tail at ha
  split_ifs at ha with h0 h10 h19
  · cases ha
  · rw [Nat.mod_eq_of_lt (by omega)] at hcnot
    simp only [List.mem_cons, List.not_mem_nil, or_false] at ha
    rcases ha with rfl | rfl
    exacts [keeps_cz, hcnot]
  · rw [Nat.mod_eq_of_lt (by omega)] at hiswap
    simp only [List.mem_cons, List.not_mem_nil, or_false] at ha
    rcases ha with rfl | rfl | rfl | rfl
    exacts [keeps_cz, h15, keeps_cz, hiswap]
  · simp only [List.mem_cons, List.not_mem_nil, or_false] at ha
    rcases ha with rfl | rfl | rfl | rfl | rfl | rfl
    exacts [keeps_cz, h21, keeps_cz, h15, keeps_cz, hlast]

theorem keeps_action (hn : n < size) : Group.pair.Keeps (action n) := by
  have hn' : n < 11520 := hn
  rw [action_eq hn]
  exact (keeps_tail (by omega)).mul (keeps_placed (by omega) (by omega))

/-- The Cliffords that undo the tails. -/
def tailInverses : List Nat :=
  [0, 4152, 4154, 4153, 4200, 4202, 4201, 4248, 4250, 4249, 6484, 6486, 6491, 6604, 6606, 6611, 6436, 6438, 6443, 11319]

theorem tailInverses_mul : ∀ q < 20, tailInverses.getD q 0 < size ∧
    mul (action (tailInverses.getD q 0)) (tailAction q) = identity 16 := by decide +kernel

theorem exists_placed_inverse (ha : a < 24) (hb : b < 24) : ∃ i < 24, ∃ j < 24, mul (placed i j) (placed a b) = identity 16 := by
  obtain ⟨i, hi, hsecond⟩ := Single.exists_inverse ha
  obtain ⟨j, hj, hfirst⟩ := Single.exists_inverse hb
  refine ⟨i, hi, j, hj, ?_⟩
  rw [placed, placed, both, both, mul_pair (Single.proper i) (Single.proper j) (Single.proper a) (Single.proper b), hsecond, hfirst]
  rfl

theorem exists_inverse (hn : n < size) : ∃ k < size, mul (action k) (action n) = identity 16 := by
  have hn' : n < 11520 := hn
  obtain ⟨ht, hundo⟩ := tailInverses_mul (n / 576) (by omega)
  obtain ⟨a, ha, b, hb, hpair⟩ := exists_placed_inverse (a := n / 24 % 24) (b := n % 24) (by omega) (by omega)
  obtain ⟨k, hk, hmul⟩ := (keeps_placed ha hb).exists_mul _ ht
  refine ⟨k, hk, ?_⟩
  -- first the tail is undone, then the Cliffords of the qubits
  calc mul (action k) (action n)
      = mul (mul (placed a b) (action (tailInverses.getD (n / 576) 0)))
          (mul (tailAction (n / 576)) (placed (n / 24 % 24) (n % 24))) := by
        rw [← action_eq hn]
        exact congrArg (mul · _) hmul.symm
    _ = mul (placed a b) (mul (mul (action (tailInverses.getD (n / 576) 0)) (tailAction (n / 576)))
          (placed (n / 24 % 24) (n % 24))) := by
        rw [mul_assoc' (placed_proper a b) (proper ht) ((tailAction_proper _).mul (placed_proper _ _)),
          mul_assoc' (proper ht) (tailAction_proper _) (placed_proper _ _)]
    _ = identity 16 := by rw [hundo, identity_mul (placed_proper _ _), hpair]

end Pair

/-! ## Both groups -/

namespace Group

variable {g : Group}

theorem exists_mul {m n : Nat} (hm : m < g.size) (hn : n < g.size) :
    ∃ k < g.size, mul (g.action m) (g.action n) = g.action k :=
  match g with
  | .single => Single.exists_mul hm hn
  | .pair => (Pair.keeps_action hm).exists_mul n hn

theorem exists_inverse {n : Nat} (hn : n < g.size) :
    ∃ k < g.size, mul (g.action k) (g.action n) = Action.identity g.dimension ∧ (g.action n).inverse = g.action k := by
  obtain ⟨k, hk, h⟩ : ∃ k < g.size, mul (g.action k) (g.action n) = Action.identity g.dimension :=
    match g with
    | .single => Single.exists_inverse hn
    | .pair => Pair.exists_inverse hn
  exact ⟨k, hk, h, inverse_eq (proper hn) (proper hk) h⟩

end Group

end QubitLab.Clifford
