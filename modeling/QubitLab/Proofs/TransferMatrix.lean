import Mathlib.LinearAlgebra.Matrix.NonsingularInverse
import Mathlib.Tactic.IntervalCases
import QubitLab.Clifford.Pair

/-!
# Transfer matrices of actions

`Action.transfer n a` is the transfer matrix of an action on `n` Paulis. For proper actions:

* different actions have different matrices (`transfer_inj`);
* the matrix of a product is the product of the matrices (`transfer_mul`, `transfer_inTurn`);
* the matrix of an action on each of two qubits is the Kronecker product (`transfer_pair`);
* an action that undoes another one is its `inverse` (`inverse_eq`).
-/

namespace QubitLab.Clifford

open scoped Kronecker

/-- The matrix of two qubits with matrices of their own, that of the second qubit first. -/
def bothMatrix (A B : Matrix (Fin 4) (Fin 4) ℤ) : Matrix (Fin 16) (Fin 16) ℤ :=
  Matrix.reindex finProdFinEquiv finProdFinEquiv (A ⊗ₖ B)

theorem bothMatrix_mul (A B C D : Matrix (Fin 4) (Fin 4) ℤ) :
    bothMatrix A B * bothMatrix C D = bothMatrix (A * C) (B * D) := by
  simp only [bothMatrix, Matrix.reindex_apply, Matrix.submatrix_mul_equiv, Matrix.mul_kronecker_mul]

namespace Action

/-- The action lists an image of each of `n` Paulis, and each image is one of them. -/
structure Proper (n : Nat) (a : Action) : Prop where
  length : a.length = n
  lt : ∀ x ∈ a, x.pauli < n

/-- The transfer matrix of an action on `n` Paulis. -/
def transfer (n : Nat) (a : Action) : Matrix (Fin n) (Fin n) ℤ := fun i j => a.entry i j

variable {n : Nat} {a b : Action}

/-! ## Images -/

variable {i : Nat} {as : List Action}

theorem image_eq (hi : i < a.length) : a.image i = a[i] := by
  simp [image, hi]

theorem Proper.image_lt (ha : a.Proper n) (hi : i < n) : (a.image i).pauli < n := by
  rw [image_eq (ha.length.symm ▸ hi)]
  exact ha.lt _ (List.getElem_mem _)

theorem Proper.ext (ha : a.Proper n) (hb : b.Proper n) (h : ∀ i < n, a.image i = b.image i) : a = b := by
  refine List.ext_getElem (ha.length.trans hb.length.symm) fun i hi hj => ?_
  rw [← image_eq hi, ← image_eq hj]
  exact h i (ha.length ▸ hi)

theorem image_mul (hi : i < b.length) :
    (mul a b).image i = ⟨(a.image (b.image i).pauli).pauli, (b.image i).neg != (a.image (b.image i).pauli).neg⟩ := by
  simp only [mul, image, List.getD_eq_getElem?_getD, List.getElem?_map, List.getElem?_eq_getElem hi, Option.map_some,
    Option.getD_some]

theorem image_identity (hi : i < n) : (identity n).image i = ⟨i, false⟩ := by
  simp [identity, image, hi]

theorem Proper.identity (n : Nat) : (identity n).Proper n := by
  refine ⟨by simp [Action.identity], fun x hx => ?_⟩
  obtain ⟨i, hi, rfl⟩ := List.mem_map.1 hx
  exact List.mem_range.1 hi

theorem Proper.mul (ha : a.Proper n) (hb : b.Proper n) : (mul a b).Proper n := by
  refine ⟨by simp [Action.mul, hb.length], fun x hx => ?_⟩
  obtain ⟨y, hy, rfl⟩ := List.mem_map.1 hx
  exact ha.image_lt (hb.lt y hy)

theorem Proper.pair (ha : a.Proper 4) (hb : b.Proper 4) : (pair a b).Proper 16 := by
  refine ⟨by simp [Action.pair, List.length_flatMap, ha.length, hb.length], fun z hz => ?_⟩
  obtain ⟨x, hx, hz⟩ := List.mem_flatMap.1 hz
  obtain ⟨y, hy, rfl⟩ := List.mem_map.1 hz
  have := ha.lt x hx
  have := hb.lt y hy
  change 4 * x.pauli + y.pauli < 16
  omega

theorem image_pair (ha : a.length = 4) (hb : b.length = 4) {x y : Nat} (hx : x < 4) (hy : y < 4) :
    (pair a b).image (4 * x + y) =
      ⟨4 * (a.image x).pauli + (b.image y).pauli, (a.image x).neg != (b.image y).neg⟩ := by
  match a, b, ha, hb with
  | [_, _, _, _], [_, _, _, _], _, _ => interval_cases x <;> interval_cases y <;> rfl

/-! ## Matrices -/

theorem transfer_eq (i j : Fin n) :
    a.transfer n i j = if (a.image j).pauli = i then (if (a.image j).neg then -1 else 1) else 0 := rfl

theorem transfer_inj (ha : a.Proper n) (hb : b.Proper n) (h : a.transfer n = b.transfer n) : a = b := by
  refine ha.ext hb fun j hj => ?_
  -- the row of the image of `j` under `a` has an entry other than zero
  have hrow := congrFun (congrFun h ⟨_, ha.image_lt hj⟩) ⟨j, hj⟩
  rw [transfer_eq, transfer_eq, if_pos rfl] at hrow
  have hp : (b.image j).pauli = (a.image j).pauli := by
    by_contra hne
    rw [if_neg hne] at hrow
    split at hrow <;> cases hrow
  rw [if_pos hp] at hrow
  have hs : (a.image j).neg = (b.image j).neg := by
    cases ha' : (a.image j).neg <;> cases hb' : (b.image j).neg <;> simp [ha', hb'] at hrow ⊢
  exact (Image.mk.injEq .. ▸ ⟨hp.symm, hs⟩ : a.image j = b.image j)

theorem transfer_identity : (identity n).transfer n = 1 := by
  ext i j
  rw [transfer_eq, image_identity j.2, Matrix.one_apply]
  simp [Fin.ext_iff, eq_comm]

theorem transfer_mul (hb : b.Proper n) : (mul a b).transfer n = a.transfer n * b.transfer n := by
  ext i j
  -- only the image of `j` under `b` meets column `j` of its matrix
  rw [Matrix.mul_apply, Finset.sum_eq_single ⟨(b.image j).pauli, hb.image_lt j.2⟩]
  · simp only [transfer_eq, image_mul (hb.length.symm ▸ j.2 : (j : Nat) < b.length)]
    by_cases h : (a.image (b.image j).pauli).pauli = i <;> cases (b.image j).neg <;>
      cases (a.image (b.image j).pauli).neg <;> simp [h]
  · intro k _ hk
    have : (b.image j).pauli ≠ k := fun h => hk (Fin.ext h.symm)
    rw [transfer_eq (a := b), if_neg this, mul_zero]
  · simp

theorem transfer_pair (ha : a.Proper 4) (hb : b.Proper 4) :
    (pair a b).transfer 16 = bothMatrix (a.transfer 4) (b.transfer 4) := by
  ext i j
  have himg := image_pair ha.length hb.length (x := j / 4) (y := j % 4) (by omega) (by omega)
  rw [Nat.div_add_mod] at himg
  have hlt := hb.image_lt (i := j % 4) (by omega)
  have hrow : 4 * (a.image (j / 4)).pauli + (b.image (j % 4)).pauli = i ↔
      (a.image (j / 4)).pauli = i / 4 ∧ (b.image (j % 4)).pauli = i % 4 := by omega
  change _ = a.transfer 4 ⟨i / 4, by omega⟩ ⟨j / 4, by omega⟩ * b.transfer 4 ⟨i % 4, by omega⟩ ⟨j % 4, by omega⟩
  simp only [transfer_eq, himg, hrow]
  by_cases h₁ : (a.image (j / 4)).pauli = i / 4 <;> by_cases h₂ : (b.image (j % 4)).pauli = i % 4 <;>
    cases (a.image (j / 4)).neg <;> cases (b.image (j % 4)).neg <;> simp [h₁, h₂]

/-! ## Products -/

theorem mul_pair {c d : Action} (ha : a.Proper 4) (hb : b.Proper 4) (hc : c.Proper 4) (hd : d.Proper 4) :
    mul (pair a b) (pair c d) = pair (mul a c) (mul b d) := by
  refine transfer_inj ((ha.pair hb).mul (hc.pair hd)) ((ha.mul hc).pair (hb.mul hd)) ?_
  rw [transfer_mul (hc.pair hd), transfer_pair ha hb, transfer_pair hc hd, bothMatrix_mul,
    transfer_pair (ha.mul hc) (hb.mul hd), transfer_mul hc, transfer_mul hd]

theorem mul_assoc' {c : Action} (ha : a.Proper n) (hb : b.Proper n) (hc : c.Proper n) :
    mul (mul a b) c = mul a (mul b c) := by
  refine transfer_inj ((ha.mul hb).mul hc) (ha.mul (hb.mul hc)) ?_
  rw [transfer_mul hc, transfer_mul hb, transfer_mul (hb.mul hc), transfer_mul hc, mul_assoc]

theorem identity_mul (ha : a.Proper n) : mul (identity n) a = a := by
  refine transfer_inj ((Proper.identity n).mul ha) ha ?_
  rw [transfer_mul ha, transfer_identity, one_mul]

theorem mul_identity (ha : a.Proper n) : mul a (identity n) = a := by
  refine transfer_inj (ha.mul (Proper.identity n)) ha ?_
  rw [transfer_mul (Proper.identity n), transfer_identity, mul_one]

theorem inTurn_concat (as : List Action) : inTurn n (as ++ [a]) = mul a (inTurn n as) := by
  simp [inTurn]

theorem Proper.inTurn (h : ∀ a ∈ as, a.Proper n) : (inTurn n as).Proper n := by
  induction as using List.reverseRecOn with
  | nil => exact .identity n
  | append_singleton as a ih =>
    rw [inTurn_concat]
    exact (h a (by simp)).mul (ih fun b hb => h b (by simp [hb]))

theorem transfer_inTurn (h : ∀ a ∈ as, a.Proper n) : (inTurn n as).transfer n = (as.map (transfer n)).reverse.prod := by
  induction as using List.reverseRecOn with
  | nil => exact transfer_identity
  | append_singleton as a ih =>
    have has : ∀ b ∈ as, b.Proper n := fun b hb => h b (by simp [hb])
    rw [inTurn_concat, transfer_mul (.inTurn has), ih has]
    simp

theorem inTurn_append {bs : List Action} (ha : ∀ a ∈ as, a.Proper n) (hb : ∀ b ∈ bs, b.Proper n) :
    inTurn n (as ++ bs) = mul (inTurn n bs) (inTurn n as) := by
  have hab : ∀ c ∈ as ++ bs, c.Proper n := fun c hc => (List.mem_append.1 hc).elim (ha c) (hb c)
  refine transfer_inj (.inTurn hab) ((Proper.inTurn hb).mul (.inTurn ha)) ?_
  rw [transfer_mul (.inTurn ha), transfer_inTurn hab, transfer_inTurn ha, transfer_inTurn hb]
  simp

/-! ## Inverses -/

theorem mul_eq_identity_comm (ha : a.Proper n) (hb : b.Proper n) (h : mul b a = identity n) :
    mul a b = identity n := by
  refine transfer_inj (ha.mul hb) (.identity n) ?_
  rw [transfer_mul hb, transfer_identity, mul_eq_one_comm, ← transfer_mul ha, h, transfer_identity]

theorem image_of_mul_eq_identity (ha : a.length = n) (h : mul b a = identity n) {j : Nat} (hj : j < n) :
    b.image (a.image j).pauli = ⟨j, (a.image j).neg⟩ := by
  have himg := image_mul (a := b) (ha.symm ▸ hj)
  rw [h, image_identity hj, Image.mk.injEq] at himg
  obtain ⟨hp, hs⟩ := himg
  rcases hx : b.image (a.image j).pauli with ⟨p, s⟩
  rw [hx] at hp hs
  rw [Image.mk.injEq]
  exact ⟨hp.symm, (bne_eq_false_iff_eq.1 hs.symm).symm⟩

theorem inverse_eq (ha : a.Proper n) (hb : b.Proper n) (h : mul b a = identity n) : a.inverse = b := by
  have hback := fun {j : Nat} => image_of_mul_eq_identity (j := j) ha.length h
  have hforth := fun {j : Nat} =>
    image_of_mul_eq_identity (j := j) hb.length (mul_eq_identity_comm ha hb h)
  refine List.ext_getElem (by simp [inverse, ha.length, hb.length]) fun i hi hi' => ?_
  have hin : i < n := by simpa [inverse, ha.length] using hi
  have hj := hb.image_lt hin
  -- `i` is the image of `(b.image i).pauli` and of no other Pauli
  have hfind : a.findIdx? (fun x => x.pauli == i) = some (b.image i).pauli := by
    refine List.findIdx?_eq_some_iff_getElem.2 ⟨ha.length ▸ hj, ?_, fun k hk => ?_⟩
    · have := congrArg Image.pauli (hforth hin)
      rw [image_eq (ha.length ▸ hj)] at this
      simpa using this
    · have hkn : k < n := hk.trans hj
      intro hki
      have himg : (a.image k).pauli = i := by
        rw [image_eq (ha.length.symm ▸ hkn)]
        simpa using hki
      have := congrArg Image.pauli (hback hkn)
      rw [himg] at this
      exact absurd this (Nat.ne_of_gt hk)
  rw [← image_eq hi']
  simp only [inverse, List.getElem_map, List.getElem_range, hfind]
  rw [hforth hin]

end Action

end QubitLab.Clifford
