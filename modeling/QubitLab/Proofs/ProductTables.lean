import Mathlib.LinearAlgebra.Matrix.NonsingularInverse
import QubitLab.Matrix.Product
import QubitLab.Proofs.Outcome

/-!
# Product tables of matrix groups

`Matrix.toRows` writes a square matrix as the list of its rows; products of rows are products of matrices
(`mul_toRows`). A list of different matrices that is closed under products has a product table (`productTable_eq`).
`productTable_group`: if the matrices are invertible too, each of its rows and columns is a permutation, the table is
associative, and the search in a row has exactly one answer.
-/

namespace QubitLab.Matrix

variable {α : Type} {n : Nat}

/-! ## Rows -/

/-- The rows of a square matrix. -/
def toRows (A : Matrix (Fin n) (Fin n) α) : List (List α) := List.ofFn fun i => List.ofFn (A i)

theorem toRows_injective : Function.Injective (toRows (α := α) (n := n)) := fun A B h => by
  funext i
  exact List.ofFn_injective (congrFun (List.ofFn_injective h) i)

section
variable [NonUnitalNonAssocSemiring α]

theorem total_eq_sum (xs : List α) : Signal.total xs = xs.sum := List.sum_eq_foldl.symm

theorem dot_ofFn (f g : Fin n → α) : Signal.dot (List.ofFn f) (List.ofFn g) = ∑ i, f i * g i := by
  have hzip : (List.ofFn f).zipWith (· * ·) (List.ofFn g) = List.ofFn fun i => f i * g i :=
    List.ext_getElem (by simp) fun i hi _ => by simp
  rw [Signal.dot, total_eq_sum, hzip, List.sum_ofFn]

theorem transpose_toRows (A : Matrix (Fin n) (Fin n) α) : transpose n (toRows A) = toRows A.transpose := by
  refine List.ext_getElem (by simp [transpose, toRows]) fun j hj _ => ?_
  refine List.ext_getElem (by simp [transpose, column, toRows]) fun i hi _ => ?_
  have hj' : j < n := by simpa [transpose] using hj
  simp [transpose, column, toRows, hj', Matrix.transpose_apply]

theorem mul_toRows (A B : Matrix (Fin n) (Fin n) α) : mul (toRows A) (toRows B) = toRows (A * B) := by
  cases n with
  | zero => rfl
  | succ n =>
    have hwidth : ((toRows B).headD []).length = n + 1 := by simp [toRows, List.ofFn_succ]
    rw [mul, hwidth, transpose_toRows, toRows, toRows, toRows, List.map_ofFn]
    refine congrArg List.ofFn (funext fun i => ?_)
    rw [Function.comp_apply, List.map_ofFn]
    refine congrArg List.ofFn (funext fun j => ?_)
    rw [Function.comp_apply, dot_ofFn, Matrix.mul_apply]
    rfl

end

/-! ## Tables -/

theorem mapM_ofFn {β γ : Type} {m : Nat} {f : Fin m → β} {g : β → Attempt γ} {h : Fin m → γ} (hg : ∀ i, g (f i) = .ok (h i)) :
    (List.ofFn f).mapM g = .ok (List.ofFn h) :=
  mapM_eq_ok.2 (List.forall₂_iff_get.2 ⟨by simp, fun i _ _ => by simpa using hg _⟩)

/-- The table with the entries of a function. -/
def tableOf {m : Nat} (t : Fin m → Fin m → Fin m) : List (List Nat) := List.ofFn fun i => List.ofFn fun j => (t i j : Nat)

section
variable [BEq α] [LawfulBEq α] {G : List (Matrix (Fin n) (Fin n) α)}

theorem findIdx?_toRows (hG : G.Nodup) (k : Fin G.length) : (G.map toRows).findIdx? (toRows (G.get k) == ·) = some k.val := by
  refine List.findIdx?_eq_some_iff_getElem.2 ⟨by simp, by simp, fun j hj => ?_⟩
  simp only [List.getElem_map, beq_iff_eq, toRows_injective.eq_iff]
  intro h
  have hjk : (⟨j, hj.trans k.2⟩ : Fin G.length) = k := List.nodup_iff_injective_get.1 hG h.symm
  exact hj.ne (congrArg Fin.val hjk)

/-- The table of a closed list tells for each two matrices which one is their product. -/
theorem productTable_eq [NonUnitalNonAssocSemiring α] (hG : G.Nodup) (hclosed : ∀ A ∈ G, ∀ B ∈ G, B * A ∈ G) :
    ∃ t : Fin G.length → Fin G.length → Fin G.length, productTable (G.map toRows) = .ok (tableOf t) ∧
      ∀ i j k, t i j = k ↔ G.get k = G.get j * G.get i := by
  have hplace : ∀ i j, ∃ k, G.get k = G.get j * G.get i := fun i j =>
    List.mem_iff_get.1 (hclosed _ (G.get_mem i) _ (G.get_mem j))
  choose t ht using hplace
  refine ⟨t, ?_, fun i j k => ⟨fun h => h ▸ ht i j, fun h => ?_⟩⟩
  · have hrows : G.map toRows = List.ofFn fun i => toRows (G.get i) := by
      rw [← Function.comp_def, ← List.map_ofFn, List.ofFn_get]
    rw [productTable]
    conv_lhs => rw [hrows]
    refine mapM_ofFn fun i => mapM_ofFn fun j => ?_
    rw [mul_toRows, ← ht i j, ← hrows, findIdx?_toRows hG]
    rfl
  · exact List.nodup_iff_injective_get.1 hG ((ht i j).trans h.symm)

end

/-- A row in which each place stands once has one answer to each search. -/
theorem recovery_ofFn {m : Nat} {row : Fin m → Fin m} (hrow : Function.Bijective row) (d : Fin m) :
    ∃ j, recovery (List.ofFn fun j => (row j : Nat)) (· == d.val) = .ok j.val ∧ ∀ j', row j' = d ↔ j' = j := by
  obtain ⟨j, hj⟩ := hrow.2 d
  refine ⟨j, ?_, fun j' => ⟨fun h => hrow.1 (h.trans hj.symm), fun h => h ▸ hj⟩⟩
  have hfind : (List.ofFn fun j => (row j : Nat)).findIdx? (· == d.val) = some j.val := by
    refine List.findIdx?_eq_some_iff_getElem.2 ⟨by simp, by simp [hj], fun i hi => ?_⟩
    simp only [List.getElem_ofFn, beq_iff_eq, Fin.val_inj]
    exact fun h => hi.ne (congrArg Fin.val (hrow.1 (h.trans hj.symm)))
  rw [recovery, hfind]
  rfl

section
variable [CommRing α] [IsDomain α] {A B C : Matrix (Fin n) (Fin n) α}

theorem mul_left_cancel_of_det (hA : A.det ≠ 0) (h : A * B = A * C) : B = C := by
  have hadj : A.det • B = A.det • C := by
    simpa only [← mul_assoc, Matrix.adjugate_mul, smul_mul_assoc, one_mul] using congrArg (A.adjugate * ·) h
  ext i j
  exact mul_left_cancel₀ hA (congrFun (congrFun hadj i) j)

theorem mul_right_cancel_of_det (hA : A.det ≠ 0) (h : B * A = C * A) : B = C := by
  refine Matrix.transpose_injective (mul_left_cancel_of_det (A := A.transpose) (by rwa [Matrix.det_transpose]) ?_)
  rw [← Matrix.transpose_mul, ← Matrix.transpose_mul, h]

variable [BEq α] [LawfulBEq α]

/-- The table of a list of different invertible matrices that is closed under products is that of a group: it tells the
product of each two, each row and each column has every place once, it is associative, and the search for a place in a
row finds the only column with it. -/
theorem productTable_group (G : List (Matrix (Fin n) (Fin n) α)) (hG : G.Nodup) (hinv : ∀ A ∈ G, A.det ≠ 0)
    (hclosed : ∀ A ∈ G, ∀ B ∈ G, B * A ∈ G) :
    ∃ t : Fin G.length → Fin G.length → Fin G.length, productTable (G.map toRows) = .ok (tableOf t) ∧
      (∀ i j k, t i j = k ↔ G.get k = G.get j * G.get i) ∧
      (∀ i, Function.Bijective (t i)) ∧ (∀ j, Function.Bijective fun i => t i j) ∧
      (∀ i j k, t (t i j) k = t i (t j k)) ∧
      ∀ i d : Fin G.length, ∃ j : Fin G.length, recovery ((tableOf t).getD i []) (· == d.val) = .ok j.val ∧
        ∀ j', t i j' = d ↔ j' = j := by
  obtain ⟨t, htable, ht⟩ := productTable_eq hG hclosed
  have hproduct : ∀ i j, G.get (t i j) = G.get j * G.get i := fun i j => (ht i j _).1 rfl
  have hget : Function.Injective G.get := List.nodup_iff_injective_get.1 hG
  -- multiplication from one side is injective, and on finitely many places it is then bijective
  have hrow : ∀ i, Function.Bijective (t i) := fun i => Finite.injective_iff_bijective.1 fun j j' h =>
    hget (mul_right_cancel_of_det (hinv _ (G.get_mem i)) (by rw [← hproduct, ← hproduct, h]))
  have hcolumn : ∀ j, Function.Bijective fun i => t i j := fun j => Finite.injective_iff_bijective.1 fun i i' h =>
    hget (mul_left_cancel_of_det (hinv _ (G.get_mem j)) (by rw [← hproduct, ← hproduct]; exact congrArg G.get h))
  refine ⟨t, htable, ht, hrow, hcolumn, fun i j k => hget ?_, fun i d => ?_⟩
  · rw [hproduct, hproduct, hproduct, hproduct, mul_assoc]
  · rw [show (tableOf t).getD i [] = List.ofFn fun j => (t i j : Nat) by simp [tableOf]]
    exact recovery_ofFn (hrow i) d

end

/-- The symmetries of a triangle, in coordinates of two of its corners. -/
def triangle : List (Matrix (Fin 2) (Fin 2) ℤ) :=
  [!![1, 0; 0, 1], !![0, -1; 1, -1], !![-1, 1; -1, 0], !![0, 1; 1, 0], !![1, -1; 0, -1], !![-1, 0; -1, 1]]

theorem productTable_triangle : triangle.Nodup ∧ (∀ A ∈ triangle, A.det ≠ 0) ∧
    (∀ A ∈ triangle, ∀ B ∈ triangle, B * A ∈ triangle) ∧
    ∃ t : Fin 6 → Fin 6 → Fin 6, productTable (triangle.map toRows) = .ok (tableOf t) ∧
      (∀ i j k, t i j = k ↔ triangle.get k = triangle.get j * triangle.get i) ∧
      (∀ i, Function.Bijective (t i)) ∧ (∀ j, Function.Bijective fun i => t i j) ∧
      (∀ i j k, t (t i j) k = t i (t j k)) ∧
      ∀ i d : Fin 6, ∃ j : Fin 6, recovery ((tableOf t).getD i []) (· == d.val) = .ok j.val ∧
        ∀ j', t i j' = d ↔ j' = j := by
  have hnodup : triangle.Nodup := by decide +kernel
  have hdet : ∀ A ∈ triangle, A.det ≠ 0 := by simp [triangle, Matrix.det_fin_two]
  have hclosed : ∀ A ∈ triangle, ∀ B ∈ triangle, B * A ∈ triangle := by decide +kernel
  exact ⟨hnodup, hdet, hclosed, productTable_group triangle hnodup hdet hclosed⟩

end QubitLab.Matrix
