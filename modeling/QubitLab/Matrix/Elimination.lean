import QubitLab.Signal.Basic

/-!
# Linear equations and inverse matrices

An equation is a row of coefficients with its right side. `solve?` takes the equation that `prefer` likes best by its
first coefficient, clears the first unknown in the others, solves these and puts the solution in. The columns of the
inverse of a matrix are the solutions for the columns of the unit matrix.
-/

namespace QubitLab.Matrix

open Signal

variable {α : Type}

def column [Zero α] (j : Nat) (rows : List (List α)) : List α := rows.map fun r => r.getD j 0

def transpose [Zero α] (width : Nat) (rows : List (List α)) : List (List α) :=
  (List.range width).map fun j => column j rows

def unitRow [Zero α] [One α] (size i : Nat) : List α := (List.range size).map fun j => if j = i then 1 else 0

def apply [Zero α] [Add α] [Mul α] (rows : List (List α)) (xs : List α) : List α := rows.map (dot · xs)

abbrev Equation (α : Type) := List α × α

def pick [Zero α] (prefer : α → α → Bool) : List (Equation α) → Option (Equation α × List (Equation α))
  | [] => none
  | e :: es =>
    match pick prefer es with
    | none => some (e, es)
    | some (p, others) =>
      if prefer (p.1.headD 0) (e.1.headD 0) then some (p, e :: others) else some (e, p :: others)

section Solutions

variable [Zero α] [Add α] [Sub α] [Mul α] [Div α]

/-- An equation without its first unknown, which it takes from the pivot equation. -/
def clear (pivot e : Equation α) : Equation α :=
  let t := e.1.headD 0 / pivot.1.headD 0
  (e.1.tail.zipWith (fun a b => a - t * b) pivot.1.tail, e.2 - t * pivot.2)

/-- The solution of as many equations as there are unknowns; none if a pivot is zero. -/
def solve? [BEq α] (prefer : α → α → Bool) : Nat → List (Equation α) → Option (List α)
  | 0, _ => some []
  | n + 1, es =>
    match pick prefer es with
    | none => none
    | some (p, others) =>
      if p.1.headD 0 == 0 then none
      else (solve? prefer n (others.map (clear p))).map fun xs => (p.2 - dot p.1.tail xs) / p.1.headD 0 :: xs

def inverse? [One α] [BEq α] (prefer : α → α → Bool) (rows : List (List α)) : Option (List (List α)) :=
  let n := rows.length
  ((List.range n).mapM fun k => solve? prefer n (rows.zip (unitRow n k))).map (transpose n)

end Solutions

def larger (a b : Float) : Bool := b.abs < a.abs

end QubitLab.Matrix
