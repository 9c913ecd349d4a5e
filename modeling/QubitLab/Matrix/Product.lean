import QubitLab.Matrix.Elimination

/-!
# Product tables

A list of matrices that is closed under products has a table of them: row `i` has in column `j` the place of the matrix
that does what `i` and then `j` does. In the row of a matrix one finds what has to follow it to give another one.
-/

namespace QubitLab.Matrix

variable {α : Type} [Zero α] [Add α] [Mul α]

/-- The product of two matrices; the second one acts first. -/
def mul (a b : List (List α)) : List (List α) :=
  let columns := transpose (b.headD []).length b
  a.map fun r => columns.map (Signal.dot r)

def productTable [BEq α] (ms : List (List (List α))) : Attempt (List (List Nat)) :=
  ms.mapM fun a => ms.mapM fun b => orFail .value (ms.findIdx? (mul b a == ·))

def recovery (row : List Nat) (isWanted : Nat → Bool) : Attempt Nat := orFail .value (row.findIdx? isWanted)

end QubitLab.Matrix
