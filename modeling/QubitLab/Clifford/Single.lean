
import QubitLab.Clifford.Checksum
import QubitLab.Matrix.Product

/-!
# The Cliffords of one qubit

A Clifford maps each Pauli operator to a Pauli operator with a sign. An action lists the images of the Paulis in
order: I, X, Y, Z for one qubit, and for two qubits number `4 * p + q` is Pauli `p` on the second and `q` on the
first qubit. `mul a b` is `b` followed by `a`; `pair a b` acts as `a` on the second and `b` on the first qubit.
`matrix` is the Pauli transfer matrix.

Clifford number `12 * h + 3 * p + k` applies Pauli `p`, then the Hadamard gate if `h = 1`, then `k` times the
exchange that turns X into Y, Y into Z and Z into X. `Single.index?` finds the number of an action by the checksum of
its matrix, `Single.productTable` by comparison of matrices. Three tables write each Clifford as rotations: with few
rotations, with five primitive rotations only, and with three places each.
-/

namespace QubitLab.Clifford

/-! ## Actions on Pauli operators -/

structure Image where
  pauli : Nat
  neg : Bool := false
  deriving DecidableEq, Repr, Inhabited

abbrev Action := List Image

namespace Action

def identity (n : Nat) : Action := (List.range n).map fun i => ⟨i, false⟩

def image (a : Action) (i : Nat) : Image := a.getD i ⟨0, false⟩

def mul (a b : Action) : Action :=
  b.map fun x =>
    let y := image a x.pauli
    ⟨y.pauli, x.neg != y.neg⟩

/-- The product of actions in order of time: the first of the list acts first. -/
def inTurn (n : Nat) (as : List Action) : Action := as.foldl (fun acc a => mul a acc) (identity n)

def inverse (a : Action) : Action :=
  (List.range a.length).map fun i =>
    match a.findIdx? (fun x => x.pauli == i) with
    | some j => ⟨j, (image a j).neg⟩
    | none => ⟨i, false⟩

def pair (a b : Action) : Action := a.flatMap fun x => b.map fun y => ⟨4 * x.pauli + y.pauli, x.neg != y.neg⟩

def entry (a : Action) (row column : Nat) : Int :=
  let x := image a column
  if x.pauli = row then (if x.neg then -1 else 1) else 0

/-- The Pauli transfer matrix: column `j` is the image of Pauli `j`. -/
def matrix (a : Action) : List (List Int) :=
  (List.range a.length).map fun i => (List.range a.length).map fun j => entry a i j

def checksum (a : Action) : Nat := Checksum.ofEntries a.matrix.flatten

end Action

inductive Rotation
  | I | X180 | Y180 | X90 | Y90 | mX90 | mY90 | mX180 | mY180
  deriving DecidableEq, Repr, Inhabited

def Rotation.name : Rotation → String
  | .I => "I"
  | .X180 => "X180"
  | .Y180 => "Y180"
  | .X90 => "X90"
  | .Y90 => "Y90"
  | .mX90 => "mX90"
  | .mY90 => "mY90"
  | .mX180 => "mX180"
  | .mY180 => "mY180"

namespace Single

/-- The action of a Pauli gate: it changes the sign of the other two. -/
def pauli (p : Nat) : Action := (List.range 4).map fun q => ⟨q, decide (p ≠ 0 ∧ q ≠ 0 ∧ p ≠ q)⟩

def exchange : Action := [⟨0, false⟩, ⟨2, false⟩, ⟨3, false⟩, ⟨1, false⟩]

def hadamard : Action := [⟨0, false⟩, ⟨3, false⟩, ⟨2, true⟩, ⟨1, false⟩]

def size : Nat := 24

def action (n : Nat) : Action :=
  Action.inTurn 4 ([pauli (n % 12 / 3)] ++ (if n < 12 then [] else [hadamard]) ++ List.replicate (n % 3) exchange)

def actions : List Action := (List.range size).map action

def checksums : Array Nat := Array.ofFn fun (i : Fin size) => (action i).checksum

def index? (a : Action) : Option Nat := Checksum.find? checksums a.checksum

def rotation : Rotation → Action
  | .I => action 0
  | .X180 | .mX180 => action 3
  | .Y180 | .mY180 => action 6
  | .X90 => action 16
  | .Y90 => action 21
  | .mX90 => action 13
  | .mY90 => action 15

/-- The product table: row `i` has in column `j` the number of `i` followed by `j`. -/
def productTable : List (List Nat) :=
  (@Matrix.productTable Int Zero.ofOfNat0 _ _ _ (actions.map Action.matrix)).toOption.getD []

def productRow (i : Nat) : List Nat := productTable.getD i []

/-! ## Rotations of each Clifford -/

def efficient : List (List Rotation) :=
  [[.I], [.Y90, .X90], [.mX90, .mY90], [.X180], [.mY90, .mX90], [.X90, .mY90], [.Y180], [.mY90, .X90], [.X90, .Y90],
   [.X180, .Y180], [.Y90, .mX90], [.mX90, .Y90], [.Y90, .X180], [.mX90], [.X90, .mY90, .mX90], [.mY90], [.X90],
   [.X90, .Y90, .X90], [.mY90, .X180], [.X90, .Y180], [.X90, .mY90, .X90], [.Y90], [.mX90, .Y180],
   [.X90, .Y90, .mX90]]

def fivePrimitives : List (List Rotation) :=
  [[.I], [.Y90, .X90], [.X90, .Y90, .mX180], [.mX180], [.Y90, .X90, .mY180], [.X90, .Y90, .mY180], [.mY180],
   [.Y90, .X90, .mX180, .mY180], [.X90, .Y90], [.mX180, .mY180], [.Y90, .X90, .mX180], [.X90, .Y90, .mX180, .mY180],
   [.Y90, .mX180], [.X90, .mX180], [.X90, .Y90, .X90, .mY180], [.Y90, .mY180], [.X90], [.X90, .Y90, .X90],
   [.Y90, .mX180, .mY180], [.X90, .mY180], [.X90, .Y90, .X90, .mX180, .mY180], [.Y90], [.X90, .mX180, .mY180],
   [.X90, .Y90, .X90, .mX180]]

/-- Three rotations each, idle ones at the end. -/
def fixedLength : List (List Rotation) := efficient.map fun rs => rs ++ List.replicate (3 - rs.length) .I

def rotations (n : Nat) : List Rotation := efficient.getD n []

end Single

end QubitLab.Clifford
