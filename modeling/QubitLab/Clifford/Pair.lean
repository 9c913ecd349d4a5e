import QubitLab.Clifford.Single

/-!
# The Cliffords of two qubits

There are 11520 of them, in four classes by the number of controlled-phase gates they need: 576 with none, 5184 like
a controlled-not, 5184 like an iSWAP, 576 like a swap. Each is a list of gates (`Pair.gates`), and its action is
the product of theirs; `Pair.index?` finds the number of an action.
-/

namespace QubitLab.Clifford

inductive PairGate
  | first (r : Rotation)
  | second (r : Rotation)
  | cz
  deriving DecidableEq, Repr, Inhabited

namespace Pair

def size : Nat := 11520

def cz : Action :=
  [⟨0, false⟩, ⟨13, false⟩, ⟨14, false⟩, ⟨3, false⟩, ⟨7, false⟩, ⟨10, false⟩, ⟨9, true⟩, ⟨4, false⟩,
   ⟨11, false⟩, ⟨6, true⟩, ⟨5, false⟩, ⟨8, false⟩, ⟨12, false⟩, ⟨1, false⟩, ⟨2, false⟩, ⟨15, false⟩]

def both (second first : Action) : Action := Action.pair second first

inductive Kind
  | single (n : Nat)
  | cnot (n : Nat)
  | iswap (n : Nat)
  | swap (n : Nat)

def kind (n : Nat) : Kind :=
  if n < 576 then .single n
  else if n < 5760 then .cnot (n - 576)
  else if n < 10944 then .iswap (n - 5760)
  else .swap (n - 10944)

def placed (second first : Nat) : Action := both (Single.action second) (Single.action first)

/-- A product of two single-qubit actions by number, the second acting first. -/
def after (a b : Nat) : Action := Action.mul (Single.action a) (Single.action b)

def steps (n : Nat) : List Action :=
  match kind n with
  | .single n => [placed (n / 24) (n % 24)]
  | .cnot n => [placed (n / 24 % 24) (n % 24), cz, both (after (n / 1728) 21) (Single.action (n / 576 % 3))]
  | .iswap n => [placed (n / 24 % 24) (n % 24), cz, placed 15 21, cz,
      both (after (n / 1728) 16) (after (n / 576 % 3) 21)]
  | .swap n => [placed (n / 24) (n % 24), cz, placed 21 15, cz, placed 15 21, cz, placed 21 0]

def action (n : Nat) : Action := Action.inTurn 16 (steps n)

def checksums : Array Nat := Array.ofFn fun (i : Fin size) => (action i).checksum

def index? (a : Action) : Option Nat := Checksum.find? checksums a.checksum

/-! ## Gates -/

def rotate (place : Rotation → PairGate) (n : Nat) : List PairGate := (Single.rotations n).map place

def rotateAfter (place : Rotation → PairGate) (a b : Nat) : List PairGate :=
  rotate place ((Single.index? (after a b)).getD 0)

def gates (n : Nat) : List PairGate :=
  match kind n with
  | .single n => rotate .first (n % 24) ++ rotate .second (n / 24)
  | .cnot n => rotate .first (n % 24) ++ rotate .second (n / 24 % 24) ++ [.cz] ++
      rotate .first (n / 576 % 3) ++ rotateAfter .second (n / 1728) 21
  | .iswap n => rotate .first (n % 24) ++ rotate .second (n / 24 % 24) ++ [.cz] ++
      rotate .first 21 ++ rotate .second 15 ++ [.cz] ++
      rotateAfter .first (n / 576 % 3) 21 ++ rotateAfter .second (n / 1728) 16
  | .swap n => rotate .first (n % 24) ++ rotate .second (n / 24) ++ [.cz] ++
      rotate .first 15 ++ rotate .second 21 ++ [.cz] ++
      rotate .first 21 ++ rotate .second 15 ++ [.cz] ++
      rotate .first 0 ++ rotate .second 21

def gateAction : PairGate → Action
  | .first r => both (Action.identity 4) (Single.rotation r)
  | .second r => both (Single.rotation r) (Action.identity 4)
  | .cz => cz

end Pair

/-! ## Names -/

/-- The numbers of Cliffords with common names; the sign marks the bare controlled-phase gate. -/
def commonNumber? : String → Option Int
  | "I" | "II" => some 0
  | "X" | "IX" | "X180" => some 3
  | "Y" | "IY" | "Y180" => some 6
  | "Z" | "IZ" | "Z180" => some 9
  | "XI" => some 72
  | "XX" => some 75
  | "XY" => some 78
  | "XZ" => some 81
  | "YI" => some 144
  | "YX" => some 147
  | "YY" => some 150
  | "YZ" => some 153
  | "ZI" => some 216
  | "ZX" => some 219
  | "ZY" => some 222
  | "ZZ" => some 225
  | "X90" => some 16
  | "Y90" => some 21
  | "CZ" => some (-4368)
  | _ => none

/-! ## Transfer matrices of rotations and fidelities -/

def halfTurn : Float := 3.141592653589793

def radians (deg : Float) : Float := deg * (halfTurn / 180.0)

def rotationX (t : Float) : List (List Float) :=
  [[1, 0, 0, 0], [0, 1, 0, 0], [0, 0, t.cos, -t.sin], [0, 0, t.sin, t.cos]]

def rotationY (t : Float) : List (List Float) :=
  [[1, 0, 0, 0], [0, t.cos, 0, t.sin], [0, 0, 1, 0], [0, -t.sin, 0, t.cos]]

def rotationZ (t : Float) : List (List Float) :=
  [[1, 0, 0, 0], [0, t.cos, -t.sin, 0], [0, t.sin, t.cos, 0], [0, 0, 0, 1]]

/-- The trace of the product of the transpose of one matrix with another: the sum of the products of entries. -/
def overlap (a b : List (List Float)) : Float :=
  (a.zip b).foldl (fun s (x, y) => (x.zip y).foldl (fun s (u, v) => s + u * v) s) 0

def averageFidelity (process dim : Float) : Float := (dim * process + 1) / (dim + 1)

end QubitLab.Clifford
