import QubitLab.Clifford.Pair
import QubitLab.Random.Mersenne

/-!
# Benchmarking sequences

A benchmarking sequence is a list of random Cliffords, possibly interleaved with a fixed one, followed by the Clifford
that makes the product a wanted one. `Group` is the group the Cliffords are taken from. The last Clifford is found by
inverting the product of the others (`recoveryOf`). A Clifford number with a minus sign is played in a special way and
counts as the number without it.
-/

namespace QubitLab.Clifford

inductive Group
  | single
  | pair
  deriving DecidableEq, Repr

namespace Group

def size : Group → Nat
  | .single => Single.size
  | .pair => Pair.size

def action : Group → Nat → Action
  | .single => Single.action
  | .pair => Pair.action

/-- The number of an action, found by its checksum. -/
def index? : Group → Action → Option Nat
  | .single => Single.index?
  | .pair => Pair.index?

def mul? (g : Group) (a b : Nat) : Option Nat := g.index? (Action.mul (g.action a) (g.action b))

def inverse? (g : Group) (a : Nat) : Option Nat := g.index? (g.action a).inverse

def net? (g : Group) (ns : List Nat) : Option Nat := ns.foldlM (fun acc n => g.mul? n acc) 0

end Group

def interleave {α : Type} (x : α) (ns : List α) : List α := ns.flatMap fun n => [n, x]

/-! ## Drawing benchmarking sequences -/

/-- The number of a Clifford; negative numbers count from the end of the Cliffords without two-qubit gates. -/
def cliffordNumber (g : Group) (n : Int) : Attempt Nat :=
  if n ≥ g.size then fail .assertion
  else if 0 ≤ n then .ok n.toNat
  else
    let span : Int := match g with
      | .single => 24
      | .pair => 576
    if -span ≤ n then .ok (n + span).toNat else fail .index

def netOf (g : Group) (ns : List Int) : Attempt Nat := do
  let ks ← ns.mapM fun n => cliffordNumber g n.natAbs
  orFail .value (g.net? ks)

def randomCliffords (bound : Int) (count : Int) (m : Random.Mersenne) : Attempt (List Int × Random.Mersenne) := do
  if count = 0 then return ([], m)
  if bound ≤ 0 ∨ count < 0 then fail .value
  let (ns, m) := m.draw bound.toNat count.toNat
  return (ns.map fun (n : Nat) => (n : Int), m)

def recoveryOf (g : Group) (wanted : Attempt Nat) (ns : List Int) : Attempt Nat := do
  let back ← orFail .value (g.inverse? (← netOf g ns))
  orFail .value (g.mul? (← wanted) back)

/-- A computation that draws random numbers and may fail. What was drawn stays drawn when it ends in a fault. -/
abbrev Drawing := ExceptT Fault (StateM Random.Mersenne)

def drawn {α : Type} (f : Random.Mersenne → Attempt (α × Random.Mersenne)) : Drawing α := fun m =>
  match f m with
  | .ok (x, m) => (.ok x, m)
  | .error e => (.error e, m)

def drawSequence (g : Group) (top count : Int) (extra? : Option Int) (m : Random.Mersenne) :
    Attempt (List Int × Random.Mersenne) := do
  let (ns, m) ← randomCliffords (min g.size top) count m
  match extra? with
  | none => return (ns, m)
  | some x => return (interleave x ns, m)

def gatesOf (g : Group) (n : Nat) : List PairGate :=
  match g with
  | .single => (Single.rotations n).map .first
  | .pair => Pair.gates n

end QubitLab.Clifford
