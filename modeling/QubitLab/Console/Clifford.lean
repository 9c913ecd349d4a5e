import QubitLab.Clifford.Sequence
import QubitLab.Console.Instruction

/-!
# Commands on Cliffords

Products, inverses and decompositions of Cliffords by their numbers, and the sequences of randomized benchmarking.
-/

namespace QubitLab.Console

open Clifford

def groupArg (v : Value) : Attempt Group := do
  let n ← numberArg v
  if Number.eq n (.int 1) then return .single
  else if Number.eq n (.int 2) then return .pair
  else fail .unsupported

def cliffordArg (g : Group) (v : Value) : Attempt Nat := do
  let x ← numberArg v
  if !Number.lt x (.int g.size) then fail .assertion
  cliffordNumber g (← intArg v)

def seedArg (v : Value) : Attempt Random.Mersenne := do
  let s ← intArg v
  if s < 0 ∨ s ≥ Nat.pow 2 32 then fail .value
  return Random.Mersenne.seeded s.toNat

def benchmarkingSequence (count : Value) (wanted : Value) (g : Group) (top : Int) (extra : Value)
    (m : Random.Mersenne) : Attempt (List Int × Random.Mersenne) := do
  let n ← readInt count
  let (ns, m) ← if extra.isNull then drawSequence g top n none m
    else do
      let (ns, m) ← drawSequence g top n none m
      pure (interleave (← readInt extra) ns, m)
  if wanted.isNull then return (ns, m)
  let r ← Clifford.recoveryOf g (cliffordArg g wanted) ns
  return (ns ++ [(r : Int)], m)

def closedSequence (count wanted : Value) (m : Random.Mersenne) : Attempt (List Int) := do
  let (ns, _) ← randomCliffords 24 (← readInt count) m
  let net ← netOf .single ns
  let row := Single.productRow net
  let w ← numberArg wanted
  let r ← orFail .value (row.findIdx? fun (n : Nat) => Number.eq w (.int n))
  return ns ++ [(r : Int)]

end QubitLab.Console
