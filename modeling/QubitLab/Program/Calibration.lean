import QubitLab.Program.Basic

/-!
# Calibration points

Kernels that prepare known states and read them out. For one qubit the ground state and the excited state come twice
each, and the second excited state if it is wanted; for several qubits each state is a word with one digit per qubit.
-/

namespace QubitLab.Program

open Instruction

def jointReadout (qs : List Qubit) : List Instruction := [barrier qs] ++ qs.map measure ++ [barrier qs]

def onePoints (q : Qubit) (second : Bool) (measured : List Qubit) : List Kernel :=
  let state (name : String) (gates : List Instruction) : List Kernel :=
    (List.range 2).map fun i => kernel (name ++ Decimal.natText i) ([prepare q] ++ gates ++ jointReadout measured)
  state "cal_gr_" [] ++ state "cal_ex_" [gate "rx180" [q]] ++
    (if second then state "cal_f_" [gate "rx180" [q], gate "rx12" [q]] else [])

def levelGates (level : Char) (q : Qubit) : List Instruction :=
  match level with
  | '1' => [gate "rx180" [q]]
  | '2' => [gate "rx180" [q], gate "rx12" [q]]
  | _ => []

def statePoint (qs : List Qubit) (i : Nat) (state : String) : Attempt Kernel := do
  let gates ← qs.zipIdx.mapM fun (q, j) => do return levelGates (← orFail .index state.toList[j]?) q
  return kernel ("cal" ++ Decimal.natText i ++ "_" ++ state) (qs.map prepare ++ gates.flatten ++ jointReadout qs)

def statePoints (qs : List Qubit) (states : List String) : Attempt (List Kernel) :=
  states.zipIdx.mapM fun (s, i) => statePoint qs i s

end QubitLab.Program
