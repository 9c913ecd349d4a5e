import QubitLab.Console.Instruction
import QubitLab.Microcode.Store

/-!
# Commands of the control store

Checked lines and words of the store, from argument values, and the texts of numbers in it.
-/

namespace QubitLab.Console

open Microcode

/-! ## Lines -/

def ofStore {α : Type} (r : Except StoreError α) : Attempt α :=
  match r with
  | .ok a => .ok a
  | .error e => .error e.fault

def lineField (v : Value) : Attempt Int :=
  orFailWith .value ("The input parameter " ++ v.display ++ " is not an integer.") v.int?

def boundedField (hi : Nat) (v : Value) : Attempt Int := do
  let n ← lineField v
  let _ ← ofStore (field hi n)
  return n

def lineFields (c k w k' w' : Value) : Attempt (Int × Int × Int × Int × Int) := do
  let c ← boundedField 3 c
  let k ← boundedField 3 k
  let w ← boundedField 255 w
  let k' ← boundedField 3 k'
  let w' ← boundedField 255 w'
  return (c, k, w, k', w')

def packCommand : Command :=
  command "gen" "condition op_type_left cw_left op_type_right cw_right present_format-" fun
    | [c, k, w, k', w', _] => do
      let (c, k, w, k', w') ← lineFields c k w k' w'
      return .ofNat (← ofStore (Line.make c k w k' w')).word
    | _ => fail .sort

def insertInto (s : Store) (args : Fields) : Attempt Store := do
  let args ← decodeFields args
  let names := ["line_number", "condition", "op_type_left", "cw_left", "op_type_right", "cw_right"]
  if args.any (fun (k, _) => !names.contains k) then fail .sort
  let given (k : String) : Attempt Value := orFail .sort (Fields.get? args k)
  let n ← given "line_number"
  let c ← given "condition"
  let k ← given "op_type_left"
  let w ← given "cw_left"
  let k' := (Fields.get? args "op_type_right").getD (.int 0)
  let w' := (Fields.get? args "cw_right").getD (.int 0)
  let x ← numberArg n
  if Number.lt (.int 256) x then ofStore (.error .lineNumber)
  let (c, k, w, k', w') ← lineFields c k w k' w'
  ofStore (s.insert (← intArg n) c k w k' w')

def checkWords (xs : List Value) : Attempt Value := do
  if xs.length > 256 then
    failWith .value ("The microcode can be at most 256 long. " ++ Decimal.natText xs.length ++ " are given")
  for (v, i) in xs.zipIdx do
    let x ← numberArg v
    if Number.lt (.int (Nat.pow 2 22 - 1)) x then
      failWith .value ("The maximum value of a cs_line is: 2**22 -1." ++ v.display ++ " is given at position " ++
        Decimal.natText i ++ ".")
  return .null

/-! ## Number texts -/

def digitsOf (x n unsigned : Value) : Attempt Value := do
  if !(← holds (readFloat x)) then failWith .value ("get_bin: parameter " ++ x.display ++ " is not a number.")
  match unsigned with
  | .bool true =>
    let k ← readInt x
    let width? : Option Nat := match n with
      | .int w => if w < 0 then none else some w.toNat
      | .text s => if s.isEmpty then some 0 else s.toNat?
      | _ => none
    return .text (String.ofList (Qumis.binaryDigits (← orFail .value width?) k))
  | _ => binaryOf x n

def upperHexOf (x w : Value) : Attempt Value := do
  if !(← holds (readFloat x)) then failWith .value ("bin_to_hex: parameter " ++ x.display ++ " is not a number")
  match ← hexOf x w with
  | .text s => return .text (String.ofList (s.toList.map Char.toUpper))
  | v => return v

def wordArg (v : Value) : Attempt Int :=
  orFailWith .value ("The input data " ++ v.display ++ " is not an integer") v.int?

def fourBytes (v : Value) : Attempt Value := do
  let n ← wordArg v
  if n < 0 ∨ n ≥ Nat.pow 2 32 then fail .overflow
  return .ofNats (Store.wordBytes n.toNat)

def checkBounds (d lo hi : Value) : Attempt Value := do
  let n ← lineField d
  let outside : Attempt Bool := do
    if Number.lt (.int n) (← numberArg lo) then return true
    return Number.lt (← numberArg hi) (.int n)
  if ← outside then
    failWith .value ("Parameter " ++ d.display ++ " out of range: [" ++ lo.display ++ ", " ++ hi.display ++ "].")
  return .bool true

end QubitLab.Console
