import QubitLab.Decimal.Numeral
import QubitLab.Qumis.Item

/-!
# Passes over a program

`align` moves a label that stands alone to the next item, drops empty items, and gives a label at the end a
`nop`. The item behind one that is removed is not looked at again in the same pass. `labelTable` maps
each label to the index of its item; `resolveBranches` replaces the target of each branch by its distance
from the item behind the branch.

The passes between source and words: a loop is added at the end, waits of zero are dropped, `nop`s are added
after labels and branches, `mov` becomes four `lui`, waits longer than the machine can count are split,
and neighbouring waits are merged as long as their sum stays below the longest wait.
-/

namespace QubitLab.Qumis

/-! ## Labels and branch offsets -/

def alignItems : List Item → List Item
  | [] => []
  | x :: r =>
    if x.label = "" ∧ x.name = "" then
      match r with
      | [] => []
      | y :: t => y :: alignItems t
    else if x.name = "" then
      match r with
      | [] => [⟨x.label, "nop", []⟩]
      | y :: t => (if y.label = "" then { y with label := x.label } else y) :: alignItems t
    else x :: alignItems r

abbrev LabelTable := List (String × Nat)

def labelsFrom (file : String) (i : Nat) (table : LabelTable) : List Item → Except AsmError LabelTable
  | [] => .ok table
  | x :: r =>
    if x.label = "" then labelsFrom file (i + 1) table r
    else if (table.lookup x.label).isSome then .error (.labelTwice x.label file)
    else labelsFrom file (i + 1) (table ++ [(x.label, i)]) r

def labelTable (file : String) (items : List Item) : Except AsmError LabelTable := labelsFrom file 0 [] items

def align (file : String) (items : List Item) : Except AsmError (List Item) :=
  let out := alignItems items
  (labelTable file out).map fun _ => out

def Item.isBranch (x : Item) : Bool := x.name == "beq" || x.name == "bne"

def resolveBranch (table : LabelTable) (i : Nat) (x : Item) : Except AsmError Item :=
  if !x.isBranch then .ok x
  else
    match x.operands with
    | a :: b :: target :: rest =>
      match table.lookup target.text with
      | some addr => .ok { x with operands := a :: b :: .number ((addr : Int) - (i + 1)) :: rest }
      | none => .error (.targetUnknown x.label target.text)
    | _ => .error .operandMissing

def resolveFrom (table : LabelTable) (i : Nat) : List Item → Except AsmError (List Item)
  | [] => .ok []
  | x :: r => do
    let y ← resolveBranch table i x
    let ys ← resolveFrom table (i + 1) r
    return y :: ys

def resolveBranches (table : LabelTable) (items : List Item) : Except AsmError (List Item) := resolveFrom table 0 items

/-! ## Passes over a program -/

structure Settings where
  file : String := "prog.qumis"
  nopAfterLabel : Bool := false
  nopAfterBranch : Bool := true
  branchNops : Nat := 5
  minWait : Int := 1
  maxWait : Int := 32767

def endLoop : List Item := [
  ⟨"end_of_file_loop", "wait", [.word "1000"]⟩,
  ⟨"", "trigger", [.word "0000001", .word "1000"]⟩,
  ⟨"", "beq", [.word "r0", .word "r0", .word "end_of_file_loop"]⟩]

def clearZeroWaits : List Item → Except AsmError (List Item)
  | [] => .ok []
  | x :: r =>
    if x.name = "wait" then
      match x.operands with
      | [] => .error .operandMissing
      | op :: _ => do
        let ys ← clearZeroWaits r
        return (if op = .word "0" then ⟨x.label, "", []⟩ else x) :: ys
    else do
      let ys ← clearZeroWaits r
      return x :: ys

def nopsAfterLabels (items : List Item) : List Item :=
  items.flatMap fun x =>
    if x.label = "" ∨ x.name = "nop" then [x] else [⟨x.label, "nop", []⟩, { x with label := "" }]

def nopsAfterBranches (n : Nat) (items : List Item) : List Item :=
  items.flatMap fun x => if x.isBranch then x :: List.replicate n ⟨"", "nop", []⟩ else [x]

def Operand.int? : Operand → Option Int
  | .number n => some n
  | .word s => Decimal.readInt? 10 s.toList

def isNumberWord (s : String) : Bool := (Decimal.readReal? s.toList).isSome

def loadBytes (label : String) (reg : Operand) (imm : Int) : List Item :=
  let byte (k : Nat) : Int := imm % Nat.pow 2 32 / Nat.pow 256 k % 256
  [⟨label, "lui", [reg, .number 0, .number (byte 0)]⟩,
    ⟨"", "lui", [reg, .number 1, .number (byte 1)]⟩,
    ⟨"", "lui", [reg, .number 2, .number (byte 2)]⟩,
    ⟨"", "lui", [reg, .number 3, .number (byte 3)]⟩]

def expandMove (x : Item) : Except AsmError (List Item) :=
  if x.name = "mov" then
    match x.operands with
    | reg :: imm :: _ =>
      match imm with
      | .number n => .ok (loadBytes x.label reg n)
      | .word s =>
        if !isNumberWord s then .error (.immediateFormat s)
        else
          match imm.int? with
          | some n => .ok (loadBytes x.label reg n)
          | none => .error .integerExpected
    | _ => .error .operandMissing
  else .ok [x]

def expandMoves : List Item → Except AsmError (List Item)
  | [] => .ok []
  | x :: r => do
    let ys ← expandMove x
    let zs ← expandMoves r
    return ys ++ zs

def waitItem (label : String) (n : Int) (rest : List Operand) : Item :=
  ⟨label, "wait", .word (Decimal.intText n) :: rest⟩

def waitChunks (maxWait : Int) (n : Int) : List Item :=
  let k := if 0 < maxWait then ((n - 1) / maxWait).toNat else 0
  List.replicate k (waitItem "" maxWait []) ++ [waitItem "" (n - k * maxWait) []]

/-- A wait that is too long as several waits; the first keeps label and further operands. -/
def splitWait (maxWait : Int) (x : Item) : Except AsmError (List Item) :=
  if x.name = "wait" then
    match x.operands with
    | [] => .error .operandMissing
    | op :: rest =>
      match op.int? with
      | none => .error .integerExpected
      | some n =>
        if 0 < maxWait ∧ n > maxWait then
          .ok (waitItem x.label maxWait rest :: waitChunks maxWait (n - maxWait))
        else .ok [x]
  else .ok [x]

def splitWaits (maxWait : Int) : List Item → Except AsmError (List Item)
  | [] => .ok []
  | x :: r => do
    let ys ← splitWait maxWait x
    let zs ← splitWaits maxWait r
    return ys ++ zs

def Item.ticks? (x : Item) : Except AsmError Int :=
  match x.operands with
  | [] => .error .operandMissing
  | op :: _ =>
    match op.int? with
    | some n => .ok n
    | none => .error .integerExpected

/-- Merges a wait with an unlabelled wait behind it while the sum stays below the longest wait, in an item and
those behind it. -/
def mergeFrom (maxWait : Int) (x : Item) : List Item → Except AsmError (List Item)
  | [] => .ok [x]
  | y :: r =>
    if x.name = "wait" ∧ y.label = "" ∧ y.name = "wait" then do
      let m ← x.ticks?
      let n ← y.ticks?
      if m + n < maxWait then
        mergeFrom maxWait (waitItem x.label (m + n) (x.operands.drop 1)) r
      else
        let ys ← mergeFrom maxWait y r
        return x :: ys
    else do
      let ys ← mergeFrom maxWait y r
      return x :: ys

def mergeWaits (maxWait : Int) : List Item → Except AsmError (List Item)
  | [] => .ok []
  | x :: r => mergeFrom maxWait x r

end QubitLab.Qumis
