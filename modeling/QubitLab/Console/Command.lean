import QubitLab.Report.Quantity
import QubitLab.Signal.Basic
import QubitLab.Value.Rectangle
import QubitLab.Value.Signature

/-!
# Commands

A command is an operation that can be called by name with named arguments: its parameters, each with a
default or none, and a function of the argument values. `Command.call` puts the arguments in the order of
the parameters; a missing or an unknown name is a fault. Parameters marked as arrays take nested lists.

Where an argument may be a number or an array, a function of doubles is applied to the number or to each entry.
-/

namespace QubitLab.Console

/-! ## Marked values -/

def unmark? (k : String) (v : Value) : Option (Attempt Value) :=
  match k, v with
  | "$f", .text s => some (orFail .value ((Decimal.readReal? s.toList).map .real))
  | "$c", .list [re, im] => some do
      let a ← orFail .value (Number.ofValue? re)
      let b ← orFail .value (Number.ofValue? im)
      return .complex ⟨← a.toFloat, ← b.toFloat⟩
  | "$a", v => some (v.readWords.toArray)
  | "$b", .list xs => some (.ok (.bytes (xs.filterMap fun x => x.int?.map Int.toNat)))
  | _, _ => none

mutual

def decode : Value → Attempt Value
  | .record fs => do
    let gs ← decodeFields fs
    match gs with
    | [(k, v)] => (unmark? k v).getD (.ok (.record gs))
    | _ => return .record gs
  | .list xs => do return .list (← decodeItems xs)
  | v => .ok v

def decodeItems : List Value → Attempt (List Value)
  | [] => .ok []
  | v :: r => do
    let w ← decode v
    let ws ← decodeItems r
    return w :: ws

def decodeFields : List (String × Value) → Attempt (List (String × Value))
  | [] => .ok []
  | (k, v) :: r => do
    let w ← decode v
    let ws ← decodeFields r
    return (k, w) :: ws

end

/-! ## Parameters -/

structure Command where
  name : String
  params : List Parameter
  open? : Bool := false
  run : List Value → Fields → Attempt Value

def command (name : String) (params : List Parameter) (run : List Value → Attempt Value) : Command :=
  ⟨name, params, false, fun vs _ => run vs⟩

def define (name : String) (params : List Parameter) (run : Arguments → Attempt Value) : Command :=
  ⟨name, params, false, fun vs _ =>
    let args := (params.map (·.name)).zip vs
    run fun k => (args.lookup k).getD .null⟩

def pickParameter (p : Parameter) (args : Fields) : Attempt Value :=
  match args.get? p.name with
  | some v => if p.isArray then v.readWords.toArray else .ok v
  | none => orFail .sort p.default?

def Command.call (c : Command) (args : Fields) : Attempt Value := do
  let args ← decodeFields args
  let known := c.params.map (·.name)
  if !c.open? && args.any (fun (k, _) => !known.contains k) then fail .sort
  let vs ← c.params.mapM fun p => pickParameter p args
  c.run vs (args.filter fun (k, _) => !known.contains k)

/-! ## Reading arguments -/

def readFloat (v : Value) : Attempt Float :=
  match v with
  | .text s => orFail .value (Decimal.readReal? s.toList)
  | v => floatArg v

def readInt (v : Value) : Attempt Int :=
  match v with
  | .text s => orFail .value (Decimal.readInt? 10 s.toList)
  | v => do (← numberArg v).truncate

/-- The attempt succeeds; a fault of the kind `value` means no, any other stays a fault. -/
def holds {α : Type} (r : Attempt α) : Attempt Bool :=
  match r with
  | .ok _ => .ok true
  | .error e => if e.kind == .value then .ok false else .error e

/-! ## Numbers and arrays as arguments -/

/-- The shape and the doubles of a number or array; numbers have no axis. -/
def floatTensor (v : Value) : Attempt (Tensor Float) :=
  match v with
  | .reals t => .ok t
  | .ints t => .ok (t.map fun n => (Number.int n).toFloatInf)
  | .bools t => .ok (t.map fun b => if b then 1 else 0)
  | v => do return ⟨[], #[← floatArg v]⟩

def isScalar : Value → Bool
  | .int _ | .real _ | .bool _ => true
  | _ => false

def eachFloat (f : Float → Float) (v : Value) : Attempt Value := do
  let t ← floatTensor v
  return .reals (t.map f)

def eachWhole (f : Float → Int) (v : Value) : Attempt Value := do
  let t ← floatTensor v
  return .ints (t.map f)

/-- The doubles of an array argument; a plain number gives the fault. -/
def seriesArg (otherwise : FaultKind) (v : Value) : Attempt (List Float) := do
  if isScalar v then fail otherwise
  let t ← floatTensor v
  return t.data.toList

def seriesValue (xs : List Float) : Value := .ofReals xs.toArray

def rowsOf {α : Type} (t : Tensor α) : Option (List (List α)) :=
  match t.shape with
  | [n, m] => some ((List.range n).map fun i => (t.data.toList.drop (i * m)).take m)
  | _ => none

def rowsValue (width : Nat) (rows : List (List Float)) : Value :=
  .reals ⟨[rows.length, width], (rows.flatMap id).toArray⟩

def divisor (x : Float) : Attempt Float := if x == 0 then fail .zeroDivision else .ok x

end QubitLab.Console
