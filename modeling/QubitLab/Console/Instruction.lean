import QubitLab.Console.Command
import QubitLab.Qasm.Compile

/-!
# Commands on instruction texts

The assembler, the numbers in its texts and texts of microcode as commands. What a text may hold is
decided by the modules for these; a command reads its arguments and tells the result or the fault.
-/

namespace QubitLab.Console

open Qumis Qasm

/-! ## Commands of the assembler -/

def ofAsm {α : Type} (r : Except AsmError α) : Attempt α :=
  match r with
  | .ok a => .ok a
  | .error e => .error e.fault

def operandValue : Operand → Value
  | .word s => .text s
  | .number n => .int n

def itemValue (x : Item) : Value := .list (.text x.label :: .text x.name :: x.operands.map operandValue)

/-! ## Number texts -/

def binaryOf (x n : Value) : Attempt Value := do
  if !(← holds (readFloat x)) then failWith .value ("get_bin: parameter " ++ x.display ++ " is not a number.")
  let k ← readInt x
  match n with
  | .int w => if w < 0 then fail .value else return .text (String.ofList (twosComplement w.toNat k))
  | .bool b => return .text (String.ofList (twosComplement (if b then 1 else 0) k))
  | .real _ => fail .value
  | _ => fail .sort

def hexOf (x w : Value) : Attempt Value := do
  if !(← holds (readFloat x)) then failWith .value ("bin_to_hex: parameter" ++ x.display ++ "is not a number.")
  let s ← textArg x
  let n ← orFail .value (Decimal.readInt? 2 s.toList)
  let w := (← intArg w).toNat
  let ds := Nat.toDigits 16 n.natAbs
  return .text (String.ofList (if n < 0 then '-' :: Decimal.zeroPad (w - 1) ds else Decimal.zeroPad w ds))

def operandOf : Value → Attempt Operand
  | .text s => .ok (.word s)
  | .int n => .ok (.number n)
  | .bool b => .ok (.number (if b then 1 else 0))
  | .real x => do return .number (← (Number.real x).truncate)
  | _ => fail .sort

/-! ## Commands on instruction texts and operation tables -/

def ofStep {α : Type} (r : Qasm.Step α) : Attempt α :=
  match r with
  | .ok a => .ok a
  | .error e => .error e.fault

/-! ## Kinds of numbers -/

def isNatural (v : Value) : Attempt Bool := do
  if !(← holds (readInt v)) then return false
  return decide (0 ≤ (← readInt v))

def isPositive (v : Value) : Attempt Bool := do
  if !(← holds (readFloat v)) then return false
  return (← readFloat v) > 0

def itemsArg : Value → Attempt (List Value)
  | .text s => .ok (s.toList.map fun c => .text (String.singleton c))
  | .record fs => .ok (fs.map fun (k, _) => .text k)
  | .ints t => .ok (t.data.toList.map .int)
  | .reals t => .ok (t.data.toList.map .real)
  | v => listArg v

/-! ## Instruction texts -/

def maskArg (v : Value) : Attempt (List Char) := do orFail .index (triggerMask? (← intArg v))

def clocksOf (whole : Number → Number → Attempt Number) (duration rate period : Value) : Attempt Value := do
  let d ← numberArg duration
  let d ← if period.isNull then pure d else do whole d (← numberArg period)
  return .int (← clocks d (← numberArg rate))

def instructionCommands : List Command := [
  define "ilib.trigg_cw" "channel" fun a => do return .text (String.ofList (← maskArg (a "channel"))),
  define "ilib.trigg_ch_to_instr" "channel duration" fun a => do
    return .text (triggerText (← maskArg (a "channel")) (a "duration").display),
  define "ilib.bin_add_cw_w7" "a b" fun a => do
    let x ← orFail .value (Decimal.readInt? 2 (← textArg (a "a")).toList)
    let y ← orFail .value (Decimal.readInt? 2 (← textArg (a "b")).toList)
    return .text (String.ofList (addMasks x y)),
  define "ilib.convert_to_clocks" "duration f_sampling=200e6 rounding_period?" fun a =>
    clocksOf wholePeriods (a "duration") (a "f_sampling") (a "rounding_period"),
  define "qh.convert_to_clocks" "duration f_sampling=200e6 rounding_period?" fun a =>
    clocksOf nextPeriod (a "duration") (a "f_sampling") (a "rounding_period"),
  define "qh.getBaseName" "filename" fun a => do
    return .text (Text.splitExtension (Text.lastPart (← textArg (a "filename")))).1,
  define "qh.getExtension" "filename" fun a => do
    return .text (Text.splitExtension (← textArg (a "filename"))).2,
  define "qh.removeExtension" "filename" fun a => do
    return .text (Text.splitExtension (← textArg (a "filename"))).1,
  define "qh.RepresentsInt" "s" fun a => do
    let s ← orFail .member (a "s").text?
    return .bool (!s.isEmpty && s.toList.all Chars.isDigitLike)]

end QubitLab.Console
