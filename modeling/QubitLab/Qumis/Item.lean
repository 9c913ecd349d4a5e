import QubitLab.Fault
import QubitLab.Text.Quoted

/-!
# Lines of an assembly program

A program is a list of items: a label (empty for none), a mnemonic (empty for none) and operands. Operands
are words of the source or numbers that a pass has computed. `AsmError` lists what can be wrong with
a program; `AsmError.message?` words those errors that have a message.
-/

namespace QubitLab.Qumis

inductive Operand
  | word (s : String)
  | number (n : Int)
  deriving Repr, DecidableEq

structure Item where
  label : String
  name : String
  operands : List Operand
  deriving Repr, DecidableEq

inductive OperandError
  | registerFormat
  | registerRange
  | positionFormat
  | positionRange
  | notNumber (s : String)
  | notInteger (s : String)
  deriving Repr, DecidableEq

inductive AsmError
  | noFile (file : String)
  | operandMissing
  | operandCount
  | operandsForbidden
  /-- A word that a pass reads as an integer is none. -/
  | integerExpected
  | immediateFormat (s : String)
  /-- The fields of an instruction do not form a binary number. -/
  | wordFormat
  | mnemonicUnknown
  | labelTwice (label file : String)
  | targetUnknown (label target : String)
  | operandWrong (lead : String) (e : OperandError)
  | waitFormat (s : String)
  | waitRange (s : String)
  | maskWidth (mask : String)
  | maskDigits (mask : String)
  | durationRange
  | operandSort
  | registerSort
  deriving Repr, DecidableEq

namespace OperandError

def message : OperandError → String
  | .registerFormat => "Register format is not correct."
  | .registerRange => "Register number is out of range."
  | .positionFormat => "Position input is not a number."
  | .positionRange => "Position input is out of range (\x7b0,1,2,3\x7d                              expected)."
  | .notNumber s => "get_bin: parameter " ++ s ++ " is not a number."
  | .notInteger s => "invalid literal for int() with base 10: " ++
    String.ofList ((Text.quoted s).toList.take 200)

end OperandError

namespace AsmError

def message? : AsmError → Option String
  | .noFile file => some ("\tError: Fail to open file " ++ file ++ ".")
  | .immediateFormat s => some (OperandError.message (.notNumber s))
  | .labelTwice label file => some ("Redefintion of the label " ++ label ++ " in the QuMIS file " ++ file)
  | .targetUnknown label target => some (label ++ ": Target label " ++ target ++ " not found.")
  | .operandWrong lead e => some (lead ++ "(" ++ Text.quoted e.message ++ ",)")
  | .waitFormat s => some ("Waiting time " ++ s ++ " is not an integer.")
  | .waitRange s => some ("Waiting time " ++ s ++ " out of range: 1 ~ 32767.")
  | .maskWidth mask => some ("The mask \"" ++ mask ++ "\" should be 7 bits.                               " ++
    "With the MSb indicating marker 1,                               and the LSb indicating marker 7.")
  | .maskDigits mask => some ("The mask \"" ++ mask ++ "\" should only contain 1 or 0.")
  | .durationRange => some ("the value of the duration time is out of range" ++
    "                               (accepted: integer in 0~2047).")
  | _ => none

def kind : AsmError → FaultKind
  | .noFile _ => .system
  | .operandMissing => .index
  | .operandsForbidden => .assertion
  | .mnemonicUnknown => .key
  | .operandSort => .sort
  | .registerSort => .member
  | _ => .value

def fault (e : AsmError) : Fault := ⟨e.kind, e.message?⟩

end AsmError

def Operand.text : Operand → String
  | .word s => s
  | .number n => Decimal.intText n

end QubitLab.Qumis
