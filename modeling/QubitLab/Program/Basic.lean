import QubitLab.Json.Text
import QubitLab.Text.Search
import QubitLab.Value.Tree

/-!
# Programs of kernels

A program for a control unit is a list of kernels, each a named list of instructions on qubits. It is written for a
platform, which says how many qubits there are and which compiler back end makes the program file. A program keeps its
entries in the order in which they were made: kernels, the sweep points handed over, and the request to compile.
-/

namespace QubitLab

namespace Program

abbrev Qubit := Value

structure Instruction where
  name : String
  operands : List Value

namespace Instruction

def prepare (q : Qubit) : Instruction := ⟨"prepz", [q]⟩

def measure (q : Qubit) : Instruction := ⟨"measure", [q]⟩

def apply (g : String) (operands : List Value) : Instruction := ⟨"gate", .text g :: operands⟩

def gate (g : String) (qs : List Qubit) : Instruction := apply g [.list qs]

def pause (qs : List Qubit) (ns : Value) : Instruction := apply "wait" [.list qs, ns]

def barrier (qs : List Qubit) : Instruction := pause qs (.int 0)

def flip (q : Qubit) : Instruction := ⟨"x", [q]⟩

end Instruction

mutual

/-- The text of an operand: whole numbers without a point, other numbers with six digits, lists in brackets. -/
def operandText : Value → String
  | .real x =>
    match Decimal.truncate? x with
    | some n => if (Number.int n).toFloatInf == x then Decimal.intText n else Decimal.general 6 x
    | none => Decimal.general 6 x
  | .list xs => "[" ++ Text.join "," (operandTexts xs) ++ "]"
  | .tuple xs => "[" ++ Text.join "," (operandTexts xs) ++ "]"
  | .ints t => "[" ++ Text.join "," (t.data.toList.map Decimal.intText) ++ "]"
  | v => v.display

def operandTexts : List Value → List String
  | [] => []
  | v :: r => operandText v :: operandTexts r

end

def Instruction.line (i : Instruction) : String := Text.join " " (i.name :: operandTexts i.operands)

structure Kernel where
  name : String
  body : List Instruction

def reserved : List Char := "!@#$%^&*()[]\x7b\x7d;:,./<>?\\|`~-=_+ ".toList

/-- The name of a kernel: reserved characters become low lines. -/
def kernelName (s : String) : String := String.ofList (s.toList.map fun c => if reserved.contains c then '_' else c)

def kernel (name : String) (body : List Instruction) : Kernel := ⟨kernelName name, body⟩

structure Platform where
  qubits : Value
  backend : String

namespace Platform

def quotedAfter? (s : List Char) : Option String :=
  match s.dropWhile (· == ' ') with
  | ':' :: r =>
    match r.dropWhile (· == ' ') with
    | '"' :: r => if r.contains '"' then some (String.ofList (r.takeWhile (· != '"'))) else none
    | _ => none
  | _ => none

def backendOfLine? (line : String) : Option String :=
  ((Text.splitOn "\"eqasm_compiler\"" line).drop 1).findSome? fun r => quotedAfter? r.toList

/-- The back end that a platform file names in its first line with that key; empty when no line has it. -/
def backendOf (text : String) : Attempt String :=
  match (Text.fileLines text).find? fun l => Text.contains "eqasm_compiler" l with
  | none => .ok ""
  | some l => orFail .member (backendOfLine? l)

def read (text : String) : Attempt Platform := do
  let v ← orFail .jsonText (Json.read? text.toList)
  let settings ← orFail .key (v.get? "hardware_settings")
  let qubits ← orFail .key (settings.get? "qubit_number")
  return ⟨qubits, ← backendOf text⟩

end Platform

inductive Entry
  | kernel (k : Kernel)
  | compile

end Program

open Program in
structure Program where
  name : String
  platform : Platform
  registers : Value := .int 32
  entries : List Entry := []
  file? : Option String := none
  sweepPoints? : Option Value := none

namespace Program

def outputDirectory : String := "output"

def fileNamed (name ending : String) : String := outputDirectory ++ "/" ++ name ++ ending

def fileEnding (backend : String) : String := if backend == "eqasm_backend_cc" then ".vq1asm" else ".qisa"

def addAll (ks : List Kernel) (p : Program) : Program := { p with entries := p.entries ++ ks.map .kernel }

def compile (p : Program) : Program :=
  { p with entries := p.entries ++ [.compile], file? := some (fileNamed p.name (fileEnding p.platform.backend)) }

/-! ## Reports -/

def Kernel.listing (k : Kernel) : List Value := [.text k.name, .ofTexts (k.body.map Instruction.line)]

def Entry.report : Entry → Value
  | .kernel k => .list (.text "add_kernel" :: k.listing)
  | .compile => .ofTexts ["compile"]

def report (p : Program) : Value :=
  .record [("program", .text p.name), ("calls", .list (p.entries.map Entry.report)),
    ("more", .record ([("eqasm_compiler", .text p.platform.backend)] ++
      (p.file?.toList.map fun f => ("filename", Value.text f)) ++
      [("nqubits", p.platform.qubits), ("nregisters", p.registers)] ++
      (p.sweepPoints?.toList.map fun v => ("sweep_points", v))))]

end Program

end QubitLab
