import QubitLab.Decimal.Notation
import QubitLab.Fault
import QubitLab.Text.Search

/-!
# Programs for the circuit simulator

The simulator has gate names of its own and divides a program into circuits. `loadLines` replaces each gate of a program by
the simulator's, an initialisation by the start of a new circuit and a readout by measurements of all qubits;
`cut` divides lines into circuits at the lines that begin with a dot.
-/

namespace QubitLab.Circuit

structure Part where
  name : String
  body : List String
  deriving Repr, DecidableEq

def leadingDigits (s : List Char) : List Char := s.takeWhile Char.isDigit

/-- The text begins with `q` and at least one digit; what follows the digits. -/
def afterQubit? : List Char → Option (List Char)
  | 'q' :: r =>
    let ds := leadingDigits r
    if ds.isEmpty then none else some (r.drop ds.length)
  | _ => none

def qubitNames : List Char → List String
  | 'q' :: d :: r => if d.isDigit then String.ofList ['q', d] :: qubitNames r else qubitNames (d :: r)
  | _ :: r => qubitNames r
  | [] => []

inductive Form
  | start
  | readout
  /-- A gate on the first qubit of the line: what stands before and behind the qubit. -/
  | gate (before behind : String)
  | phase
  | idle
  deriving DecidableEq

def Form.arity : Form → Nat
  | .start | .readout => 0
  | .phase => 2
  | .gate _ _ | .idle => 1

def gateForms : List (String × Form) := [
  ("x180", .gate "rx180 " ""), ("X180", .gate "rx180 " ""), ("x90", .gate "rx90 " ""), ("X90", .gate "rx90 " ""),
  ("y180", .gate "ry180 " ""), ("Y180", .gate "ry180 " ""), ("y90", .gate "ry90 " ""), ("Y90", .gate "ry90 " ""),
  ("mY90", .gate "RY " ", -1.57079"), ("mX90", .gate "RX " ", -1.57079"), ("cz", .phase), ("CZ", .phase), ("I", .idle)]

/-- The text goes on with a number of qubits, a blank before each. -/
def hasQubits : Nat → List Char → Bool
  | n + 1, ' ' :: r => (afterQubit? r).any (hasQubits n)
  | n, _ => n == 0

def isGate (s : List Char) (g : String × Form) : Bool := (Chars.afterStart? g.1.toList s).any (hasQubits g.2.arity)

def form? (s : List Char) : Option Form :=
  if Chars.startsWith "init_all".toList s then some .start
  else if Chars.startsWith "RO".toList s then some .readout
  else (gateForms.find? (isGate s)).map Prod.snd

def forQubits (n : Nat) (word : String) : List String := (List.range n).map fun i => word ++ " q" ++ Decimal.natText i

/-- The lines that a form stands for; `count` is the number of circuits begun so far. -/
def Form.lines (f : Form) (qubits count : Nat) (s : List Char) : List String :=
  let qs := qubitNames s
  match f with
  | .start => (".c" ++ Decimal.natText count) :: forQubits qubits "prepz"
  | .readout => forQubits qubits "measure"
  | .gate before behind => [before ++ qs.getD 0 "" ++ behind]
  | .phase => ["cz " ++ qs.getD 0 "" ++ ", " ++ qs.getD 1 ""]
  | .idle => [""]

def isMarker (s : String) : Bool := s.toList.head? == some '.'

/-- The parts of a program line between bars, without the comment behind them and blanks around them. -/
def parts (line : List Char) : List (List Char) :=
  (Chars.splitBy (· == '|') (line.takeWhile (· != '#'))).map Chars.trim

def loadPart (qubits count : Nat) (part : List Char) : List String × Nat :=
  let line := String.ofList part
  let count := if line == "init_all" || isMarker line then count + 1 else count
  let replaced := match form? part with
    | some f => f.lines qubits count part
    | none => []
  (if replaced.isEmpty then [line] else replaced, count)

def gather {α : Type} (load : Nat → α → List String × Nat) (count : Nat) : List α → List String × Nat
  | [] => ([], count)
  | a :: rest =>
    let (ls, count) := load count a
    let (more, count) := gather load count rest
    (ls ++ more, count)

def loadLine (qubits count : Nat) (line : List Char) : List String × Nat :=
  let (ls, count) := gather (loadPart qubits) count (parts line)
  (if ls.getLast? == some "" then ls.dropLast else ls, count)

def loadFrom (qubits count : Nat) (lines : List String) : List String × Nat :=
  gather (fun count l => loadLine qubits count l.toList) count lines

def loadLines (qubits : Nat) (text : String) : List String := (loadFrom qubits 0 (Text.fileLines text)).1

def body (lines : List String) : List String := (lines.takeWhile fun l => !isMarker l).filter fun l => l.length > 1

/-- The name of a circuit: its marker line without blanks and the dot. -/
def markerName (l : String) : String := String.ofList ((l.toList.filter (· != ' ')).drop 1)

/-- Divides lines into circuits; a marker that is the last line is a fault. -/
def cut : List String → Attempt (List Part)
  | [] => .ok []
  | l :: rest =>
    if !isMarker l then cut rest
    else if rest.isEmpty then fail .index
    else do return ⟨markerName l, body rest⟩ :: (← cut rest)

end QubitLab.Circuit
