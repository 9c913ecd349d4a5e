import QubitLab.Qasm.Config
import QubitLab.Qumis.Program
import QubitLab.Template.Fill

/-!
# Line by line expansion

The direct way from a program to instructions: each line is replaced by the instruction text that a table of
operations has for it. A line is looked up as a whole, then by its first two words; in the second case its third
word is filled into the instruction. A line of one word is looked up by the two words of the last line that had
them. Idle lines become waits.
-/

namespace QubitLab.Qasm

/-!
## Reading programs

A program is read line by line in lower case, without comments. A line holds one operation, or several
between bars that start together; an operation is a name and parameters between blanks or commas.
`parseLine` checks that the operation exists, stands alone if it has to, and has the right number of
parameters; the time of a wait is turned into clocks.
-/

structure SourceLine where
  number : Nat
  content : String
  deriving Repr, DecidableEq

structure SourceOp where
  line : Nat
  kind : EventKind
  name : String
  params : List String
  wait : Int := 0
  deriving Repr, DecidableEq

def isLineMargin (c : Char) : Bool := c == ' ' || c == '\t' || c == '\n' || c == '\r'

def numbered (text : String) : List (Nat × List Char) :=
  let ls := Chars.fileLines text.toList
  (List.range ls.length).zip ls |>.map fun (i, l) => (i + 1, l)

def programLines (text : String) : List SourceLine :=
  (numbered text).filterMap fun (n, l) =>
    let s := Chars.lower (Chars.trimBy isLineMargin (l.takeWhile (· != '#')))
    if s.isEmpty then none else some ⟨n, String.ofList s⟩

def parallelParts (content : String) : List (List Char) :=
  (Chars.splitBy (· == '|') content.toList).map fun p => Chars.trim (p.map fun c => if c == ',' then ' ' else c)

def shownParams (ps : List String) : String := "[" ++ ", ".intercalate (ps.map Text.quoted) ++ "]"

/-- The clocks of a wait that is given in nanoseconds, rounded down. -/
def waitClocks (cycle : Float) (ns : String) : Step Int := do
  let n ← orError .valueInvalid (Decimal.readInt? 10 ns.toList)
  let q := (Number.floorDiv (.int n) (.real cycle)).bind Number.truncate
  match q with
  | .ok k => if k < 0 then .error .negativeWait else .ok k
  | .error e => .error (if e.kind == .overflow then .tooLarge else .valueInvalid)

def parseOperation (cfg : Config) (line count : Nat) (part : List Char) : Step SourceOp := do
  match (Chars.words part).map String.ofList with
  | [] => .error .emptyOperation
  | name :: params =>
    let op ← orError (.operationUnknown line name) (cfg.operations.lookup name)
    if op.kind.isAlone && count != 1 then .error (.notAlone line name)
    if name == "qubit" && params.isEmpty then .error (.noQubitDeclared line)
    let arity ← op.arity
    if name != "qubit" && arity.count != some params.length then
      .error (.parameterCount line name arity.shown (shownParams params))
    match op.kind, arity.count, params with
    | .wait, some 1, [ns] =>
      let k ← waitClocks cfg.cycle ns
      return ⟨line, op.kind, name, params, k⟩
    | _, _, _ => return ⟨line, op.kind, name, params, 0⟩

def parseLine (cfg : Config) (l : SourceLine) : Step (List SourceOp) :=
  let parts := parallelParts l.content
  parts.mapM (parseOperation cfg l.number parts.length)

def parseProgram (cfg : Config) (text : String) : Step (List (List SourceOp)) :=
  (programLines text).mapM (parseLine cfg)

/-! ## Line by line expansion -/

def opening : String :=
  "mov r0, 20000   # r0 stores the cycle time , 100 us \nmov r1, 0       # sets the inter pulse wait to 0\n" ++
  "mov r14, 0      # r14 stores number of repetitions\n# Experiment: repeat the rounds for infinite times\n" ++
  "wait 1 \nExp_Start: \n"

def closing : String := "beq r14, r14, Exp_Start       # Infinite loop\n"

def beforeMark (mark s : List Char) : List Char :=
  match Chars.cutAt? mark s with
  | some (a, _) => a
  | none => s

def trimLine (s : List Char) : List Char := Chars.trimBy (fun c => c == ' ' || c == '\t' || c == '\n' || c == '\r') s

def instructionText : Value → Attempt String
  | .text s => .ok s
  | .list xs => do return String.join (← xs.mapM fun v => orFail .sort v.text?)
  | .record fs => .ok (String.join (fs.map Prod.fst))
  | _ => fail .sort

def pair? (line : String) : Option String :=
  match Text.words line with
  | a :: b :: _ => some (a ++ " " ++ b)
  | _ => none

/-- The text of a line by the entry of two words; `first` and `rest` are the words of the line. -/
def pairText (ops : Fields) (line first : String) (rest : List String) (pair : String) : Attempt String :=
  match Fields.get? ops pair with
  | some op => do
    match Fields.get? (← orFail .member op.fields?) "instruction" with
    | some instr =>
      let arg ← orFail .index rest[1]?
      Template.fill (← orFail .sort instr.text?) arg
    | none => failWith .unsupported ("Multi qubit ops with args: \"" ++ line ++ "\"")
  | none =>
    if first == "I" || first == "Idx" then do
      let w ← orFail .index rest[0]?
      let n ← orFail .value (Decimal.readInt? 10 w.toList)
      return "wait " ++ Decimal.intText (Int.fdiv n 5) ++ " \n"
    else
      failWith .value ("Command \"" ++ first ++ "\" not recognized, must be in " ++
        (Value.ofTexts (Fields.keys ops ++ ["qubit"])).render)

/-- The text of a line; `pair` are the two words by which it is looked up if it is not known as a whole. -/
def lineText (ops : Fields) (pair : Option String) (line : String) : Attempt String :=
  match Text.words line with
  | [] => fail .index
  | first :: rest =>
    if first == "qubit" then (if rest.isEmpty then fail .index else .ok "")
    else match Fields.get? ops line with
      | some op => do instructionText (← op.item (.text "instruction"))
      | none => do pairText ops line first rest (← orFail .unset pair)

/-- The texts of lines; `pair` are the first two words of the last line before them that had as many. -/
def lineTexts (ops : Fields) (pair : Option String) : List String → Attempt (List String)
  | [] => .ok []
  | line :: rest => do
    let pair := (pair? line).or pair
    let text ← lineText ops pair line
    return text :: (← lineTexts ops pair rest)

def expandableLines (text : String) : List String :=
  (Text.fileLines text).filterMap fun l =>
    let s := trimLine (beforeMark "map".toList (beforeMark ['#'] l.toList))
    if s.isEmpty then none else some (String.ofList s)

def expand (ops : Fields) (text : String) : Attempt String := do
  return opening ++ String.join (← lineTexts ops none (expandableLines text)) ++ closing

def usedOperations (text : String) : Attempt (List String) := do
  let ops ← (Text.fileLines text).foldlM (fun (acc : List String) l => do
    let s := trimLine (beforeMark ['#'] l.toList)
    if s.isEmpty then return acc
    let line := String.ofList s
    let elts := Text.words line
    let first ← orFail .index elts[0]?
    if first == "qubit" then
      let _ ← orFail .index elts[1]?
      return acc
    else if acc.contains line then return acc
    else return line :: acc) []
  return ops.reverse

end QubitLab.Qasm
