import QubitLab.Qumis.Encoding
import QubitLab.Text.Search

/-!
# Assembling a program

A comment starts at `#`. A line is a label, a colon and an instruction, or an instruction alone; an
instruction is a mnemonic and operands between blanks, and punctuation other than the minus sign is
dropped at both ends of each of them. Lines are read in lower case, and lines without content are left out.

`parse` reads the items of a source text, `expand` runs the passes, `assemble` gives the words and
the addresses of the labels, and `listing` the text of the expanded program.
-/

namespace QubitLab.Qumis

/-!
## Instruction texts

A trigger on one of seven channels, and durations in clock cycles.
-/

/-- The place of a channel among seven; channels below 1 count from the end. -/
def channelPlace? (channel : Int) : Option Nat :=
  let i := if channel < 1 then channel + 6 else channel - 1
  if 0 ≤ i ∧ i < 7 then some i.toNat else none

def triggerMask? (channel : Int) : Option (List Char) :=
  (channelPlace? channel).map fun i => (List.replicate 7 '0').set i '1'

def addMasks (a b : Int) : List Char := binaryDigits 7 (a + b)

def maskNumber (ds : List Char) : Int := ds.foldl (fun n c => 2 * n + if c == '1' then 1 else 0) 0

def triggerText (mask : List Char) (duration : String) : String :=
  "trigger " ++ String.ofList mask ++ ", " ++ duration ++ " \nwait " ++ duration ++ "\n"

def clocks (duration rate : Number) : Attempt Int := do (← duration.mul rate).truncate

def wholePeriods (duration period : Number) : Attempt Number := do
  let n ← duration.floorDiv period
  let n := if Number.lt n (.int 1) then .int 1 else n
  n.mul period

def nextPeriod (duration period : Number) : Attempt Number := do
  let n ← duration.floorDiv period
  (← n.add (.int 1)).mul period

/-! ## Reading assembly source -/

def isMargin (c : Char) : Bool := c == ' ' || c == '\t' || c == '\n' || c == '\r'

def dropComment (line : List Char) : List Char := Chars.trimBy isMargin (line.takeWhile (· != '#'))

def isPunctuation (c : Char) : Bool :=
  let n := c.toNat
  ((33 ≤ n && n ≤ 47) || (58 ≤ n && n ≤ 64) || (91 ≤ n && n ≤ 96) || (123 ≤ n && n ≤ 126)) && c != '-'

def instructionWords (s : List Char) : List String :=
  (Chars.words s).map fun w => String.ofList (Chars.trimBy isPunctuation w)

def Item.ofLine (line : List Char) : Item :=
  let head := line.takeWhile (· != ':')
  let (label, instr) := match line.dropWhile (· != ':') with
    | _ :: tail => (String.ofList (Chars.trim head), tail)
    | [] => ("", head)
  match instructionWords instr with
  | [] => ⟨label, "", []⟩
  | name :: ops => ⟨label, name, ops.map .word⟩

def validLines (text : String) : List String :=
  (Chars.fileLines text.toList).filterMap fun line =>
    let s := dropComment line
    if s.isEmpty then none else some (String.ofList (Chars.lower s))

/-! ## Assembling a program -/

def parse (cfg : Settings) (lines : List String) : Except AsmError (List Item) :=
  align cfg.file (lines.map fun l => Item.ofLine l.toList)

/-- The passes from parsed items to items that each become one word, branch targets still by name. -/
def expand (cfg : Settings) (items : List Item) : Except AsmError (List Item) := do
  let looped ← align cfg.file (items ++ endLoop)
  let cleared ← align cfg.file (← clearZeroWaits looped)
  let aligned ← align cfg.file cleared
  let labelled := if cfg.nopAfterLabel then nopsAfterLabels aligned else aligned
  let branched := if cfg.nopAfterBranch then nopsAfterBranches cfg.branchNops labelled else labelled
  let padded ← align cfg.file branched
  let moved ← align cfg.file (← expandMoves padded)
  let split ← splitWaits cfg.maxWait moved
  mergeWaits cfg.maxWait split

structure Image where
  words : List Int
  labels : LabelTable

def assemble (cfg : Settings) (text : String) : Except AsmError Image := do
  let items ← parse cfg (validLines text)
  let expanded ← expand cfg items
  let labels ← labelTable cfg.file expanded
  let resolved ← resolveBranches labels expanded
  let words ← resolved.mapM (wordOf cfg)
  return ⟨words, labels⟩

def Item.text (x : Item) : String :=
  (if x.label = "" then "" else x.label ++ ":") ++ x.name ++
    String.join (x.operands.map fun op => ", " ++ op.text)

def listing (cfg : Settings) (text : String) : Except AsmError (List String) := do
  let expanded ← expand cfg (← parse cfg (validLines text))
  let _ ← labelTable cfg.file expanded
  return expanded.map Item.text

end QubitLab.Qumis
