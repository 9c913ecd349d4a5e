import QubitLab.Text.Search
import QubitLab.Value.Layout

/-!
# Measurement files

A measurement file is a tree of groups, which hold other groups and datasets; groups and datasets have attributes.
Children and attributes stand in the order of their names. `Node.write` puts a record into a group: numbers and texts
become attributes, arrays and lists of one sort datasets, and records and mixed lists groups. `Node.readInto` gives the
record back.
-/

namespace QubitLab.Archive

inductive Node
  | group (attrs : Fields) (children : List (String × Node))
  | dataset (data : Value) (attrs : Fields)
  deriving Inhabited

def place {α : Type} (k : String) (x : α) : List (String × α) → List (String × α)
  | [] => [(k, x)]
  | (k', x') :: r => if k == k' then (k, x) :: r else if k < k' then (k, x) :: (k', x') :: r else (k', x') :: place k x r

namespace Node

def empty : Node := .group [] []

def attrs : Node → Fields
  | .group as _ => as
  | .dataset _ as => as

def children : Node → List (String × Node)
  | .group _ cs => cs
  | .dataset _ _ => []

def setAttr (k : String) (v : Value) : Node → Node
  | .group as cs => .group (place k v as) cs
  | .dataset d as => .dataset d (place k v as)

/-- Adds a node at the end of a path below a group; groups on the way are made, and a node that is there already is a
fault. -/
def insert (new : Node) : List String → Node → Attempt Node
  | [], _ => fail .value
  | _, .dataset _ _ => fail .member
  | [k], .group as cs => if (cs.lookup k).isSome then fail .value else return .group as (place k new cs)
  | k :: ks, .group as cs => do return .group as (place k (← insert new ks ((cs.lookup k).getD empty)) cs)

end Node

/-- The names in a path; a point stands for the group itself. -/
def pathNames (path : String) : List String :=
  ((Chars.splitBy (· == '/') path.toList).filter fun s => !s.isEmpty && s != ['.']).map String.ofList

/-! ## Records -/

def nullMark : String := "NoneType:__None__"

def emptyMark : String := "NoneType:__emptylist__"

inductive EntrySort
  | whole
  | truth
  | real
  | text
  | record
  | other (tag : Nat)
  deriving DecidableEq

def EntrySort.of : Value → EntrySort
  | .int _ => .whole
  | .bool _ => .truth
  | .real _ => .real
  | .text _ => .text
  | .record _ => .record
  | .null => .other 0
  | .list _ => .other 1
  | .tuple _ => .other 2
  | .complex _ => .other 3
  | .bytes _ => .other 4
  | _ => .other 5

def isUniform : List Value → Bool
  | [] => true
  | v :: r =>
    let s := EntrySort.of v
    r.all fun w => EntrySort.of w == s || (s == .whole && EntrySort.of w == .truth)

def isSigned (n : Int) : Bool := -9223372036854775808 ≤ n && n < 9223372036854775808

def isLarge (n : Int) : Bool := 9223372036854775808 ≤ n && n < 18446744073709551616

/-- The array of some whole numbers; of doubles if no kind of whole numbers has them all. -/
def wholeArray (ns : List Int) : Attempt Value :=
  if ns.all isSigned || ns.all isLarge then .ok (.ofIntArray ns.toArray)
  else if ns.all fun n => isSigned n || isLarge n then
    .ok (.ofReals (ns.map fun n => (Number.int n).toFloatInf).toArray)
  else fail .sort

inductive Held
  | attr (v : Value)
  | child (n : Node)
  | nothing

def Held.putInto (k : String) (n : Node) : Held → Attempt Node
  | .attr v => return n.setAttr k v
  | .child c => Node.insert c (pathNames k) n
  | .nothing => return n

def Held.array (data : Value) : Held := .child (.dataset data [("list_type", .text "array")])

def heldUniform (xs : List Value) : Attempt Held :=
  match xs with
  | .bool _ :: _ => return .array (.bools (.ofArray (xs.map Value.truth).toArray))
  | .int _ :: _ => do return .array (← wholeArray (xs.filterMap Value.int?))
  | .real _ :: _ => return .array (.ofReals (xs.filterMap Value.toFloat?).toArray)
  | .text _ :: _ => return .child (.dataset (.list (xs.map fun x => .list [x])) [("list_type", .text "str")])
  | _ => return .attr (.text (Value.list xs).display)

def listGroup (tag : String) (length : Nat) : Node :=
  .group [("list_length", .int length), ("list_type", .text tag)] []

def entryName (i : Nat) : String := "list_idx_" ++ Decimal.natText i

mutual

def held : Value → Attempt Held
  | .null => return .attr (.text nullMark)
  | .bool b => return .attr (.bool b)
  | .int n => return if isSigned n || isLarge n then .attr (.int n) else .nothing
  | .real x => return .attr (.real x)
  | .text s => return .attr (.text s)
  | .complex z => return .attr (.text (Value.complex z).display)
  | .bytes bs => return .attr (.text (Value.bytes bs).display)
  | .record fs => do return .child (← Node.writeFields fs .empty)
  | .tuple xs =>
    if xs.isEmpty then return .attr (.text emptyMark)
    else do return .child (← Node.writeEntries xs 0 (listGroup "generic_tuple" xs.length))
  | .list xs =>
    if xs.isEmpty then return .attr (.text emptyMark)
    else if isUniform xs && !(xs.any fun x => EntrySort.of x == .record) then heldUniform xs
    else do return .child (← Node.writeEntries xs 0 (listGroup "generic_list" xs.length))
  | v => return .child (.dataset v [])

def Node.writeFields : Fields → Node → Attempt Node
  | [], n => return n
  | (k, v) :: r, n => do Node.writeFields r (← (← held v).putInto k n)

def Node.writeEntries : List Value → Nat → Node → Attempt Node
  | [], _, n => return n
  | v :: r, i, n => do Node.writeEntries r (i + 1) (← (← held v).putInto (entryName i) n)

end

def Node.write (fs : Fields) (n : Node) : Attempt Node := Node.writeFields fs n

def readAttr : Value → Value
  | .text s => if s == nullMark then .null else if s == emptyMark then .list [] else .text s
  | v => v

def firstOfRows : Value → Value
  | .list rows => .list (rows.map fun row => match row with
    | .list (x :: _) => x
    | v => v)
  | v => v

def readDataset (data : Value) (attrs : Fields) : Value :=
  match attrs.get? "list_type" with
  | none => data
  | some (.text "str") => firstOfRows data
  | some _ => .list ((data.each).toOption.getD [])

def readEntries (fs : Fields) : Attempt (List Value) := do
  let n ← orFail .sort ((← fs.get "list_length").int?)
  (List.range n.toNat).mapM fun i => fs.get (entryName i)

def assembled (attrs fs : Fields) : Attempt Value := do
  match attrs.get? "list_type" with
  | none => return .record fs
  | some (.text "generic_list") => return .list (← readEntries fs)
  | some (.text "generic_tuple") => return .tuple (← readEntries fs)
  | some v => failWith .unsupported ("cannot read \"list_type\":\"" ++ v.display ++ "\"")

/-- A key as it is read back: a whole number is written in its plain form. -/
def readKey (k : String) : String := ((Decimal.readInt? 10 k.toList).map fun n => (Value.int n).display).getD k

mutual

def Node.readInto (start : Fields) : Node → Attempt Value
  | .dataset data attrs => return readDataset data attrs
  | .group attrs children => do
    let fs ← Node.readChildren start children
    assembled attrs (Fields.putAll (attrs.map fun x => (x.1, readAttr x.2)) fs)

def Node.readChildren (start : Fields) : List (String × Node) → Attempt Fields
  | [] => return start
  | (k, n) :: r => do Node.readChildren (Fields.put (readKey k) (← Node.readInto [] n) start) r

end

end QubitLab.Archive
