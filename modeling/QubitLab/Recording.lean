import QubitLab.Fault

/-!
# Recording

How measurement control fills its table. The rows of the table are the points of a sweep: first the coordinates of the
point, then the values that the detector gave. Points are measured in rounds, and the values of a round are averaged with
those of the rounds before. One counter, the number of points that have been measured, gives the row of the next data and
the round they belong to.

A soft measurement (`measureSoft`) sets the parameters of each point and asks the detector for its values. A hard
measurement (`measureHard`) takes the points in chunks, as long as the detector gives them, until all rounds are done.

The measurements use only the arithmetic of the values, and do what they do through an `Apparatus`: they run in a session
with its instruments, and with an apparatus of lists.
-/

namespace QubitLab.Recording

/-! ## Tables -/

structure Table (α : Type) where
  width : Nat
  rows : List (List α)

section

variable {α β : Type}

/-- What a source gives to each of `n` places: an item for each place, or one item for all of them. -/
def spread? (n : Nat) : List β → Option (List β)
  | [x] => some (List.replicate n x)
  | xs => if xs.length = n then some xs else none

def change (f : β → α → α) : (start : Nat) → List β → List α → List α
  | _, _, [] => []
  | s + 1, xs, y :: ys => y :: change f s xs ys
  | 0, [], y :: ys => y :: ys
  | 0, x :: xs, y :: ys => f x y :: change f 0 xs ys

inductive Points (α : Type)
  | line (xs : List α)
  | plane (columns : Nat) (rows : List (List α))

namespace Points

def columns : Points α → Nat
  | .line _ => 1
  | .plane c _ => c

def rows : Points α → List (List α)
  | .line xs => xs.map fun x => [x]
  | .plane _ rows => rows

def across : Points α → Nat
  | .line xs => xs.length
  | .plane c _ => c

def tile (xs ys : List α) : List (List α) := ys.flatMap fun y => xs.map fun x => [x, y]

end Points

inductive Answer (α : Type)
  | number (x : α)
  | list (xs : List α)
  | grid (columns : Nat) (rows : List (List α))

namespace Answer

def shape : Answer α → List Nat
  | .number _ => []
  | .list xs => [xs.length]
  | .grid c rows => [rows.length, c]

def entries : Answer α → List α
  | .number x => [x]
  | .list xs => xs
  | .grid _ rows => rows.flatten

/-- The number of points that an answer is about. A list with an entry for each value name is about one point. -/
def count (names : Nat) (isSoft : Bool) : List Nat → Nat
  | [] => 1
  | [n] => if n = names then 1 else n
  | n :: m :: _ => if isSoft then m else n

def chunk (columns count : Nat) : Answer α → Attempt (List (List α))
  | .number x => return [List.replicate columns x]
  | .list xs => orFail .sort (spread? count (xs.map fun x => [x]))
  | .grid _ rows => rows.mapM fun r => orFail (if columns = 1 then .sort else .value) (spread? columns r)

end Answer

namespace Table

/-- Writes coordinates into all rows from `start` on; none if they are not as many as the rows. -/
def write? (t : Table α) (start : Nat) (points : List (List α)) : Option (Table α) :=
  (spread? (t.rows.length - start) points).map fun ps =>
    { t with rows := change (change (fun x _ => x) 0) start ps t.rows }

def stamp (t : Table α) (sweeps start count : Nat) (p : Points α) : Attempt (Table α) :=
  if p.across = count then
    if p.columns = 1 then orFail .sort (t.write? 0 p.rows) else fail .sort
  else
    -- Points that do not fit the rows are left out.
    return if p.columns = sweeps then (t.write? start ((p.rows.drop start).take count)).getD t else t

variable [NatCast α]

def extended (t : Table α) (count : Nat) : Table α :=
  { t with rows := t.rows ++ List.replicate (count - t.rows.length) (List.replicate t.width ((0 : Nat) : α)) }

end Table

variable [Add α] [Mul α] [Div α] [NatCast α]

def averaged (k : Nat) (new old : α) : α := (new + old * (k : α)) / ((k + 1 : Nat) : α)

def Table.average (t : Table α) (round start column : Nat) (news : List (List α)) : Table α :=
  { t with rows := change (change (averaged round) column) start news t.rows }

def percentDone (acquired points rounds : Nat) : Attempt α :=
  if points * rounds = 0 then fail .zeroDivision
  else return (acquired : α) / ((points * rounds : Nat) : α) * ((100 : Nat) : α)

end

/-! ## The apparatus -/

structure Cell (m : Type → Type) (β : Type) where
  get : m β
  set : β → m Unit

structure Apparatus (m : Type → Type) (α : Type) where
  acquired : Cell m Nat
  round : Cell m Nat
  iteration : Cell m Nat
  table : Cell m (Table α)
  isSearch : m Bool
  pointCount : m Nat
  rounds : m Nat
  sweeps : m Nat
  names : m Nat
  isSoft : m Bool
  display : m Unit
  report : m Unit

/-- What a soft measurement works with: points as they are given (`ξ`), their coordinates (`χ`), and the answers of the
detector, which are handed on (`ρ`). -/
structure SoftApparatus (m : Type → Type) (ρ ξ χ α : Type) extends Apparatus m α where
  points : m (List ξ)
  coordinates : ξ → m (List χ)
  last : Cell m (List χ)
  isSame : χ → χ → m Bool
  /-- Gives a coordinate of a point to its sweep function; the answer is the value that was set, if it is known. -/
  set : ξ → Nat → χ → m (Option χ)
  /-- Lets a refused value pass, where that is wanted. -/
  clipped : m (Option χ) → m (Option χ)
  numbers : List χ → m (List α)
  acquire : m (ρ × Answer α)

structure HardApparatus (m : Type → Type) (ρ α : Type) extends Apparatus m α where
  points : m (Points α)
  aim : Nat → m Unit
  values : m (ρ × Answer α)

variable {m : Type → Type} [Monad m] [MonadLiftT (Except Fault) m] {ρ ξ χ α : Type}

namespace Apparatus

variable (a : Apparatus m α)

/-- The row of the next data; keeps the round they belong to. -/
def nextRow : m Nat := do
  let total ← a.acquired.get
  if ← a.isSearch then
    a.round.set 0
    return total
  let n ← a.pointCount
  if n = 0 then liftM (fail .zeroDivision : Attempt Unit)
  a.round.set (total / n)
  return total % n

def advance (count : Nat) : m Nat := do
  let start ← a.nextRow
  a.acquired.set ((← a.acquired.get) + count)
  return start

def conclude : m Unit := do
  a.display
  a.iteration.set ((← a.iteration.get) + 1)
  a.report

end Apparatus

variable [Add α] [Mul α] [Div α] [NatCast α]

/-! ## Soft measurements -/

namespace SoftApparatus

variable (a : SoftApparatus m ρ ξ χ α)

/-- Sets parameter number `k`, unless it has the value already. -/
def setOne (x : ξ) (k : Nat) (y : χ) : (before : Option χ) → m (Option χ)
  | none => a.set x k y
  | some z => do if ← a.isSame y z then return none else a.clipped (a.set x k y)

/-- Sets the parameters from number `k` on, the last one first. -/
def setFrom (x : ξ) (last : List χ) (k : Nat) : List χ → m (List χ)
  | [] => return []
  | y :: ys => do
    let rest ← setFrom x last (k + 1) ys
    let known ← a.setOne x k y last[k]?
    return known.getD y :: rest

def before : m (List χ) := do if (← a.iteration.get) = 0 then return [] else a.last.get

def measurePoint (x : ξ) : m ρ := do
  let coordinates ← a.coordinates x
  let point ← a.setFrom x (← a.before) 0 coordinates
  a.last.set point
  let (answer, values) ← a.acquire
  let count := Answer.count (← a.names) (← a.isSoft) values.shape
  let start ← a.advance count
  let t := (← a.table.get).extended (start + count)
  let fresh ← liftM (orFail .value (spread? t.width ((← a.numbers point) ++ values.entries)))
  a.table.set (t.average (← a.round.get) start 0 (List.replicate count fresh))
  a.conclude
  return answer

def measureSoft : m Unit := do
  (List.range (← a.rounds)).forM fun round => do
    a.round.set round
    (← a.points).forM fun x => discard (a.measurePoint x)

end SoftApparatus

/-! ## Hard measurements -/

namespace HardApparatus

variable (a : HardApparatus m ρ α)

def measureChunk : m ρ := do
  let (answer, values) ← a.values
  let count := Answer.count (← a.names) (← a.isSoft) values.shape
  let start ← a.advance count
  let sweeps ← a.sweeps
  let t := (← a.table.get).extended (start + count)
  let news ← liftM (values.chunk (t.width - sweeps) count)
  let t := t.average (← a.round.get) start sweeps news
  match t.stamp sweeps start count (← a.points) with
  | .ok stamped => a.table.set stamped
  | .error e =>
    a.table.set t
    liftM (.error e : Attempt Unit)
  a.conclude
  return answer

def measureHard [LT α] [DecidableLT α] : (fuel : Nat) → m Unit
  | 0 => return
  | fuel + 1 => do
    let done : α ← liftM (percentDone (← a.acquired.get) (← a.pointCount) (← a.rounds))
    if done < ((100 : Nat) : α) then
      a.aim (← a.nextRow)
      discard a.measureChunk
      measureHard fuel

end HardApparatus

end QubitLab.Recording
