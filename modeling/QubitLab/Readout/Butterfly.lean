import QubitLab.Matrix.Elimination
import QubitLab.Statistics.Basic

/-!
# Butterfly experiments

Two measurements after each other tell how often the declared outcome is right and how often measuring changes
the state. `binRows?` counts the pairs of outcomes for one prepared state; `solve?` gets from the two binnings the
probabilities of declaring an outcome and leaving a state behind.

Histograms as flat lists, outliers, and generations of points.
-/

namespace QubitLab.Readout

/-! ## Butterfly experiments -/

/-- What one prepared state gives: the part declared 0 and 1, and the parts of the four pairs of outcomes. -/
structure Binning (α : Type) where
  declared0 : α
  declared1 : α
  p00 : α
  p01 : α
  p10 : α
  p11 : α

/-- The two first outcomes of a shot; a shot with one outcome counts it twice. -/
def firstTwo {β : Type} : List β → Option (β × β)
  | [] => none
  | [s] => some (s, s)
  | s :: t :: _ => some (s, t)

variable {α : Type} [Zero α] [One α] [Add α] [Sub α] [Mul α] [Div α] [NatCast α]

def part {β : Type} (p : β → Bool) (shots : List β) : α := (shots.countP p : α) / (shots.length : α)

/-- Counts the outcomes of shots; outcomes are +1 for state 0 and -1 for state 1. -/
def binned {β : Type} (isPlus isMinus : β → Bool) (shots : List (β × β)) : Binning α :=
  let zero : α := part (fun s => isPlus s.1) shots
  { declared0 := zero
    declared1 := 1 - zero
    p00 := part (fun s => isPlus s.1 && isPlus s.2) shots
    p01 := part (fun s => isPlus s.1 && isMinus s.2) shots
    p10 := part (fun s => isMinus s.1 && isPlus s.2) shots
    p11 := part (fun s => isMinus s.1 && isMinus s.2) shots }

def binRows? {β : Type} (isPlus isMinus : β → Bool) (rows : List (List β)) : Option (Binning α) :=
  (rows.mapM firstTwo).map (binned isPlus isMinus)

structure Transitions (α : Type) where
  e00 : α
  e01 : α
  e10 : α
  e11 : α

def applyPair (m : List (List α)) (x y : α) : α × α :=
  match Matrix.apply m [x, y] with
  | a :: b :: _ => (a, b)
  | _ => (0, 0)

def solve? [BEq α] (prefer : α → α → Bool) (zero one : Binning α) : Option (Transitions α × Transitions α) := do
  let m ← Matrix.inverse? prefer [[zero.declared0, one.declared0], [zero.declared1, one.declared1]]
  let (e00, e01) := applyPair m zero.p00 zero.p01
  let (e10, e11) := applyPair m zero.p10 zero.p11
  let m' ← Matrix.inverse? prefer [[one.declared0, zero.declared0], [one.declared1, zero.declared1]]
  let (f01, f00) := applyPair m' one.p00 one.p01
  let (f11, f10) := applyPair m' one.p10 one.p11
  return (⟨e00, e01, e10, e11⟩, ⟨f00, f01, f10, f11⟩)

/-! ## Histograms -/

structure FlatHistogram (β α : Type) where
  counts : List β
  xs : List α
  ys : List α

def binCentres? {α : Type} [Add α] [Sub α] [Div α] (two : α) : List α → Option (List α)
  | e0 :: e1 :: r => some ((e0 :: e1 :: r).dropLast.map (· + (e1 - e0) / two))
  | _ => none

/-- The counts column by column; the x centres are repeated as a whole, as often as there are x bins, and each
y centre as often as there are y bins. -/
def flatHistogram? {β α : Type} [Zero β] [Add α] [Sub α] [Div α] (two : α) (width : Nat) (rows : List (List β))
    (xedges yedges : List α) : Option (FlatHistogram β α) := do
  let xs ← binCentres? two xedges
  let ys ← binCentres? two yedges
  return { counts := (List.range width).flatMap fun j => rows.map (·.getD j 0)
           xs := (List.replicate xs.length xs).flatten
           ys := Signal.held ys.length ys }

/-! ## Outliers -/

/-- Marks the entries that jump by more than a threshold from the entry before, and those that are no number. -/
def jumps (threshold : Float) (xs : List Float) : List Bool :=
  let changes := (0 : Float) :: (xs.drop 1).zipWith (· - ·) xs
  xs.zipWith (fun x d => d.abs > threshold || x.isNaN) changes

/-! ## Generations -/

def generations {β : Type} (xs : List β) : Int → List Int → List (List β)
  | _, [] => []
  | from?, i :: r => Signal.between from? i xs :: generations xs i r

end QubitLab.Readout
