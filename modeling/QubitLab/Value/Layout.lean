import QubitLab.Value.Rectangle
import QubitLab.Value.Tree

/-!
# The layout of arrays

Arrays are cut along their first axis, and turned so that the axes come in reverse order.
-/

namespace QubitLab

namespace Tensor

variable {α : Type}

def volume (shape : List Nat) : Nat := shape.foldl (· * ·) 1

def parts (t : Tensor α) : List (Tensor α) :=
  match t.shape with
  | [] => []
  | n :: r =>
    let size := volume r
    (List.range n).map fun i => ⟨r, t.data.extract (i * size) (i * size + size)⟩

def place (shape position : List Nat) : Nat := (shape.zip position).foldl (fun acc (n, i) => acc * n + i) 0

def positionAt (shape : List Nat) (k : Nat) : List Nat :=
  (shape.foldr (fun n (acc, k) => ((k % n) :: acc, k / n)) (([] : List Nat), k)).1

def transposed [Inhabited α] (t : Tensor α) : Tensor α :=
  let shape := t.shape.reverse
  ⟨shape, (Array.range t.data.size).map fun k => t.data.getD (place t.shape (positionAt shape k).reverse) default⟩

end Tensor

namespace Value

/-- A number or array as an array, with numbers as arrays without axes; lists become arrays. -/
def asTensor (v : Value) : Attempt Value :=
  match v with
  | .bool b => .ok (.ints ⟨[], #[if b then 1 else 0]⟩)
  | .int n => .ok (.ints ⟨[], #[n]⟩)
  | .real x => .ok (.reals ⟨[], #[x]⟩)
  | .bools t => .ok (.ints (t.map fun b => if b then 1 else 0))
  | .ints _ | .reals _ => .ok v
  | .list _ | .tuple _ => do
    match ← v.toArray with
    | .bools t => return .ints (t.map fun b => if b then 1 else 0)
    | .ints t => return .ints t
    | .reals t => return .reals t
    | _ => fail .sort
  | _ => fail .sort

def realOf (n : Int) : Float := (Number.int n).toFloatInf

def realTensor (v : Value) : Attempt (Tensor Float) := do
  match ← v.asTensor with
  | .ints t => return t.map realOf
  | .reals t => return t
  | _ => fail .sort

def realList (v : Value) : Attempt (List Float) := do return (← v.realTensor).data.toList

/-- Some of the parts of an array or of the items of a list, from one position to another. -/
def cut (start stop : Nat) : Value → Attempt Value
  | .list xs => .ok (.list ((xs.take stop).drop start))
  | .tuple xs => .ok (.tuple ((xs.take stop).drop start))
  | .text s => .ok (.text (String.ofList ((s.toList.take stop).drop start)))
  | v =>
    let rows {α : Type} (t : Tensor α) : Tensor α :=
      let r := t.shape.drop 1
      let size := Tensor.volume r
      let stop := min stop (t.shape.headD 0)
      ⟨(stop - start) :: r, t.data.extract (start * size) (stop * size)⟩
    match v with
    | .ints t => .ok (.ints (rows t))
    | .reals t => .ok (.reals (rows t))
    | .bools t => .ok (.bools (rows t))
    | _ => fail .sort

def length : Value → Attempt Nat
  | .list xs | .tuple xs => .ok xs.length
  | .text s => .ok s.length
  | .bytes bs => .ok bs.length
  | .record fs => .ok fs.length
  | .ints ⟨n :: _, _⟩ | .reals ⟨n :: _, _⟩ | .bools ⟨n :: _, _⟩ => .ok n
  | _ => fail .sort

end Value

end QubitLab
