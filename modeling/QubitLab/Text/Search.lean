import QubitLab.Text.Letter

/-!
# Finding and replacing pieces of a text

Pieces are matched from the left and do not overlap. The functions work on lists of characters; the
last section lifts the common ones to `String`.
-/

namespace QubitLab.Chars

/-- What follows `p`, if the text starts with it. -/
def afterStart? : List Char → List Char → Option (List Char)
  | [], s => some s
  | _ :: _, [] => none
  | a :: p, c :: s => if a == c then afterStart? p s else none

def startsWith (p s : List Char) : Bool := (afterStart? p s).isSome

def cutAt? (p : List Char) : List Char → Option (List Char × List Char)
  | [] => if p.isEmpty then some ([], []) else none
  | c :: s =>
    match afterStart? p (c :: s) with
    | some rest => some ([], rest)
    | none => (cutAt? p s).map fun (a, b) => (c :: a, b)

def contains (p s : List Char) : Bool := (cutAt? p s).isSome

theorem afterStart?_length {p s r : List Char} (h : afterStart? p s = some r) :
    r.length + p.length = s.length := by
  induction p generalizing s with
  | nil => simp [afterStart?] at h; simp [h]
  | cons a p ih =>
    cases s with
    | nil => simp [afterStart?] at h
    | cons c s =>
      simp only [afterStart?] at h
      split at h
      · have := ih h; simp; omega
      · simp at h

/-- The pieces between the occurrences of a non-empty `p`. -/
def splitOnAux (p : List Char) (hp : p ≠ []) (current : List Char) (s : List Char) :
    List (List Char) :=
  match s with
  | [] => [current.reverse]
  | c :: t =>
    match _h : afterStart? p (c :: t) with
    | some rest => current.reverse :: splitOnAux p hp [] rest
    | none => splitOnAux p hp (c :: current) t
termination_by s.length
decreasing_by
  · have := afterStart?_length _h
    have : 0 < p.length := List.length_pos_iff.2 hp
    simp at *; omega
  · simp

@[inherit_doc splitOnAux]
def splitOn (p s : List Char) : List (List Char) :=
  if hp : p ≠ [] then splitOnAux p hp [] s else [s]

def replace (p q s : List Char) : List Char := List.intercalate q (splitOn p s)

def find? (p s : List Char) : Option Nat := (cutAt? p s).map fun (a, _) => a.length

/-! ## On strings -/

end QubitLab.Chars

namespace QubitLab

@[inline] def onChars (f : List Char → List Char) (s : String) : String := String.ofList (f s.toList)

namespace Text

def trim (s : String) : String := onChars Chars.trim s

def words (s : String) : List String := (Chars.words s.toList).map String.ofList

def fileLines (s : String) : List String := (Chars.fileLines s.toList).map String.ofList

def splitOn (sep s : String) : List String := (Chars.splitOn sep.toList s.toList).map String.ofList

def replace (p q s : String) : String := onChars (Chars.replace p.toList q.toList) s

def startsWith (p s : String) : Bool := Chars.startsWith p.toList s.toList

def contains (p s : String) : Bool := Chars.contains p.toList s.toList

def join (sep : String) (xs : List String) : String := String.intercalate sep xs

def padLeft (c : Char) (width : Nat) (s : String) : String :=
  String.ofList (List.replicate (width - s.length) c ++ s.toList)

def padRight (c : Char) (width : Nat) (s : String) : String :=
  String.ofList (s.toList ++ List.replicate (width - s.length) c)

end Text

end QubitLab

/-!
## File names

A path is a text with parts between slashes; the extension of its last part begins at the last dot that is not
among the dots it starts with.
-/

namespace QubitLab.Text

def lastPart (s : String) : String := String.ofList ((s.toList.reverse.takeWhile (· != '/')).reverse)

/-- A path without its extension, and the extension with its dot. -/
def splitExtension (s : String) : String × String :=
  let cs := s.toList
  let name := (lastPart s).toList
  let dots := name.takeWhile (· == '.')
  let body := name.drop dots.length
  let ext := (body.reverse.takeWhile (· != '.')).reverse
  if ext.length = body.length then (s, "")
  else
    let n := cs.length - ext.length - 1
    (String.ofList (cs.take n), String.ofList (cs.drop n))

end QubitLab.Text
