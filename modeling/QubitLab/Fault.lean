/-!
# Faults

A fault is a reason why an operation has no result: its kind, and a message when the operation itself
words one. Parts of the library with a closed set of causes have an error type of their own and map it
to a fault at their boundary.
-/

namespace QubitLab

inductive FaultKind
  | value
  | sort
  | key
  | index
  | member
  | zeroDivision
  | overflow
  | assertion
  /-- Something that the operation does not support. -/
  | unsupported
  | unset
  | unknownName
  /-- A program text with an error, and the line of it. -/
  | malformed (line : Option Nat)
  | general
  | runtime
  /-- A matrix that has no inverse, or a system that has no solution. -/
  | linearAlgebra
  | noFile
  | system
  | isDirectory
  | decoding
  | jsonText
  | axis
  /-- Array operands whose element types do not go together. -/
  | elementType
  /-- Use of something that is no longer supported. -/
  | deprecated
  | memory
  | warning
  | lookup
  | moduleMissing
  | exhausted
  deriving Repr, DecidableEq

structure Fault where
  kind : FaultKind
  message : Option String := none
  deriving Repr, DecidableEq

namespace Fault

def of (k : FaultKind) : Fault := ⟨k, none⟩

def because (k : FaultKind) (m : String) : Fault := ⟨k, some m⟩

end Fault

abbrev Attempt (α : Type) := Except Fault α

def fail {α : Type} (k : FaultKind) : Attempt α := .error (.of k)

def failWith {α : Type} (k : FaultKind) (m : String) : Attempt α := .error (.because k m)

def orFail {α : Type} (k : FaultKind) : Option α → Attempt α
  | some a => .ok a
  | none => fail k

def orFailWith {α : Type} (k : FaultKind) (m : String) : Option α → Attempt α
  | some a => .ok a
  | none => failWith k m

end QubitLab
