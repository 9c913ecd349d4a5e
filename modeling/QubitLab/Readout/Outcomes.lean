/-!
# Series of outcomes

A series lists the outcomes of repeated measurements. Outcomes are only compared with each other, so they can
be of any type. `runLengths?` gives the lengths of the stretches of equal outcomes, the last one left out
because it may go on; `splitRuns?` does so for the outcomes +1 and -1 apart, with a +1 in front of the series.
-/

namespace QubitLab.Readout

variable {α : Type} [BEq α]

/-! ## First error -/

def firstChange? : List α → Option Nat
  | [] => none
  | s :: r => (s :: r).findIdx? fun t => !(t == s)

inductive Ending
  | unknown
  | double
  | single
  deriving DecidableEq

def Ending.text : Ending → String
  | .unknown => "unknown"
  | .double => "double event"
  | .single => "single event"

def endingAt (xs : List α) (i : Nat) : Ending :=
  match xs[i]?, xs[i + 1]? with
  | some s, some t => if t == s then .double else .single
  | _, _ => .unknown

/-! ## Runs -/

/-- The lengths of the runs that end, given the outcome before and how often it stood so far. -/
def runLengthsFrom (last : α) (count : Nat) : List α → List Nat
  | [] => []
  | s :: r => if s == last then runLengthsFrom s (count + 1) r else count :: runLengthsFrom s 1 r

def runLengths? : List α → Option (List Nat)
  | [] => none
  | s :: r => some (runLengthsFrom s 0 (s :: r))

/-- The lengths of the runs of -1 and of the runs of +1, as far as they end; none for any other outcome that
starts a run. -/
def splitRunsFrom (one minusOne last : α) (count : Nat) : List α → Option (List Nat × List Nat)
  | [] => some ([], [])
  | s :: r =>
    if s == last then splitRunsFrom one minusOne s (count + 1) r
    else if s == one then
      (splitRunsFrom one minusOne s 1 r).map fun (down, up) => (count :: down, up)
    else if s == minusOne then
      (splitRunsFrom one minusOne s 1 r).map fun (down, up) => (down, count :: up)
    else none

def splitRuns? (one minusOne : α) (xs : List α) : Option (List Nat × List Nat) := splitRunsFrom one minusOne one 1 xs

/-! ## Changes -/

def repeats : List α → List Bool
  | [] => []
  | [_] => []
  | s :: t :: r => (t == s) :: repeats (t :: r)

structure Counts where
  changed : Nat := 0
  repeated : Nat := 0
  doubled : Nat := 0
  ones : Nat := 0
  others : Nat := 0

def countErrors (one : α) : List α → Counts
  | [] => {}
  | s :: r =>
    let c := countErrors one r
    let c := if s == one then { c with ones := c.ones + 1 } else { c with others := c.others + 1 }
    match r with
    | [] => c
    | t :: u =>
      if s == t then
        let c := { c with repeated := c.repeated + 1 }
        match u with
        | v :: _ => if s == v then { c with doubled := c.doubled + 1 } else c
        | [] => c
      else { c with changed := c.changed + 1 }

/-- Marks of single and double errors: a single error is judged by two neighbours, a double one by three. There
is one mark less than outcomes for single errors and two less for double ones. -/
def markErrors (single : α → α → Bool) (double : α → α → α → Bool) (xs : List α) : List Bool × List Bool :=
  let pairs := xs.zip (xs.drop 1)
  (pairs.map fun (s, t) => single s t,
    (pairs.zip (xs.drop 2)).map fun ((s, t), u) => single s t && double s t u)

end QubitLab.Readout
