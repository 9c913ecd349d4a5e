import QubitLab.Text.Search

/-!
# Timestamps of measurements

A measurement is filed under a timestamp: a date mark of eight characters and a time mark of six, together or with
a character between them. A time mark alone belongs to today.
-/

namespace QubitLab.Archive

def marks? (today : String) (stamp : List Char) : Option (List Char × List Char) :=
  match stamp.length with
  | 6 => some (today.toList, stamp)
  | 14 => some (stamp.take 8, stamp.drop 8)
  | 15 => some (stamp.take 8, stamp.drop 9)
  | _ => none

end QubitLab.Archive
