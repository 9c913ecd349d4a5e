import QubitLab.Session.World

/-!
# Measurement files in a session

A record is written into a measurement file, and read from it into another record.
-/

namespace QubitLab.Session

def fileAt (x : Item) : Script (Nat × Archive.Node) := do
  match x with
  | .part id =>
    match ← partAt id with
    | .file root => return (id, root)
    | _ => reject .member
  | _ => reject .member

def storeRoutines : List (String × Routine) := [
  ("measurement.hdf5_data:Data", .mk "name datadir" fun _ => newPart (.file .empty)),
  ("measurement.hdf5_data:write_dict_to_hdf5", .mk "data_dict entry_point" fun a => do
    let (id, root) ← fileAt (a "entry_point")
    setPart id (.file (← root.write (← orFail .member (plainOf a "data_dict").fields?)))
    return .value .null),
  ("measurement.hdf5_data:read_dict_from_hdf5", .mk "data_dict h5_group" fun a => do
    let start ← orFail .sort (plainOf a "data_dict").fields?
    return .value (← (← fileAt (a "h5_group")).2.readInto start))]

end QubitLab.Session
