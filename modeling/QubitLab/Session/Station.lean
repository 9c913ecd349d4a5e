import QubitLab.Console.Element
import QubitLab.Session.World

/-!
# The station of a session

The channels of a station are defined, their options are read and set one by one, and the channel of an output is looked
up.
-/

namespace QubitLab.Session

open Pulse (channelName)

def optionOf (c : Channel Number) : String → Attempt Value
  | "id" => .ok (.text c.id)
  | "type" =>
    match c.kind with
    | .analog => .ok (.text "analog")
    | .marker => .ok (.text "marker")
    | .other => fail .unsupported
  | "delay" => .ok c.delay.toValue
  | "offset" => .ok c.offset.toValue
  | "high" => .ok c.high.toValue
  | "low" => .ok c.low.toValue
  | "active" => .ok (.bool c.active)
  | "AWG" => .ok (.text c.generator)
  | _ => fail .key

def settingArg (v : Value) : String → Attempt (Setting Number)
  | "id" => .ok (.id (channelName v))
  | "type" => .ok (.kind (.ofWord (channelName v)))
  | "delay" => do return .delay (← numberArg v)
  | "offset" => do return .offset (← numberArg v)
  | "high" => do return .high (← numberArg v)
  | "low" => do return .low (← numberArg v)
  | "active" => .ok (.active v.truth)
  | "AWG" => .ok (.generator (channelName v))
  | _ => fail .unsupported

def rackMethods : List (String × Routine) := [
  ("define_channel", .mk "id name type delay offset high low active AWG?" fun a => do
    let words := ["id", "name", "type", "delay", "offset", "high", "low", "active", "AWG"]
    let (name, c) ← Console.readChannel (.record (words.map fun k => (k, plainOf a k)))
    modify fun w => { w with rack := w.rack.define name c }
    return .value .null),
  ("channel_opt", .mk "name option value?" fun a => do
    let name := channelName (plainOf a "name")
    let option ← textOf a "option"
    let c ← (← get).rack.channel name
    match plainOf a "value" with
    | .null => return .value (← optionOf c option)
    | v =>
      let rack ← (← get).rack.set name (← settingArg v option)
      modify fun w => { w with rack }
      return .value .null),
  ("_AWG5014_id_channel", .mk "cid AWG" fun a => do
    let on ← textOf a "AWG"
    return .value (((← get).rack.onOutput? on (← textOf a "cid")).elim .null .text))]

end QubitLab.Session
