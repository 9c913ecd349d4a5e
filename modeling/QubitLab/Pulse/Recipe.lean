import QubitLab.Decimal.Numeral
import QubitLab.Pulse.Shape
import QubitLab.Value.Tree

/-!
# Recipes for pulses

A pulse is made from a kind and named arguments. `Recipe.make` checks the arguments and fills in defaults, `Recipe.adjust`
changes some of them afterwards, and `Recipe.pulse` gives the pulse.
-/

namespace QubitLab.Pulse

inductive Kind
  | bare
  | square
  | cosine
  | linear
  | clockTrain
  | markerTrain
  | modulatedBlock
  | drag
  | splitDrag
  | squareFlux
  | codeword
  deriving DecidableEq

def Kind.ofName? : String → Option Kind
  | "Pulse" | "MartinisFluxPulse" => some .bare
  | "SquarePulse" => some .square
  | "CosPulse" => some .cosine
  | "LinearPulse" => some .linear
  | "clock_train" => some .clockTrain
  | "marker_train" => some .markerTrain
  | "MW_IQmod_pulse" => some .modulatedBlock
  | "SSB_DRAG_pulse" => some .drag
  | "Mux_DRAG_pulse" => some .splitDrag
  | "SquareFluxPulse" => some .squareFlux
  | "QWG_Codeword" => some .codeword
  | _ => none

structure Recipe where
  kind : Kind
  name : String
  channels : List String
  attributes : Fields

def Kind.name? : Kind → Option String
  | .square => some "square pulse"
  | .cosine => some "cos pulse"
  | .linear => some "linear pulse"
  | .clockTrain => some "clock train"
  | .markerTrain => some "marker train"
  | .squareFlux => some "square flux pulse"
  | .codeword => some "QWG codeword"
  | .bare | .modulatedBlock | .drag | .splitDrag => none

def Kind.defaults : Kind → Fields
  | .bare => []
  | .square => [("amplitude", .int 0), ("length", .int 0)]
  | .cosine => [("frequency", .real 1e6), ("amplitude", .real 0), ("length", .real 0), ("phase", .real 0)]
  | .linear => [("start_value", .int 0), ("end_value", .int 0), ("length", .int 0)]
  | .clockTrain => [("amplitude", .real 0.1), ("cycles", .int 100), ("nr_up_points", .int 2), ("nr_down_points", .int 2)]
  | .markerTrain => [("amplitude", .int 1), ("nr_markers", .int 100), ("marker_length", .real 15e-9),
      ("marker_separation", .real 100e-9)]
  | .modulatedBlock => [("mod_frequency", .real 1e6), ("amplitude", .real 0.1), ("length", .real 1e-6),
      ("phase", .real 0), ("phaselock", .bool true), ("alpha", .int 1), ("phi_skew", .int 0)]
  | .drag => bell ++ [("motzoi", .int 0), ("alpha", .int 1), ("phi_skew", .int 0)]
  | .splitDrag => bell ++ [("motzoi", .int 1), ("G_alpha", .int 1), ("G_phi_skew", .int 0), ("D_alpha", .int 1),
      ("D_phi_skew", .int 0), ("GI_channel", .text "ch1"), ("GQ_channel", .text "ch2"), ("DI_channel", .text "ch3"),
      ("DQ_channel", .text "ch4")]
  | .squareFlux => [("amplitude", .int 0), ("square_pulse_length", .int 0), ("pulse_buffer", .int 0)]
  | .codeword => [("amplitude", .int 0), ("length", .real 20e-9), ("codeword", .int 0),
      ("cw_trigger_channel", .text "ch1_marker_1"),
      ("cw_channels", .ofTexts ["ch1_marker_2", "ch1_marker_2", "ch2_marker_1"])]
where
  bell : Fields := [("amplitude", .real 0.1), ("sigma", .real 0.25e-6), ("nr_sigma", .int 4),
    ("mod_frequency", .real 1e6), ("phase", .real 0), ("phaselock", .bool true)]

def Kind.adjustable : Kind → List String
  | .bare | .codeword => []
  | .drag => ["amplitude", "sigma", "nr_sigma", "motzoi", "mod_frequency", "phase", "phaselock"]
  | .splitDrag => ["amplitude", "sigma", "nr_sigma", "mod_frequency", "phase", "phaselock", "G_alpha", "G_phi_skew",
      "D_alpha", "D_phi_skew", "GI_channel", "GQ_channel", "DI_channel", "DQ_channel"]
  | k => k.defaults.map (·.1)

def wholeNumber (v : Value) : Attempt Int :=
  match v with
  | .text s => orFail .value (Decimal.readInt? 10 s.toList)
  | v => do (← orFail .sort (Number.ofValue? v)).truncate

def channelName (v : Value) : String := v.text?.getD v.render

def channelNames (v : Value) : Attempt (List String) := do return (← orFail .sort v.items?).map channelName

namespace Recipe

def get (r : Recipe) (k : String) : Value := (Fields.get? r.attributes k).getD .null

def set (r : Recipe) (k : String) (v : Value) : Recipe := { r with attributes := Fields.put k v r.attributes }

def number (r : Recipe) (k : String) : Attempt Number := orFail .sort (Number.ofValue? (r.get k))

def measured (r : Recipe) : Attempt Recipe := do
  match r.kind with
  | .drag | .splitDrag => return r.set "length" (← (← r.number "sigma").mul (← r.number "nr_sigma")).toValue
  | .squareFlux => return r.set "length" (← (← r.number "square_pulse_length").add (← r.number "pulse_buffer")).toValue
  | _ => return r

def splitChannels (r : Recipe) : List String :=
  ["GI_channel", "GQ_channel", "DI_channel", "DQ_channel"].map fun k => channelName (r.get k)

def oneOrMore (r : Recipe) (args : Fields) : Attempt Recipe :=
  let channel := (Fields.get? args "channel").getD .null
  match (Fields.get? args "channels").getD .null with
  | .null =>
    if channel.isNull then failWith .value "Must specify either channel or channels"
    else .ok { r.set "channel" channel with channels := [channelName channel] }
  | v => do return { r with channels := ← channelNames v }

def make (kind : Kind) (args : Fields) : Attempt Recipe := do
  let name ← match Fields.get? args "name" with
    | some v => .ok (channelName v)
    | none => orFail .sort kind.name?
  if kind = .bare && args.any (fun (k, _) => k != "name") then fail .sort
  let attributes := kind.defaults.map fun (k, v) => (k, (Fields.get? args k).getD v)
  let r : Recipe := { kind, name, channels := [], attributes }
  let required (k : String) : Attempt Value := orFail .sort (Fields.get? args k)
  match kind with
  | .bare => return r
  | .square | .linear => r.oneOrMore args
  | .squareFlux => (← r.oneOrMore args).measured
  | .cosine | .clockTrain | .markerTrain =>
    let c ← required "channel"
    let r := r.set "channel" c
    return { r with channels := [channelName c] }
  | .modulatedBlock | .drag =>
    let i ← required "I_channel"
    let q ← required "Q_channel"
    let r := (r.set "I_channel" i).set "Q_channel" q
    measured { r with channels := [channelName i, channelName q] }
  | .splitDrag => measured { r with channels := r.splitChannels }
  | .codeword =>
    discard (wholeNumber (r.get "codeword"))
    return { r with channels := (← channelNames (r.get "cw_channels")) ++ [channelName (r.get "cw_trigger_channel")] }

/-- The pulse with one more channel, as the square pulses note each adjustment. -/
def addChannel (r : Recipe) (args : Fields) : Attempt Recipe := do
  let own ← orFail .member (Fields.get? r.attributes "channel")
  let c := (Fields.get? args "channel").getD own
  let channels ← match Fields.get? args "channels" with
    | some v => channelNames v
    | none => .ok r.channels
  let r := r.set "channel" c
    return { r with channels := channels ++ [channelName c] }

/-- Changes some attributes; those that cannot be changed are passed over. -/
def adjust (r : Recipe) (args : Fields) : Attempt Recipe := do
  if (r.kind = .bare || r.kind = .codeword) && !args.isEmpty then fail .sort
  let r := args.foldl (fun (r : Recipe) (k, v) => if r.kind.adjustable.contains k then r.set k v else r) r
  match r.kind with
  | .square => r.addChannel args
  | .squareFlux => (← r.measured).addChannel args
  | .linear =>
    let r := match (Fields.get? args "channel").getD .null with
      | .null => r
      | c => { r.set "channel" c with channels := [channelName c] }
    match Fields.get? args "channels" with
    | some v => return { r with channels := ← channelNames v }
    | none => return r
  | .clockTrain =>
    let points ← (← r.number "nr_up_points").add (← r.number "nr_down_points")
    return r.set "length" (← (← (← r.number "cycles").mul points).mul (.real 1e-9)).toValue
  | .markerTrain =>
    let r := match Fields.get? args "channel" with
      | some c => r.set "channel" c
      | none => r
    let r := { r with channels := [channelName (r.get "channel")] }
    return r.set "length" (← (← r.number "nr_markers").mul (← r.number "marker_separation")).toValue
  | .drag => r.measured
  | .splitDrag => measured { r with channels := r.splitChannels }
  | _ => return r

def float (r : Recipe) (k : String) : Option Float := (Number.ofValue? (r.get k)).map Number.toFloatInf

def tone (r : Recipe) : Tone := ⟨r.float "mod_frequency", r.float "phase", (r.get "phaselock").truth⟩

def bell (r : Recipe) : Bell := ⟨r.float "amplitude", r.float "sigma", r.float "motzoi", r.float "length"⟩

def codewordChannels (r : Recipe) : List String × List String :=
  let channels := ((r.get "cw_channels").items?.getD []).map channelName
  let word := ((wholeNumber (r.get "codeword")).toOption.getD 0) % (Nat.pow 2 channels.length)
  let marked := (List.range channels.length).zip channels
  let isUp (i : Nat) : Bool := word.toNat.testBit i
  ((marked.filter fun (i, _) => isUp i).map (·.2), (marked.filter fun (i, _) => !isUp i).map (·.2))

def shape (r : Recipe) : Shape :=
  let a := r.float "amplitude"
  match r.kind with
  | .bare => .silent
  | .square => .level a
  | .cosine => .cosine a (r.float "frequency") (r.float "phase")
  | .linear => .ramp (r.float "start_value") (r.float "end_value")
  | .clockTrain => .clockTrain (r.get "amplitude") (r.get "cycles") (r.get "nr_up_points") (r.get "nr_down_points")
  | .markerTrain =>
    .markerTrain a (r.get "nr_markers") (r.get "marker_length") (r.get "marker_separation") (r.get "length")
  | .modulatedBlock =>
    .block a (r.float "length") (channelName (r.get "I_channel")) (channelName (r.get "Q_channel")) r.tone
      ⟨r.float "alpha", r.float "phi_skew"⟩
  | .drag =>
    .drag r.bell (channelName (r.get "I_channel")) (channelName (r.get "Q_channel")) r.tone
      ⟨r.float "alpha", r.float "phi_skew"⟩
  | .splitDrag =>
    .split r.bell (channelName (r.get "GI_channel")) (channelName (r.get "GQ_channel"))
      (channelName (r.get "DI_channel")) (channelName (r.get "DQ_channel")) r.tone
      ⟨r.float "G_alpha", r.float "G_phi_skew"⟩ ⟨r.float "D_alpha", r.float "D_phi_skew"⟩
  | .squareFlux => .fluxBlock a (r.float "square_pulse_length") (r.float "length")
  | .codeword =>
    let (high, low) := r.codewordChannels
    .codeword a high low (channelName (r.get "cw_trigger_channel"))

def pulse (r : Recipe) : Pulse Number Shape :=
  { name := r.name, channels := r.channels, length? := Number.ofValue? (r.get "length"),
    startOffset := .int 0, stopOffset := .int 0, shape := r.shape }

end Recipe

end QubitLab.Pulse
