import QubitLab.Qumis.Passes

/-!
# Instruction words

Each instruction is a row of fields, written as binary digits: an operation code, three digits that say
which unit executes it, and operands. `encode` gives the digits of an item, `wordOf` the number that they
spell.
-/

namespace QubitLab.Qumis

/-- Binary digits of an integer filled with zeros up to a width; a minus sign counts as a place. -/
def binaryDigits (width : Nat) (n : Int) : List Char :=
  let ds := Nat.toDigits 2 n.natAbs
  if n < 0 then '-' :: Decimal.zeroPad (width - 1) ds else Decimal.zeroPad width ds

def twosComplement (width : Nat) (n : Int) : List Char := binaryDigits width (n % Nat.pow 2 width)

def operandInt (op : Operand) : Except OperandError Int :=
  match op with
  | .number n => .ok n
  | .word s =>
    match Decimal.readInt? 10 s.toList with
    | some n => .ok n
    | none => .error (.notInteger s)

def immediate (op : Operand) : Except OperandError Int :=
  match op with
  | .number n => .ok n
  | .word s => if isNumberWord s then operandInt op else .error (.notNumber s)

def registerNumber (s : String) : Except OperandError Int := do
  let t := String.ofList (Chars.trimBy (· == 'r') s.toList)
  if !isNumberWord t then .error .registerFormat
  else
    let n ← operandInt (.word t)
    if n < 0 ∨ n > 15 then .error .registerRange else .ok n

def bytePosition (op : Operand) : Except OperandError Int := do
  match op with
  | .word s => if !isNumberWord s then .error .positionFormat
  | .number _ => .ok ()
  let n ← operandInt op
  if n < 0 ∨ n > 3 then .error .positionRange else .ok n

def withLead {α : Type} (lead : String) (r : Except OperandError α) : Except AsmError α :=
  match r with
  | .ok a => .ok a
  | .error e => .error (.operandWrong lead e)

def registerField (lead : String) : Operand → Except AsmError (List Char)
  | .word s => (withLead lead (registerNumber s)).map (binaryDigits 4)
  | .number _ => .error .registerSort

def encodeArithmetic (lead : String) (function : String) (ops : List Operand) :
    Except AsmError (List Char) :=
  match ops with
  | [d, a, b] => do
    let rd ← registerField lead d
    let rs ← registerField lead a
    let rt ← registerField lead b
    return "000000100".toList ++ rs ++ rt ++ rd ++ "00000".toList ++ function.toList
  | _ => .error .operandCount

def encodeBranch (lead code : String) (ops : List Operand) : Except AsmError (List Char) :=
  match ops with
  | [a, b, off] => do
    let rs ← registerField lead a
    let rt ← registerField lead b
    let n ← withLead lead (immediate off)
    return code.toList ++ "100".toList ++ rs ++ rt ++ twosComplement 15 n
  | _ => .error .operandCount

def encodeAddImmediate (ops : List Operand) : Except AsmError (List Char) :=
  let lead := "Addi instruction format error: "
  match ops with
  | [d, a, imm] => do
    let rs ← registerField lead a
    let rt ← registerField lead d
    let n ← withLead lead (immediate imm)
    return "001000100".toList ++ rs ++ rt ++ twosComplement 15 n
  | _ => .error .operandCount

def encodeLoadByte (ops : List Operand) : Except AsmError (List Char) :=
  let lead := "Lui instruction format error:"
  match ops with
  | [r, p, b] => do
    let rt ← registerField lead r
    let pos ← withLead lead (bytePosition p)
    let n ← withLead lead (operandInt b)
    return "001111100".toList ++ rt ++ rt ++ binaryDigits 4 (Nat.pow 2 pos.toNat) ++ "000".toList ++
      binaryDigits 8 n
  | _ => .error .operandCount

def encodeWaitRegister (ops : List Operand) : Except AsmError (List Char) :=
  match ops with
  | [r] => do
    let rs ← registerField "WaitReg instruction format error: " r
    return "000000001".toList ++ rs ++ "0000000000000010000".toList
  | _ => .error .operandCount

def encodePulse (ops : List Operand) : Except AsmError (List Char) :=
  match ops with
  | [.word a, .word b, .word c] => .ok ("000000001".toList ++ a.toList ++ b.toList ++ c.toList ++ "00000000001".toList)
  | [_, _, _] => .error .operandSort
  | _ => .error .operandCount

def encodeWait (cfg : Settings) (ops : List Operand) : Except AsmError (List Char) :=
  match ops with
  | [op] =>
    match op.int? with
    | none => .error (.waitFormat op.text)
    | some n =>
      if n < cfg.minWait ∨ n > cfg.maxWait then .error (.waitRange op.text)
      else
        match op with
        | .word s => if isNumberWord s then .ok ("11000000100000000".toList ++ twosComplement 15 n)
          else .error (.operandWrong "Wait instruction format error: " (.notNumber s))
        | .number _ => .ok ("11000000100000000".toList ++ twosComplement 15 n)
  | _ => .error .operandCount

/-- `trigger`: a mask of seven markers, the first marker in the lowest digit, and a duration. -/
def encodeTrigger (ops : List Operand) : Except AsmError (List Char) :=
  match ops with
  | [.word mask, dur] =>
    if mask.length ≠ 7 then .error (.maskWidth mask)
    else if mask.toList.any (fun c => c != '0' && c != '1') then .error (.maskDigits mask)
    else
      match dur.int? with
      | none => .error .integerExpected
      | some n =>
        if n < 0 ∨ n > 2047 then .error .durationRange
        else .ok ("10100000100000".toList ++ mask.toList.reverse ++ (twosComplement 12 n).drop 1)
  | [.number _, _] => .error .operandSort
  | _ => .error .operandCount

def encodeConstant (digits : String) (ops : List Operand) : Except AsmError (List Char) :=
  if ops.isEmpty then .ok digits.toList else .error .operandsForbidden

def encode (cfg : Settings) (name : String) (ops : List Operand) : Except AsmError (List Char) :=
  match name with
  | "add" => encodeArithmetic "Add instruction format error: " "100000" ops
  | "sub" => encodeArithmetic "Sub instruction format error: " "100010" ops
  | "beq" => encodeBranch "Beq instruction format error: " "000100" ops
  | "bne" => encodeBranch "Bne instruction format error: " "000101" ops
  | "addi" => encodeAddImmediate ops
  | "lui" => encodeLoadByte ops
  | "waitreg" => encodeWaitRegister ops
  | "pulse" => encodePulse ops
  | "measure" => encodeConstant "00000001100000000000000000000010" ops
  | "wait" => encodeWait cfg ops
  | "trigger" => encodeTrigger ops
  | "nop" => encodeConstant "00000000000000000000000000000000" ops
  | _ => .error .mnemonicUnknown

def wordOf (cfg : Settings) (x : Item) : Except AsmError Int := do
  let digits ← encode cfg x.name x.operands
  match Decimal.readInt? 2 digits with
  | some n => .ok n
  | none => .error .wordFormat

end QubitLab.Qumis
