
/-!
# Classes of characters

`isBlank` is the class of characters that separate words and that trimming removes. `words` splits at
runs of blanks, `fileLines` at the three line ends of a text file (line feed, carriage return, and the
two together).

Numerals may be written with the digits of any script that has a full set of ten. `zeros` lists the
zero of each such set; the other nine follow it. `isDigitLike` also takes the superscript, circled and
other ornamental digits, which read as digits but do not form numerals.

`lowerGroups` and `lowerSingles` give, for the alphabets in use beyond ASCII, how far the small letter lies from the
capital. The dotted capital I becomes an i followed by a combining dot, and a capital sigma at the end of a word the
final small sigma.
-/

namespace QubitLab.Chars

/-! ## Blanks -/

/-- The blanks: the control blanks, the space, and the space and separator characters beyond ASCII. -/
def isBlank (c : Char) : Bool :=
  let n := c.toNat
  (9 ≤ n && n ≤ 13) || (28 ≤ n && n ≤ 32) || n == 0x85 || n == 0xa0 || n == 0x1680 ||
    (0x2000 ≤ n && n ≤ 0x200a) || n == 0x2028 || n == 0x2029 || n == 0x202f || n == 0x205f ||
    n == 0x3000

/-! ## Trimming -/

def dropStart (p : Char → Bool) (s : List Char) : List Char := s.dropWhile p

def dropEnd (p : Char → Bool) (s : List Char) : List Char := (s.reverse.dropWhile p).reverse

def trimBy (p : Char → Bool) (s : List Char) : List Char := dropEnd p (dropStart p s)

def trim (s : List Char) : List Char := trimBy isBlank s

/-! ## Words and lines -/

/-- Splits at each single character of a class; the pieces may be empty. -/
def splitBy (p : Char → Bool) : List Char → List (List Char)
  | [] => [[]]
  | c :: r =>
    match splitBy p r with
    | [] => [[c]]
    | w :: ws => if p c then [] :: w :: ws else (c :: w) :: ws

def runsOutside (p : Char → Bool) (s : List Char) : List (List Char) := (splitBy p s).filter (fun w => !w.isEmpty)

def words (s : List Char) : List (List Char) := runsOutside isBlank s

def unifyLineEnds : List Char → List Char
  | [] => []
  | '\r' :: '\n' :: r => '\n' :: unifyLineEnds r
  | c :: r => (if c == '\r' then '\n' else c) :: unifyLineEnds r

/-- The lines of a text file, each with the line feed that ends it. -/
def fileLinesAux (current : List Char) : List Char → List (List Char)
  | [] => if current.isEmpty then [] else [current.reverse]
  | c :: r => if c == '\n' then (c :: current).reverse :: fileLinesAux [] r
    else fileLinesAux (c :: current) r

@[inherit_doc fileLinesAux]
def fileLines (s : List Char) : List (List Char) := fileLinesAux [] (unifyLineEnds s)

/-! ## Decimal digits -/

def zeros : List Nat := [
  0x30, 0x660, 0x6f0, 0x7c0, 0x966, 0x9e6, 0xa66, 0xae6,
  0xb66, 0xbe6, 0xc66, 0xce6, 0xd66, 0xde6, 0xe50, 0xed0,
  0xf20, 0x1040, 0x1090, 0x17e0, 0x1810, 0x1946, 0x19d0, 0x1a80,
  0x1a90, 0x1b50, 0x1bb0, 0x1c40, 0x1c50, 0xa620, 0xa8d0, 0xa900,
  0xa9d0, 0xa9f0, 0xaa50, 0xabf0, 0xff10, 0x104a0, 0x10d30, 0x11066,
  0x110f0, 0x11136, 0x111d0, 0x112f0, 0x11450, 0x114d0, 0x11650, 0x116c0,
  0x11730, 0x118e0, 0x11950, 0x11c50, 0x11d50, 0x11da0, 0x11f50, 0x16a60,
  0x16ac0, 0x16b50, 0x1d7ce, 0x1d7d8, 0x1d7e2, 0x1d7ec, 0x1d7f6, 0x1e140,
  0x1e2f0, 0x1e4f0, 0x1e950, 0x1fbf0]

def digit? (c : Char) : Option Nat :=
  if '0' ≤ c && c ≤ '9' then some (c.toNat - 48)
  else if c.toNat < 128 then none
  else (zeros.find? fun z => z ≤ c.toNat && c.toNat < z + 10).map fun z => c.toNat - z

def ornamentalDigits : List (Nat × Nat) := [
  (0xb2, 0xb3), (0xb9, 0xb9), (0x1369, 0x1371), (0x19da, 0x19da), (0x2070, 0x2070),
  (0x2074, 0x2079), (0x2080, 0x2089), (0x2460, 0x2468), (0x2474, 0x247c), (0x2488, 0x2490),
  (0x24ea, 0x24ea), (0x24f5, 0x24fd), (0x24ff, 0x24ff), (0x2776, 0x277e), (0x2780, 0x2788),
  (0x278a, 0x2792), (0x10a40, 0x10a43), (0x10e60, 0x10e68), (0x11052, 0x1105a), (0x1f100, 0x1f10a)]

def isDigitLike (c : Char) : Bool :=
  (digit? c).isSome || ornamentalDigits.any fun (lo, hi) => lo ≤ c.toNat && c.toNat ≤ hi

end QubitLab.Chars

/-! ## Lower case -/

namespace QubitLab.Chars

/-- Capitals that lie `shift` code points before their small letters: `lo, lo + step, …, hi` for each pair of `ranges`. -/
structure LowerGroup where
  step : Nat
  shift : Int
  ranges : List (Nat × Nat)

/-- The Latin, Greek, Cyrillic and Armenian capitals that come in ranges. -/
def lowerGroups : List LowerGroup := [
  ⟨1, 32, [
    (0xc0, 0xd6), (0xd8, 0xde), (0x391, 0x3a1), (0x3a3, 0x3ab), (0x410, 0x42f), (0xff21, 0xff3a)]⟩,
  ⟨2, 1, [
    (0x100, 0x12e), (0x132, 0x136), (0x139, 0x147), (0x14a, 0x176), (0x179, 0x17d), (0x1cb, 0x1db), (0x1de, 0x1ee),
    (0x1f8, 0x21e), (0x222, 0x232), (0x3d8, 0x3ee), (0x460, 0x480), (0x48a, 0x4be), (0x4c1, 0x4cd), (0x4d0, 0x52e),
    (0x1e00, 0x1e94), (0x1ea0, 0x1efe)]⟩,
  ⟨1, 37, [(0x388, 0x38a)]⟩, ⟨1, 63, [(0x38e, 0x38f)]⟩, ⟨1, 80, [(0x400, 0x40f)]⟩, ⟨1, 48, [(0x531, 0x556)]⟩,
  ⟨1, 16, [(0x2160, 0x216f)]⟩]

/-- Further capitals and signs of units, each with its distance. -/
def lowerSingles : List (Nat × Int) := [
  (0x178, -121), (0x386, 38), (0x38c, 64), (0x4c0, 15), (0x1e9e, -7615), (0x2126, -7517), (0x212a, -8383),
  (0x212b, -8262)]

def lowerChar (c : Char) : Char :=
  let n := c.toNat
  if n < 128 then c.toLower
  else
    let group? := lowerGroups.find? fun g => g.ranges.any fun (lo, hi) => lo ≤ n && n ≤ hi && (n - lo) % g.step == 0
    match lowerSingles.lookup n <|> group?.map LowerGroup.shift with
    | some shift => Char.ofNat (Int.toNat ((n : Int) + shift))
    | none => c

def isCased (c : Char) : Bool :=
  lowerChar c != c || c.isAlpha || (0xaa ≤ c.toNat && c.toNat ≤ 0x24f && c.toNat != 0xd7 &&
    c.toNat != 0xf7) || (0x370 ≤ c.toNat && c.toNat ≤ 0x556)

/-- Lower case of a text; `before` says whether a letter stands before it. -/
def lowerAux (before : Bool) : List Char → List Char
  | [] => []
  | c :: r =>
    if c.toNat == 0x130 then 'i' :: Char.ofNat 0x307 :: lowerAux true r
    else if c.toNat == 0x3a3 then
      let final := before && !(r.head?.map isCased |>.getD false)
      Char.ofNat (if final then 0x3c2 else 0x3c3) :: lowerAux true r
    else lowerChar c :: lowerAux (isCased c) r

def lower (s : List Char) : List Char := lowerAux false s

end QubitLab.Chars

namespace QubitLab.Text

def lower (s : String) : String := String.ofList (Chars.lower s.toList)

end QubitLab.Text
