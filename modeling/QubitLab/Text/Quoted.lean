import QubitLab.Decimal.Notation

/-!
# Quoted texts

A text inside a message is written in single quotes, or in double quotes when it holds a single quote and
no double quote. The quote, the backslash and characters that cannot be shown are escaped.
-/

namespace QubitLab.Text

def hexDigits (width n : Nat) : List Char := Decimal.zeroPad width (Nat.toDigits 16 n)

/-- Ranges of characters that cannot be shown: controls, separators, marks of direction, private
characters. -/
def hiddenRanges : List (Nat × Nat) := [
  (0x00, 0x1f), (0x7f, 0xa0), (0xad, 0xad), (0x378, 0x379), (0x600, 0x605), (0x61c, 0x61c),
  (0x6dd, 0x6dd), (0x70f, 0x70f), (0x890, 0x891), (0x8e2, 0x8e2), (0x1680, 0x1680),
  (0x180e, 0x180e), (0x2000, 0x200f), (0x2028, 0x202f), (0x205f, 0x206f), (0x3000, 0x3000),
  (0xd800, 0xf8ff), (0xfeff, 0xfeff), (0xfff0, 0xfffb), (0xfffe, 0xffff), (0xe0000, 0xe00ff),
  (0xe01f0, 0x10ffff)]

def isShown (c : Char) : Bool := !(hiddenRanges.any fun (lo, hi) => lo ≤ c.toNat && c.toNat ≤ hi)

def quotedChar (q c : Char) : List Char :=
  if c == q || c == '\\' then ['\\', c]
  else if c == '\n' then ['\\', 'n']
  else if c == '\r' then ['\\', 'r']
  else if c == '\t' then ['\\', 't']
  else if isShown c then [c]
  else if c.toNat < 0x100 then '\\' :: 'x' :: hexDigits 2 c.toNat
  else if c.toNat < 0x10000 then '\\' :: 'u' :: hexDigits 4 c.toNat
  else '\\' :: 'U' :: hexDigits 8 c.toNat

def quoted (s : String) : String :=
  let cs := s.toList
  let q := if cs.contains '\'' && !cs.contains '"' then '"' else '\''
  String.ofList (q :: cs.flatMap (quotedChar q) ++ [q])

end QubitLab.Text
