/-!
# Checksums

The cyclic redundancy check of 32 bits over the entries of a matrix. The register takes in one byte after the other,
lowest bit first; an entry is a signed word of eight bytes, lowest byte first.
-/

namespace QubitLab.Clifford.Checksum

/-- The register after its lowest bit has left: a one brings the polynomial of the check in. -/
def shift (s : Nat) : Nat := (s >>> 1) ^^^ (s % 2 * 0xEDB88320)

def table : Array Nat := Array.ofFn fun (b : Fin 256) => Nat.repeat shift 8 b

def feed (s b : Nat) : Nat := table.getD ((s ^^^ b) % 256) 0 ^^^ (s >>> 8)

def feedBytes : Nat → Nat → Nat → Nat
  | 0, s, _ => s
  | n + 1, s, w => feedBytes n (feed s (w % 256)) (w >>> 8)

def feedEntry (s : Nat) (e : Int) : Nat := feedBytes 8 s (e % 18446744073709551616).toNat

def ofEntries (es : List Int) : Nat := es.foldl feedEntry 0xFFFFFFFF ^^^ 0xFFFFFFFF

def find? (sums : Array Nat) (sum : Nat) : Option Nat := sums.findIdx? (· == sum)

end QubitLab.Clifford.Checksum
