/-!
# The Mersenne twister

A generator of 32-bit words with a state of 624 words. `Mersenne.seeded` fills the state from one word,
`Mersenne.next` gives the next word, and `Mersenne.draw` a list of naturals below a bound: the low bits of a
word under the least mask of ones that covers the bound, words above the bound being skipped.
-/

namespace QubitLab.Random

structure Mersenne where
  words : Array UInt32
  position : Nat
  deriving Inhabited

namespace Mersenne

def size : Nat := 624

def seedStep (w : UInt32) (i : Nat) : UInt32 := (1812433253 : UInt32) * (w ^^^ (w >>> 30)) + UInt32.ofNat i

def seeded (seed : Nat) : Mersenne :=
  let fill := (List.range (size - 1)).foldl (fun (ws, w) i =>
    let w := seedStep w (i + 1)
    (Array.push ws w, w)) (#[UInt32.ofNat seed], UInt32.ofNat seed)
  { words := fill.1, position := size }

/-- The new word of a place, from it, the next one and the one 397 places on. -/
def twist (a b c : UInt32) : UInt32 :=
  let y := (a &&& 0x80000000) ||| (b &&& 0x7fffffff)
  c ^^^ (y >>> 1) ^^^ (if y &&& 1 == 1 then 0x9908b0df else 0)

def refill (ws : Array UInt32) : Array UInt32 :=
  (List.range size).foldl (fun ws i => ws.set! i (twist ws[i]! ws[(i + 1) % size]! ws[(i + 397) % size]!)) ws

def temper (y : UInt32) : UInt32 :=
  let y := y ^^^ (y >>> 11)
  let y := y ^^^ ((y <<< 7) &&& 0x9d2c5680)
  let y := y ^^^ ((y <<< 15) &&& 0xefc60000)
  y ^^^ (y >>> 18)

def next (m : Mersenne) : UInt32 × Mersenne :=
  if m.position < size then (temper m.words[m.position]!, { m with position := m.position + 1 })
  else
    let ws := refill m.words
    (temper ws[0]!, { m with words := ws, position := 1 })

def mask (n : Nat) : Nat := if n = 0 then 0 else Nat.pow 2 (n.log2 + 1) - 1

/-- The next natural that is at most `top`; `tries` bounds the number of words skipped. -/
def atMost (top : Nat) : Nat → Mersenne → Nat × Mersenne
  | 0, m => (0, m)
  | tries + 1, m =>
    let (w, m) := m.next
    let n := w.toNat % (mask top + 1)
    if n ≤ top then (n, m) else atMost top tries m

def draw (bound count : Nat) (m : Mersenne) : List Nat × Mersenne :=
  if bound ≤ 1 then (List.replicate count 0, m)
  else
    let (out, m) := (List.range count).foldl (fun (out, m) _ =>
      let (n, m) := atMost (bound - 1) 4096 m
      (n :: out, m)) ([], m)
    (out.reverse, m)

end Mersenne

end QubitLab.Random
