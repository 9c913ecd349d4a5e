import Mathlib.Data.Nat.Bitwise
import QubitLab.Proofs.CliffordGroup

/-!
# Checksums tell Cliffords apart

The register of the check is linear in what it takes in, so the checksum of a transfer matrix is a constant and one
`weight` for each of its columns (`checksum_eq`). The weights of all places are packed into one number, and so are
the images under each tail of a two-qubit Clifford; with these, the checksums of all 11520 Cliffords are few operations
each (`Pair.checksum_eq`). A search bit by bit finds no two of them equal, so `Group.index?` gives every Clifford
its own number (`Group.index?_action`).
-/

namespace QubitLab.Clifford

open List

namespace Checksum

/-! ## Linearity -/

/-- The function on registers respects the exclusive or. -/
def Linear (f : Nat → Nat) : Prop := ∀ s t, f (s ^^^ t) = f s ^^^ f t

variable {f : Nat → Nat} {n k s : Nat} {α : Type} {l : List Nat}

theorem Linear.zero (hf : Linear f) : f 0 = 0 := by
  simpa using hf 0 0

theorem Linear.iterate (hf : Linear f) (n : Nat) : Linear (Nat.repeat f n) := by
  intro s t
  induction n with
  | zero => rfl
  | succ n ih => rw [Nat.repeat, ih, hf, Nat.repeat, Nat.repeat]

theorem repeat_add (f : Nat → Nat) (m n s : Nat) : Nat.repeat f m (Nat.repeat f n s) = Nat.repeat f (m + n) s := by
  induction m with
  | zero => rw [Nat.zero_add, Nat.repeat]
  | succ m ih => rw [Nat.repeat, ih, Nat.succ_add, Nat.repeat]

theorem repeat_repeat (f : Nat → Nat) (m n s : Nat) : Nat.repeat (Nat.repeat f m) n s = Nat.repeat f (m * n) s := by
  induction n with
  | zero => rfl
  | succ n ih => rw [Nat.repeat, ih, repeat_add, Nat.mul_succ, Nat.add_comm]

theorem xor_xor_comm (a b c d : Nat) : (a ^^^ b) ^^^ (c ^^^ d) = (a ^^^ c) ^^^ (b ^^^ d) := by
  rw [Nat.xor_assoc, Nat.xor_assoc, Nat.xor_left_comm b]

theorem shift_linear : Linear shift := by
  intro s t
  have hbit : (s ^^^ t) % 2 * 0xEDB88320 = (s % 2 * 0xEDB88320) ^^^ (t % 2 * 0xEDB88320) := by
    rw [← Nat.pow_one 2, Nat.xor_mod_two_pow, Nat.pow_one]
    rcases Nat.mod_two_eq_zero_or_one s with hs | hs <;> rcases Nat.mod_two_eq_zero_or_one t with ht | ht <;>
      rw [hs, ht] <;> rfl
  rw [shift, hbit, Nat.shiftRight_xor_distrib, xor_xor_comm, ← shift, ← shift]

theorem feed_eq (s b : Nat) : feed s b = Nat.repeat shift 8 ((s ^^^ b) % 2 ^ 8) ^^^ (s >>> 8) := by
  have hlt : (s ^^^ b) % 256 < table.size := by
    rw [table, Array.size_ofFn]
    omega
  rw [feed, Array.getD, dif_pos hlt]
  simp [table]

theorem feed_xor (s t b c : Nat) : feed (s ^^^ t) (b ^^^ c) = feed s b ^^^ feed t c := by
  rw [feed_eq, feed_eq, feed_eq, xor_xor_comm s t, Nat.xor_mod_two_pow, shift_linear.iterate 8, Nat.shiftRight_xor_distrib,
    xor_xor_comm]

theorem feedBytes_xor (n s t v w : Nat) : feedBytes n (s ^^^ t) (v ^^^ w) = feedBytes n s v ^^^ feedBytes n t w := by
  induction n generalizing s t v w with
  | zero => rfl
  | succ n ih =>
    have hlow : (v ^^^ w) % 256 = v % 256 ^^^ w % 256 := Nat.xor_mod_two_pow (n := 8)
    rw [feedBytes, hlow, feed_xor, Nat.shiftRight_xor_distrib, ih, feedBytes, feedBytes]

/-- The register after an entry of zero. -/
def idle (s : Nat) : Nat := feedEntry s 0

theorem idle_linear : Linear idle := fun s t => feedBytes_xor 8 s t 0 0

theorem feedEntry_eq (s : Nat) (e : Int) : feedEntry s e = idle s ^^^ feedEntry 0 e := by
  have h := feedBytes_xor 8 s 0 0 (e % 18446744073709551616).toNat
  rwa [Nat.xor_zero, Nat.zero_xor] at h

/-! ## Sums -/

/-- The exclusive or of the values of a function below a number. -/
def xorSum (f : Nat → Nat) : Nat → Nat
  | 0 => 0
  | n + 1 => xorSum f n ^^^ f n

theorem xorSum_congr {g : Nat → Nat} (h : ∀ i < n, f i = g i) : xorSum f n = xorSum g n := by
  induction n with
  | zero => rfl
  | succ n ih => rw [xorSum, xorSum, ih fun i hi => h i (by omega), h n (by omega)]

theorem xorSum_xor (f g : Nat → Nat) (n : Nat) : xorSum (fun i => f i ^^^ g i) n = xorSum f n ^^^ xorSum g n := by
  induction n with
  | zero => exact (Nat.xor_self 0).symm
  | succ n ih => rw [xorSum, xorSum, xorSum, ih, xor_xor_comm]

theorem xorSum_zero (n : Nat) : xorSum (fun _ => 0) n = 0 := by
  induction n with
  | zero => rfl
  | succ n ih => rw [xorSum, ih, Nat.xor_zero]

theorem xorSum_comm (f : Nat → Nat → Nat) (m n : Nat) :
    xorSum (fun i => xorSum (f i) n) m = xorSum (fun j => xorSum (fun i => f i j) m) n := by
  induction m with
  | zero => exact (xorSum_zero n).symm
  | succ m ih => rw [xorSum, ih, ← xorSum_xor]; rfl

theorem xorSum_single (hk : k < n) (h : ∀ i < n, i ≠ k → f i = 0) : xorSum f n = f k := by
  induction n with
  | zero => omega
  | succ n ih =>
    rw [xorSum]
    by_cases hkn : k = n
    · rw [xorSum_congr (g := fun _ => 0) fun i hi => h i (by omega) (by omega), xorSum_zero, Nat.zero_xor, hkn]
    · rw [ih (by omega) fun i hi => h i (by omega), h n (by omega) (Ne.symm hkn), Nat.xor_zero]

theorem Linear.xorSum {L : Nat → Nat} (hL : Linear L) (f : Nat → Nat) (n : Nat) :
    L (xorSum f n) = Checksum.xorSum (fun i => L (f i)) n := by
  induction n with
  | zero => exact hL.zero
  | succ n ih => rw [Checksum.xorSum, hL, ih, Checksum.xorSum]

/-- A register that is moved by a linear map and then takes something in, `n` times. -/
theorem foldl_range {L c : Nat → Nat} (hL : Linear L) {step : Nat → Nat → Nat} (h : ∀ s i, step s i = L s ^^^ c i)
    (n s : Nat) : (List.range n).foldl step s = Nat.repeat L n s ^^^ xorSum (fun i => Nat.repeat L (n - 1 - i) (c i)) n := by
  induction n with
  | zero => exact (Nat.xor_zero s).symm
  | succ n ih =>
    have hmoved : L (xorSum (fun i => Nat.repeat L (n - 1 - i) (c i)) n) =
        xorSum (fun i => Nat.repeat L (n + 1 - 1 - i) (c i)) n := by
      rw [hL.xorSum]
      refine xorSum_congr fun i hi => ?_
      rw [show n + 1 - 1 - i = n - 1 - i + 1 by omega, Nat.repeat]
    rw [range_succ, foldl_concat, ih, h, hL, hmoved, Nat.xor_assoc, xorSum]
    congr 2
    rw [show n + 1 - 1 - n = 0 by omega, Nat.repeat]

/-! ## The checksum of an action -/

/-- What the entry of an image leaves in the register after `k` more entries. -/
def weight (k : Nat) (neg : Bool) : Nat := Nat.repeat idle k (feedEntry 0 (if neg then -1 else 1))

/-- The checksum of a matrix of zeros. -/
def blank (n : Nat) : Nat := Nat.repeat idle (n * n) 0xFFFFFFFF ^^^ 0xFFFFFFFF

theorem checksum_eq {a : Action} (ha : a.Proper n) : a.checksum =
    blank n ^^^ xorSum (fun j => weight (n * (n - 1 - (a.image j).pauli) + (n - 1 - j)) (a.image j).neg) n := by
  have hrow : ∀ s i, (List.range n).foldl (fun s j => feedEntry s (a.entry i j)) s =
      Nat.repeat idle n s ^^^ xorSum (fun j => Nat.repeat idle (n - 1 - j) (feedEntry 0 (a.entry i j))) n :=
    fun s i => foldl_range idle_linear (fun s j => feedEntry_eq s (a.entry i j)) n s
  have hsum : a.checksum = (Nat.repeat idle (n * n) 0xFFFFFFFF ^^^ xorSum (fun i => xorSum (fun j =>
      Nat.repeat idle (n * (n - 1 - i) + (n - 1 - j)) (feedEntry 0 (a.entry i j))) n) n) ^^^ 0xFFFFFFFF := by
    simp only [Action.checksum, ofEntries, Action.matrix, ha.length, foldl_flatten, foldl_map]
    rw [foldl_range (idle_linear.iterate n) hrow, repeat_repeat]
    congr 2
    refine xorSum_congr fun i _ => ?_
    rw [((idle_linear.iterate n).iterate _).xorSum]
    refine xorSum_congr fun j _ => ?_
    rw [repeat_repeat, repeat_add]
  have hcolumn : ∀ j < n, xorSum (fun i => Nat.repeat idle (n * (n - 1 - i) + (n - 1 - j)) (feedEntry 0 (a.entry i j))) n =
      weight (n * (n - 1 - (a.image j).pauli) + (n - 1 - j)) (a.image j).neg := by
    intro j hj
    rw [xorSum_single (ha.image_lt hj) fun i _ hi => ?_, Action.entry, if_pos rfl, weight]
    -- all other entries of the column are zero
    rw [Action.entry, if_neg (Ne.symm hi)]
    change Nat.repeat idle _ (idle 0) = 0
    rw [idle_linear.zero, (idle_linear.iterate _).zero]
  rw [hsum, xorSum_comm, xorSum_congr hcolumn, blank, Nat.xor_right_comm]

/-! ## Evaluation

The definitions of this section are evaluated by the kernel, so they use recursors and the operations of `Nat` by name,
and numbers are forced before they are used several times. -/

/-- `List.foldr` by its recursor. -/
noncomputable def fold {α β : Type} (f : α → β → β) (init : β) (l : List α) : β := List.rec init (fun x _ r => f x r) l

theorem fold_eq {β : Type} (f : α → β → β) (init : β) (l : List α) : fold f init l = l.foldr f init := by
  induction l with
  | nil => rfl
  | cons x l ih => exact congrArg (f x) ih

/-- A function of a number that is computed first. -/
noncomputable def force {α : Type} (n : Nat) (f : Nat → α) : α := Nat.rec (f 0) (fun k _ => f (Nat.succ k)) n

@[simp] theorem force_eq (n : Nat) (f : Nat → α) : force n f = f n := by
  cases n <;> rfl

/-- The first value for a number other than zero and the second for zero. -/
noncomputable def pick {α : Type} (n : Nat) (a b : α) : α := Nat.rec b (fun _ _ => a) n

theorem pick_eq (n : Nat) (a b : α) : pick n a b = if n = 0 then b else a := by
  cases n <;> rfl

/-- Whether a bit of a number is set. -/
def bit (k x : Nat) : Nat := Nat.land (Nat.shiftRight x k) 1

/-- Passes the numbers with a bit and those without it on. -/
noncomputable def split (k : Nat) (next : List Nat → List Nat → Bool) (l : List Nat) : Bool :=
  fold (fun x r ones zeros => pick (bit k x) (r (x :: ones) zeros) (r ones (x :: zeros))) next l [] []

theorem split_eq (k : Nat) (next : List Nat → List Nat → Bool) (l : List Nat) : split k next l =
    next (l.filter fun x => bit k x != 0).reverse (l.filter fun x => !(bit k x != 0)).reverse := by
  have h : ∀ ones zeros,
      l.foldr (fun x r ones zeros => pick (bit k x) (r (x :: ones) zeros) (r ones (x :: zeros))) next ones zeros =
        next ((l.filter fun x => bit k x != 0).reverse ++ ones) ((l.filter fun x => !(bit k x != 0)).reverse ++ zeros) := by
    induction l with
    | nil => intro ones zeros; rfl
    | cons x l ih =>
      intro ones zeros
      rw [foldr_cons, pick_eq, ih, ih]
      by_cases hx : bit k x = 0 <;> simp [hx]
  rw [split, fold_eq, h, append_nil, append_nil]

/-- True for lists of at most one member, else a given value. -/
noncomputable def short (l : List Nat) (b : Bool) : Bool := List.rec true (fun _ t _ => List.rec true (fun _ _ _ => b) t) l

theorem short_eq {b : Bool} (h : short l b = true) : l.Nodup ∨ b = true := by
  match l with
  | [] => exact .inl nodup_nil
  | [x] => exact .inl (nodup_singleton x)
  | _ :: _ :: _ => exact .inr h

/-- No two members are equal, found by splitting the list at each of its `n` low bits, the highest first. -/
noncomputable def distinct (n : Nat) : List Nat → Bool :=
  Nat.rec (fun l => short l false) (fun k r l => short l (split k (fun ones zeros => Bool.rec false (r zeros) (r ones)) l)) n

theorem nodup_of_filter {p : α → Bool} {l : List α} (h₁ : (l.filter p).Nodup)
    (h₂ : (l.filter (!p ·)).Nodup) : l.Nodup := by
  refine (filter_append_perm p l).nodup_iff.1 (nodup_append.2 ⟨h₁, h₂, fun a ha b hb hab => ?_⟩)
  have hpa := (mem_filter.1 ha).2
  have hpb := (mem_filter.1 hb).2
  simp [← hab, hpa] at hpb

theorem nodup_of_distinct (h : distinct n l = true) : l.Nodup := by
  induction n generalizing l with
  | zero => exact (short_eq h).resolve_right Bool.false_ne_true
  | succ n ih =>
    refine (short_eq h).elim id fun hsplit => ?_
    rw [split_eq] at hsplit
    change (Bool.rec false (distinct n _) (distinct n _) : Bool) = true at hsplit
    cases hones : distinct n (l.filter fun x => bit n x != 0).reverse with
    | false => rw [hones] at hsplit; cases hsplit
    | true =>
      rw [hones] at hsplit
      exact nodup_of_filter (nodup_reverse.1 (ih hones)) (nodup_reverse.1 (ih hsplit))

/-- Numbers of `w` bits in one number, the first one lowest. -/
def pack (w : Nat) (l : List Nat) : Nat := l.foldr (fun x r => Nat.add x (Nat.mul (Nat.pow 2 w) r)) 0

/-- One of the numbers that are packed into a number. -/
def look (w t k : Nat) : Nat := Nat.mod (Nat.shiftRight t (Nat.mul w k)) (Nat.pow 2 w)

theorem look_pack {w : Nat} (h : ∀ x ∈ l, x < 2 ^ w) (hk : k < l.length) : look w (pack w l) k = l[k] := by
  change pack w l >>> (w * k) % 2 ^ w = l[k]
  induction l generalizing k with
  | nil => cases hk
  | cons x l ih =>
    have hx := h x (by simp)
    have hpack : pack w (x :: l) = x + 2 ^ w * pack w l := rfl
    cases k with
    | zero => simp [hpack, Nat.mod_eq_of_lt hx]
    | succ k =>
      have hdiv : (x + 2 ^ w * pack w l) / 2 ^ w = pack w l := by
        rw [Nat.add_mul_div_left _ _ (by positivity), Nat.div_eq_of_lt hx, Nat.zero_add]
      rw [hpack, Nat.mul_succ, Nat.add_comm (w * k), Nat.shiftRight_add, Nat.shiftRight_eq_div_pow _ w, hdiv]
      exact ih (fun y hy => h y (by simp [hy])) (by simpa using hk)

/-! ## The weights in one number -/

theorem repeat_lt (hf : ∀ s < 2 ^ 32, f s < 2 ^ 32) (n : Nat) (hs : s < 2 ^ 32) : Nat.repeat f n s < 2 ^ 32 := by
  induction n with
  | zero => exact hs
  | succ n ih => exact hf _ ih

theorem shift_lt (hs : s < 2 ^ 32) : shift s < 2 ^ 32 := by
  refine Nat.xor_lt_two_pow ?_ ?_
  · rw [Nat.shiftRight_eq_div_pow]
    omega
  · have := Nat.mod_lt s (y := 2) (by decide)
    omega

theorem feed_lt (b : Nat) (hs : s < 2 ^ 32) : feed s b < 2 ^ 32 := by
  rw [feed_eq]
  refine Nat.xor_lt_two_pow (repeat_lt (fun _ => shift_lt) 8 ?_) ?_
  · have := Nat.mod_lt (s ^^^ b) (y := 2 ^ 8) (by decide)
    omega
  · exact (Nat.shiftRight_le s 8).trans_lt hs

theorem feedBytes_lt (n : Nat) (w : Nat) (hs : s < 2 ^ 32) : feedBytes n s w < 2 ^ 32 := by
  induction n generalizing s w with
  | zero => exact hs
  | succ n ih => exact ih _ (feed_lt _ hs)

/-- What each byte leaves in the register. -/
def bytes : Nat := pack 32 ((List.range 256).map (Nat.repeat shift 8))

/-- The register after a byte of zero. -/
def feedZero (t s : Nat) : Nat := Nat.xor (look 32 t (Nat.mod s 256)) (Nat.shiftRight s 8)

theorem feedZero_bytes (s : Nat) : feedZero bytes s = feed s 0 := by
  have hlt : ∀ x ∈ (List.range 256).map (Nat.repeat shift 8), x < 2 ^ 32 := by
    intro x hx
    obtain ⟨b, hb, rfl⟩ := mem_map.1 hx
    have := mem_range.1 hb
    exact repeat_lt (fun _ => shift_lt) 8 (by omega)
  have hs : s % 256 < ((List.range 256).map (Nat.repeat shift 8)).length := by
    rw [length_map, length_range]
    omega
  rw [feed_eq, Nat.xor_zero, show 2 ^ 8 = 256 from rfl]
  change look 32 bytes (s % 256) ^^^ (s >>> 8) = _
  rw [bytes, look_pack hlt hs, getElem_map, getElem_range]

/-- The register after an entry of zero. -/
def feedZeros (t s : Nat) : Nat :=
  feedZero t (feedZero t (feedZero t (feedZero t (feedZero t (feedZero t (feedZero t (feedZero t s)))))))

theorem feedZeros_bytes (s : Nat) : feedZeros bytes s = idle s := by
  simp only [feedZeros, feedZero_bytes]
  rfl

/-- The register and what entries of zero make of it. -/
noncomputable def orbit (t n : Nat) : Nat → List Nat :=
  Nat.rec (fun _ => []) (fun _ r s => s :: force (feedZeros t s) r) n

theorem orbit_bytes (n s : Nat) : orbit bytes n s = (List.range n).map fun k => Nat.repeat idle k s := by
  induction n generalizing s with
  | zero => rfl
  | succ n ih =>
    change s :: force (feedZeros bytes s) (orbit bytes n) = _
    rw [force_eq, feedZeros_bytes, ih, range_succ_eq_map, map_cons, map_map]
    congr 1
    exact map_congr_left fun k _ => repeat_add idle k 1 s

/-- The weights of an entry 1 and of an entry -1 before up to 255 entries. -/
noncomputable def weights : Nat := force bytes fun t => pack 32 (orbit t 256 0xCCAA009E ++ orbit t 256 0x44660075)

theorem feedEntry_one : feedEntry 0 1 = 0xCCAA009E := by
  rw [feedEntry]
  simp only [feedBytes, feed_eq]
  decide +kernel

theorem feedEntry_neg_one : feedEntry 0 (-1) = 0x44660075 := by
  rw [feedEntry]
  simp only [feedBytes, feed_eq]
  decide +kernel

theorem look_weights (hk : k < 256) (neg : Bool) : look 32 weights (256 * neg.toNat + k) = weight k neg := by
  have hidle : ∀ s < 2 ^ 32, idle s < 2 ^ 32 := fun s => feedBytes_lt 8 _
  have hlist : weights = pack 32 ((List.range 256).map (weight · false) ++ (List.range 256).map (weight · true)) := by
    rw [weights, force_eq, orbit_bytes, orbit_bytes, ← feedEntry_one, ← feedEntry_neg_one]
    rfl
  have hlt : ∀ x ∈ (List.range 256).map (weight · false) ++ (List.range 256).map (weight · true), x < 2 ^ 32 := by
    intro x hx
    simp only [mem_append, mem_map] at hx
    rcases hx with ⟨i, -, rfl⟩ | ⟨i, -, rfl⟩ <;>
      exact repeat_lt hidle i (feedBytes_lt 8 _ (by decide))
  have hlen : 256 * neg.toNat + k < ((List.range 256).map (weight · false) ++ (List.range 256).map (weight · true)).length := by
    cases neg <;> simp <;> omega
  rw [hlist, look_pack hlt hlen]
  cases neg <;> simp [hk]

end Checksum

open Checksum

/-! ## One qubit -/

namespace Single

/-- The part of the checksum that depends on the Clifford. -/
noncomputable def register (t n : Nat) : Nat :=
  xorSum (fun j => look 32 t (256 * ((action n).image j).neg.toNat + (4 * (3 - ((action n).image j).pauli) + (3 - j)))) 4

theorem checksum_eq (n : Nat) : (action n).checksum = blank 4 ^^^ register weights n := by
  rw [Checksum.checksum_eq (proper n), register]
  refine congrArg _ (xorSum_congr fun j hj => ?_)
  rw [look_weights (by omega)]

theorem registers_distinct : (force weights fun t => distinct 32 ((List.range 24).map (register t))) = true := by
  decide +kernel

theorem checksum_inj {m n : Nat} (hm : m < size) (hn : n < size) (h : (action m).checksum = (action n).checksum) :
    m = n := by
  rw [checksum_eq, checksum_eq, Nat.xor_right_inj] at h
  have hdistinct := registers_distinct
  rw [force_eq] at hdistinct
  exact inj_on_of_nodup_map (nodup_of_distinct hdistinct) (mem_range.2 hm) (mem_range.2 hn) h

end Single

/-! ## Two qubits -/

namespace Pair

/-- An image as one number. -/
def code (x : Image) : Nat := 2 * x.pauli + x.neg.toNat

/-- The codes of the images of X, Y and Z. -/
structure Codes where
  x : Nat
  y : Nat
  z : Nat
  deriving DecidableEq

/-- The codes of an action on one qubit. -/
def Codes.of (a : Action) : Codes := ⟨code (a.image 1), code (a.image 2), code (a.image 3)⟩

/-- The codes of the Cliffords of one qubit. -/
def codes : List Codes :=
  [⟨2, 4, 6⟩, ⟨4, 6, 2⟩, ⟨6, 2, 4⟩, ⟨2, 5, 7⟩, ⟨4, 7, 3⟩, ⟨6, 3, 5⟩, ⟨3, 4, 7⟩, ⟨5, 6, 3⟩, ⟨7, 2, 5⟩, ⟨3, 5, 6⟩,
   ⟨5, 7, 2⟩, ⟨7, 3, 4⟩, ⟨6, 5, 2⟩, ⟨2, 7, 4⟩, ⟨4, 3, 6⟩, ⟨6, 4, 3⟩, ⟨2, 6, 5⟩, ⟨4, 2, 7⟩, ⟨7, 5, 3⟩, ⟨3, 7, 5⟩,
   ⟨5, 3, 7⟩, ⟨7, 4, 2⟩, ⟨3, 6, 4⟩, ⟨5, 2, 6⟩]

theorem codes_eq : codes = (List.range 24).map fun n => Codes.of (Single.action n) := rfl

/-- Where the image of a pair of coded Paulis under an action stands among the weights, when it is the first one of its
row. -/
def place (r : Action) (c d : Nat) : Nat :=
  256 * (((c % 2 == 1) != (d % 2 == 1)) != (r.image (4 * (c / 2) + d / 2)).neg).toNat +
    16 * (15 - (r.image (4 * (c / 2) + d / 2)).pauli)

/-- All places of an action. -/
def places (r : Action) : Nat := pack 16 ((List.range 64).map fun i => place r (i / 8) (i % 8))

/-- The weight of one column. -/
def column (t p i j : Nat) : Nat := look 32 t (Nat.add (look 16 p i) j)

/-- The weights of four columns. -/
def four (t p i j : Nat) (c : Codes) (s : Nat) : Nat :=
  Nat.xor (Nat.xor (Nat.xor (Nat.xor s (column t p i (Nat.add j 3))) (column t p (Nat.add i c.x) (Nat.add j 2)))
    (column t p (Nat.add i c.y) (Nat.add j 1))) (column t p (Nat.add i c.z) j)

/-- The part of the checksum that depends on the Clifford. -/
def register (t p x y z : Nat) (c : Codes) : Nat := four t p z 0 c (four t p y 4 c (four t p x 8 c (four t p 0 12 c 0)))

variable {n : Nat} {a : Action}

theorem code_lt (ha : a.Proper n) {i : Nat} (hi : i < n) : code (a.image i) < 2 * n := by
  have := ha.image_lt hi
  have := Bool.toNat_le (a.image i).neg
  unfold code
  omega

theorem look_places (r : Action) {c d : Nat} (hc : c < 8) (hd : d < 8) :
    look 16 (places r) (8 * c + d) = place r c d := by
  have hlt : ∀ x ∈ (List.range 64).map fun i => place r (i / 8) (i % 8), x < 2 ^ 16 := by
    intro x hx
    obtain ⟨i, -, rfl⟩ := mem_map.1 hx
    unfold place
    have := Bool.toNat_le (((i / 8 % 2 == 1) != (i % 8 % 2 == 1)) != (r.image (4 * (i / 8 / 2) + i % 8 / 2)).neg)
    omega
  have hlen : 8 * c + d < ((List.range 64).map fun i => place r (i / 8) (i % 8)).length := by
    rw [length_map, length_range]
    omega
  rw [places, look_pack hlt hlen, getElem_map, getElem_range, show (8 * c + d) / 8 = c by omega,
    show (8 * c + d) % 8 = d by omega]

/-- A column of a tail after Cliffords of the qubits, by the codes of these. -/
theorem column_weights (r : Action) {b : Action} (ha : a.Proper 4) (hb : b.Proper 4) {j : Nat} (hj : j < 16) :
    column weights (places r) (8 * code (a.image (j / 4)) + code (b.image (j % 4))) (15 - j) =
      weight (16 * (15 - ((Action.mul r (both a b)).image j).pauli) + (15 - j))
        ((Action.mul r (both a b)).image j).neg := by
  have himg := Action.image_pair ha.length hb.length (x := j / 4) (y := j % 4) (by omega) (by omega)
  rw [Nat.div_add_mod] at himg
  have hlen : j < (both a b).length := (both_proper ha hb).length ▸ hj
  rw [Action.image_mul hlen, both, himg]
  change look 32 weights (look 16 (places r) _ + (15 - j)) = _
  have hcode : ∀ x : Image, code x / 2 = x.pauli ∧ (code x % 2 == 1) = x.neg := by
    rintro ⟨p, _ | _⟩ <;> simp [code]; omega
  rw [look_places r (code_lt ha (by omega)) (code_lt hb (by omega)), place, (hcode _).1, (hcode _).1, (hcode _).2,
    (hcode _).2, Nat.add_assoc, look_weights (by omega)]

theorem register_eq (t p : Nat) {b : Action} (ha : code (a.image 0) = 0) (hb : code (b.image 0) = 0) :
    xorSum (fun j => column t p (8 * code (a.image (j / 4)) + code (b.image (j % 4))) (15 - j)) 16 =
      register t p (8 * (Codes.of a).x) (8 * (Codes.of a).y) (8 * (Codes.of a).z) (Codes.of b) := by
  simp only [xorSum, Nat.reduceDiv, Nat.reduceMod, Nat.reduceSub, ha, hb, Nat.mul_zero, Nat.zero_add, Nat.add_zero]
  simp only [register, four, Codes.of, Nat.add_eq, Nat.zero_add]
  rfl

/-- The register of the Clifford with a tail and a Clifford of each qubit, the second one first. -/
noncomputable def registerAt (q a b : Nat) : Nat :=
  register weights (places (tailAction q)) (8 * (Codes.of (Single.action a)).x) (8 * (Codes.of (Single.action a)).y)
    (8 * (Codes.of (Single.action a)).z) (Codes.of (Single.action b))

theorem checksum_eq (hn : n < size) :
    (action n).checksum = blank 16 ^^^ registerAt (n / 576) (n / 24 % 24) (n % 24) := by
  have hzero : ∀ n < 24, code ((Single.action n).image 0) = 0 := by decide
  rw [Checksum.checksum_eq (proper hn), action_eq hn, registerAt,
    ← register_eq _ _ (hzero _ (by omega)) (hzero _ (by omega))]
  refine congrArg _ (xorSum_congr fun j hj => ?_)
  exact (column_weights _ (Single.proper _) (Single.proper _) hj).symm

/-! ### All Cliffords -/

/-- The registers of all Cliffords with one of the tails, before a list. -/
noncomputable def registers (t q : Nat) (rest : List Nat) : List Nat :=
  force (places (tailAction q)) fun p =>
    fold (fun a rest => force (Nat.mul 8 a.x) fun x => force (Nat.mul 8 a.y) fun y => force (Nat.mul 8 a.z) fun z =>
      fold (fun b rest => force (register t p x y z b) fun r => r :: rest) rest codes) rest codes

theorem registers_distinct : (force weights fun t => distinct 32 (fold (registers t) [] (List.range 20))) = true := by
  decide +kernel

theorem foldr_append {α β : Type} (f : α → List β) (l : List α) (rest : List β) :
    l.foldr (fun x rest => f x ++ rest) rest = l.flatMap f ++ rest := by
  induction l with
  | nil => rfl
  | cons x l ih => rw [foldr_cons, ih, flatMap_cons, append_assoc]

theorem registers_eq : fold (registers weights) [] (List.range 20) =
    (List.range 20).flatMap fun q => (List.range 24).flatMap fun a => (List.range 24).map fun b => registerAt q a b := by
  have hblock : ∀ q rest, registers weights q rest = (codes.flatMap fun a => codes.map fun b =>
      register weights (places (tailAction q)) (8 * a.x) (8 * a.y) (8 * a.z) b) ++ rest := by
    intro q rest
    simp only [registers, force_eq, fold_eq, foldr_cons_eq_append]
    exact foldr_append _ codes rest
  rw [fold_eq, funext fun q => funext fun rest => hblock q rest, foldr_append, append_nil, codes_eq]
  simp only [flatMap_map, map_map]
  rfl

theorem eq_of_mem_flatMap {α β : Type} {l : List α} {f : α → List β} (h : (l.flatMap f).Nodup) {a b : α} (ha : a ∈ l)
    (hb : b ∈ l) {x : β} (hxa : x ∈ f a) (hxb : x ∈ f b) : a = b := by
  by_contra hne
  have : Std.Symm (Function.onFun List.Disjoint f) := ⟨fun _ _ h => h.symm⟩
  exact (nodup_flatMap.1 h).2.forall ha hb hne hxa hxb

/-- A function of three numbers whose values are distinct is injective. -/
theorem inj_of_nodup {F : Nat → Nat → Nat → Nat} {k l m : Nat} (h : ((List.range k).flatMap fun q =>
    (List.range l).flatMap fun a => (List.range m).map fun b => F q a b).Nodup) {q a b q' a' b' : Nat} (hq : q < k)
    (ha : a < l) (hb : b < m) (hq' : q' < k) (ha' : a' < l) (hb' : b' < m) (hF : F q a b = F q' a' b') :
    q = q' ∧ a = a' ∧ b = b' := by
  have hrow : ∀ {q a b x}, b < m → F q a b = x → x ∈ (List.range m).map fun b => F q a b := fun hb hx =>
    mem_map.2 ⟨_, mem_range.2 hb, hx⟩
  have hblock : ∀ {q a b x}, a < l → b < m → F q a b = x → x ∈ (List.range l).flatMap fun a =>
      (List.range m).map fun b => F q a b := fun ha hb hx => mem_flatMap.2 ⟨_, mem_range.2 ha, hrow hb hx⟩
  obtain rfl : q = q' := eq_of_mem_flatMap h (mem_range.2 hq) (mem_range.2 hq') (hblock ha hb hF)
    (hblock ha' hb' rfl)
  have hinner := (nodup_flatMap.1 h).1 q (mem_range.2 hq)
  obtain rfl : a = a' := eq_of_mem_flatMap hinner (mem_range.2 ha) (mem_range.2 ha') (hrow hb hF) (hrow hb' rfl)
  have hlast := (nodup_flatMap.1 hinner).1 a (mem_range.2 ha)
  exact ⟨rfl, rfl, inj_on_of_nodup_map hlast (mem_range.2 hb) (mem_range.2 hb') hF⟩

theorem checksum_inj {m : Nat} (hm : m < size) (hn : n < size) (h : (action m).checksum = (action n).checksum) :
    m = n := by
  have hm' : m < 11520 := hm
  have hn' : n < 11520 := hn
  rw [checksum_eq hm, checksum_eq hn, Nat.xor_right_inj] at h
  have hdistinct := registers_distinct
  rw [force_eq, registers_eq] at hdistinct
  have := inj_of_nodup (nodup_of_distinct hdistinct) (by omega) (by omega) (by omega) (by omega) (by omega) (by omega) h
  omega

end Pair

/-! ## Both groups -/

theorem find?_ofFn {size : Nat} {f : Nat → Nat} (h : ∀ m < size, ∀ n < size, f m = f n → m = n) {n : Nat}
    (hn : n < size) : Checksum.find? (Array.ofFn fun i : Fin size => f i) (f n) = some n := by
  refine Array.findIdx?_eq_some_iff_getElem.2 ⟨by simpa using hn, by simp, fun j hj => ?_⟩
  simp only [Array.getElem_ofFn, beq_iff_eq]
  intro hjn
  exact absurd (h j (hj.trans hn) n hn hjn) hj.ne

namespace Group

variable {g : Group} {n : Nat}

theorem index?_action (hn : n < g.size) : g.index? (g.action n) = some n :=
  match g with
  | .single => find?_ofFn (f := fun n => (Single.action n).checksum) (fun _ hm _ => Single.checksum_inj hm) hn
  | .pair => find?_ofFn (f := fun n => (Pair.action n).checksum) (fun _ hm _ => Pair.checksum_inj hm) hn

theorem mul?_eq {m : Nat} (hm : m < g.size) (hn : n < g.size) :
    ∃ k < g.size, g.mul? m n = some k ∧ g.action k = Action.mul (g.action m) (g.action n) := by
  obtain ⟨k, hk, h⟩ := exists_mul hm hn
  exact ⟨k, hk, by rw [mul?, h, index?_action hk], h.symm⟩

theorem inverse?_eq (hn : n < g.size) : ∃ k < g.size, g.inverse? n = some k ∧
    Action.mul (g.action k) (g.action n) = Action.identity g.dimension := by
  obtain ⟨k, hk, h, hinv⟩ := exists_inverse hn
  exact ⟨k, hk, by rw [inverse?, hinv, index?_action hk], h⟩

end Group

end QubitLab.Clifford
