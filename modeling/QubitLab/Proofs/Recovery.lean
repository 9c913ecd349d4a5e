import QubitLab.Console.Clifford
import QubitLab.Proofs.Checksum
import QubitLab.Proofs.ProductTables

/-!
# Benchmarking sequences recover

For valid Cliffords all look-ups succeed: `netOf_eq` gives the net Clifford of a sequence and `recoveryOf_eq` the one
that makes it a wanted one. So a drawn sequence that ends with its recovery has the wanted net Clifford
(`benchmarkingSequence_netOf`), and the search in the product table finds the same recovery (`closedSequence_agrees`).
-/

namespace QubitLab

open List

/-! ## Drawn numbers -/

namespace Random.Mersenne

theorem atMost_le (top tries : Nat) (m : Mersenne) : (atMost top tries m).1 ≤ top := by
  induction tries generalizing m with
  | zero => exact Nat.zero_le _
  | succ tries ih =>
    simp only [atMost]
    split
    · assumption
    · exact ih _

theorem draw_spec {bound : Nat} (hb : 0 < bound) (count : Nat) (m : Mersenne) :
    (m.draw bound count).1.length = count ∧ ∀ n ∈ (m.draw bound count).1, n < bound := by
  unfold draw
  split
  · simp +contextual [mem_replicate, hb]
  · -- the numbers that are drawn stand in front of those drawn before
    let step (p : List Nat × Mersenne) (_ : Nat) := ((atMost (bound - 1) 4096 p.2).1 :: p.1, (atMost (bound - 1) 4096 p.2).2)
    have h : ∀ (l : List Nat) (out : List Nat) (m : Mersenne), (∀ n ∈ out, n < bound) →
        (l.foldl step (out, m)).1.length = out.length + l.length ∧ ∀ n ∈ (l.foldl step (out, m)).1, n < bound := by
      intro l
      induction l with
      | nil => exact fun out m hout => ⟨rfl, hout⟩
      | cons _ l ih =>
        intro out m hout
        have hle := atMost_le (bound - 1) 4096 m
        obtain ⟨hlen, hlt⟩ := ih ((atMost (bound - 1) 4096 m).1 :: out) (atMost (bound - 1) 4096 m).2
          (by simpa using ⟨by omega, hout⟩)
        exact ⟨by rw [foldl_cons, hlen, length_cons, length_cons]; omega, hlt⟩
    obtain ⟨hlen, hlt⟩ := h (List.range count) [] m (by simp)
    exact ⟨by simpa using hlen, by simpa using hlt⟩

end Random.Mersenne

namespace Clifford

open Action

variable {g : Group} {n w : Nat} {ns : List Int} {top count : Int}

theorem Group.action_inj {m : Nat} (hm : m < g.size) (hn : n < g.size) (h : g.action m = g.action n) : m = n := by
  have := (index?_action hm).symm.trans ((congrArg g.index? h).trans (index?_action hn))
  exact Option.some.inj this

/-! ## Net Cliffords -/

theorem Group.net?_eq {ns : List Nat} (h : ∀ n ∈ ns, n < g.size) :
    ∃ k < g.size, g.net? ns = some k ∧ g.action k = inTurn g.dimension (ns.map g.action) := by
  induction ns using List.reverseRecOn with
  | nil => exact ⟨0, by cases g <;> decide, rfl, action_zero⟩
  | append_singleton ns n ih =>
    obtain ⟨k, hk, hnet, hact⟩ := ih fun m hm => h m (by simp [hm])
    obtain ⟨l, hl, hmul, hlact⟩ := mul?_eq (h n (by simp)) hk
    have hstep : g.net? (ns ++ [n]) = (g.net? ns).bind fun acc => g.mul? n acc := by
      simp only [net?, foldlM_append, foldlM_cons, foldlM_nil, bind_pure]
      rfl
    refine ⟨l, hl, ?_, ?_⟩
    · rw [hstep, hnet, Option.bind_some, hmul]
    · rw [map_append, map_singleton, inTurn_concat, hlact, hact]

theorem cliffordNumber_eq (hn : n < g.size) : cliffordNumber g n = .ok n := by
  unfold cliffordNumber
  rw [if_neg (by omega), if_pos (by omega), Int.toNat_natCast]

theorem netOf_eq (h : ∀ n ∈ ns, n.natAbs < g.size) :
    ∃ k < g.size, netOf g ns = .ok k ∧ g.action k = inTurn g.dimension (ns.map fun n => g.action n.natAbs) := by
  have hnumbers : (ns.mapM fun n => cliffordNumber g n.natAbs) = .ok (ns.map Int.natAbs) := by
    rw [mapM_eq_ok, forall₂_map_right_iff]
    exact forall₂_same.2 fun n hn => cliffordNumber_eq (h n hn)
  obtain ⟨k, hk, hnet, hact⟩ := Group.net?_eq
    (by simpa using h : ∀ n ∈ ns.map Int.natAbs, n < g.size)
  refine ⟨k, hk, ?_, by rw [hact, map_map]; rfl⟩
  rw [netOf, hnumbers]
  change orFail .value (g.net? (ns.map Int.natAbs)) = _
  rw [hnet, orFail]

/-- The recovery of valid numbers turns what they do into the wanted Clifford. -/
theorem recoveryOf_eq (h : ∀ n ∈ ns, n.natAbs < g.size) (hw : w < g.size) :
    ∃ r < g.size, recoveryOf g (.ok w) ns = .ok r ∧
      mul (g.action r) (inTurn g.dimension (ns.map fun n => g.action n.natAbs)) = g.action w := by
  obtain ⟨k, hk, hnet, hact⟩ := netOf_eq h
  obtain ⟨b, hb, hback, hundo⟩ := Group.inverse?_eq hk
  obtain ⟨r, hr, hmul, hract⟩ := Group.mul?_eq hw hb
  refine ⟨r, hr, ?_, ?_⟩
  · rw [recoveryOf, hnet]
    change (orFail .value (g.inverse? k) >>= fun back => orFail .value (g.mul? w back)) = _
    rw [hback]
    change orFail .value (g.mul? w b) = _
    rw [hmul, orFail]
  · rw [← hact, hract, mul_assoc' (g.proper hw) (g.proper hb) (g.proper hk), hundo, mul_identity (g.proper hw)]

/-- Numbers followed by one that turns what they do into a Clifford have that net Clifford. -/
theorem netOf_concat (h : ∀ n ∈ ns, n.natAbs < g.size) {r : Nat} (hw : w < g.size) (hr : r < g.size)
    (hact : mul (g.action r) (inTurn g.dimension (ns.map fun n => g.action n.natAbs)) = g.action w) :
    netOf g (ns ++ [(r : Int)]) = .ok w := by
  have hall : ∀ n ∈ ns ++ [(r : Int)], n.natAbs < g.size := by
    intro n hn
    rcases mem_append.1 hn with hn | hn
    · exact h n hn
    · rw [mem_singleton.1 hn, Int.natAbs_natCast]
      exact hr
  obtain ⟨k, hk, hnet, hkact⟩ := netOf_eq hall
  rw [map_append, map_singleton, inTurn_concat, Int.natAbs_natCast, hact] at hkact
  rw [hnet, g.action_inj hk hw hkact]

/-! ## Drawn sequences -/

/-- A sequence as it is drawn: so many Cliffords below a bound. -/
def Drawn (g : Group) (top count : Int) (ns : List Int) : Prop :=
  (ns.length : Int) = count ∧ ∀ n ∈ ns, 0 ≤ n ∧ n < g.size ∧ n < top

/-- The sequence with a Clifford after each of its members if there is one. -/
def interleaved (extra? : Option Int) (ns : List Int) : List Int :=
  match extra? with
  | none => ns
  | some x => interleave x ns

theorem forall_mem_interleaved {P : Int → Prop} {extra? : Option Int} (hns : ∀ n ∈ ns, P n)
    (hextra : ∀ x ∈ extra?, P x) : ∀ n ∈ interleaved extra? ns, P n := by
  intro n hn
  cases extra? with
  | none => exact hns n hn
  | some x =>
    obtain ⟨k, hk, hn⟩ := mem_flatMap.1 hn
    rcases mem_cons.1 hn with rfl | hn
    · exact hns _ hk
    · exact mem_singleton.1 hn ▸ hextra x rfl

theorem Drawn.natAbs_lt (h : Drawn g top count ns) (extra? : Option Int)
    (hextra : ∀ x ∈ extra?, x.natAbs < g.size) : ∀ n ∈ interleaved extra? ns, n.natAbs < g.size :=
  forall_mem_interleaved (fun n hn => by have := h.2 n hn; omega) hextra

theorem drawSequence_eq (htop : 1 ≤ top) (hcount : 0 ≤ count) (extra? : Option Int) (m : Random.Mersenne) :
    ∃ ns m', drawSequence g top count extra? m = .ok (interleaved extra? ns, m') ∧ Drawn g top count ns := by
  have hsize : 1 ≤ (g.size : Int) := by cases g <;> decide
  obtain ⟨ns, m', hrandom, hdrawn⟩ : ∃ ns m', randomCliffords (min g.size top) count m = .ok (ns, m') ∧
      Drawn g top count ns := by
    unfold randomCliffords
    by_cases h0 : count = 0
    · exact ⟨[], m, by rw [if_pos h0]; rfl, by simp [h0], by simp⟩
    · obtain ⟨hlen, hlt⟩ := Random.Mersenne.draw_spec
        (by omega : 0 < (min (g.size : Int) top).toNat) count.toNat m
      rw [if_neg h0, if_neg (by omega)]
      refine ⟨(m.draw (min (g.size : Int) top).toNat count.toNat).1.map Int.ofNat, _, rfl, ?_, ?_⟩
      · rw [length_map, hlen]
        omega
      · intro n hn
        obtain ⟨k, hk, rfl⟩ := mem_map.1 hn
        have := hlt k hk
        change 0 ≤ (k : Int) ∧ (k : Int) < g.size ∧ (k : Int) < top
        omega
  refine ⟨ns, m', ?_, hdrawn⟩
  rw [drawSequence, hrandom]
  cases extra? <;> rfl

/-- Every drawn sequence gets a recovery, and with it the wanted net Clifford. -/
theorem Drawn.exists_recovery (h : Drawn g top count ns) {extra? : Option Int}
    (hextra : ∀ x ∈ extra?, x.natAbs < g.size) (hw : w < g.size) :
    ∃ r : Nat, recoveryOf g (.ok w) (interleaved extra? ns) = .ok r ∧
      netOf g (interleaved extra? ns ++ [(r : Int)]) = .ok w := by
  have hvalid := h.natAbs_lt extra? hextra
  obtain ⟨r, hr, hrecovery, hact⟩ := recoveryOf_eq hvalid hw
  exact ⟨r, hrecovery, netOf_concat hvalid hw hr hact⟩

/-! ## The product table of one qubit -/

theorem Action.Proper.toRows_transfer {a : Action} (ha : a.Proper n) : Matrix.toRows (a.transfer n) = a.matrix := by
  refine ext_getElem (by simp [Matrix.toRows, matrix, ha.length]) fun i hi _ => ?_
  refine ext_getElem (by simp [Matrix.toRows, matrix, ha.length]) fun j hj _ => ?_
  simp [Matrix.toRows, matrix, transfer]

namespace Single

/-- The transfer matrices of the Cliffords. -/
def transfers : List (Matrix (Fin 4) (Fin 4) ℤ) := (List.range size).map fun n => (action n).transfer 4

theorem nodup_transfers : transfers.Nodup := by
  refine nodup_range.map_on fun m hm n hn h => ?_
  exact Group.action_inj (g := .single) (mem_range.1 hm) (mem_range.1 hn) (transfer_inj (proper m) (proper n) h)

theorem mul_mem_transfers : ∀ A ∈ transfers, ∀ B ∈ transfers, B * A ∈ transfers := by
  simp only [transfers, forall_mem_map, mem_range]
  intro m hm n hn
  obtain ⟨k, hk, h⟩ := exists_mul hn hm
  exact mem_map.2 ⟨k, mem_range.2 hk, by rw [← transfer_mul (proper m), h]⟩

theorem length_transfers : transfers.length = size := by simp [transfers]

theorem get_transfers (j : Fin transfers.length) : transfers.get j = (action j).transfer 4 := by
  rw [get_eq_getElem]
  simp only [transfers, getElem_map, getElem_range]

theorem toRows_transfers : transfers.map Matrix.toRows = actions.map Action.matrix := by
  simp only [transfers, actions, map_map]
  exact map_congr_left fun n _ => (proper n).toRows_transfer

/-- The table has the numbers of the products. -/
theorem action_productRow {i : Nat} (hi : i < size) : (productRow i).length = size ∧ ∀ j (hj : j < (productRow i).length),
    (productRow i)[j] < size ∧ action (productRow i)[j] = mul (action j) (action i) := by
  obtain ⟨t, htable, ht⟩ := Matrix.productTable_eq nodup_transfers mul_mem_transfers
  obtain ⟨i, rfl⟩ : ∃ k : Fin transfers.length, i = k := ⟨⟨i, length_transfers.symm ▸ hi⟩, rfl⟩
  have hrow : productRow i = List.ofFn fun j => (t i j : Nat) := by
    rw [productRow, productTable, ← toRows_transfers, htable]
    simp [Except.toOption, Matrix.tableOf]
  have hlen : (productRow i).length = size := by rw [hrow, length_ofFn, length_transfers]
  refine ⟨hlen, fun j hj => ?_⟩
  obtain ⟨j, rfl⟩ : ∃ k : Fin transfers.length, j = k := ⟨⟨j, by rwa [length_transfers, ← hlen]⟩, rfl⟩
  have hentry : (productRow i)[(j : Nat)] = (t i j : Nat) := by simp [hrow]
  have hproduct := (ht i j _).1 rfl
  rw [get_transfers, get_transfers, get_transfers, ← transfer_mul (proper i)] at hproduct
  rw [hentry]
  exact ⟨length_transfers ▸ (t i j).2, transfer_inj (proper _) ((proper j).mul (proper i)) hproduct⟩

/-- The place of a Clifford in the row of another one is the recovery from the one to the other. -/
theorem findIdx?_productRow {i r w : Nat} (hi : i < size) (hr : r < size) (hw : w < size)
    (h : mul (action r) (action i) = action w) : (productRow i).findIdx? (· == w) = some r := by
  have hentry : ∀ j (hj : j < (productRow i).length), (productRow i)[j] = w ↔ mul (action j) (action i) = action w := by
    intro j hj
    obtain ⟨hlt, hact⟩ := (action_productRow hi).2 j hj
    exact ⟨fun he => by rw [← hact, he], fun he => Group.action_inj (g := .single) hlt hw (hact.trans he)⟩
  have hrlen : r < (productRow i).length := by rwa [(action_productRow hi).1]
  refine findIdx?_eq_some_iff_getElem.2 ⟨hrlen, by simpa using (hentry r hrlen).2 h, fun j hj => ?_⟩
  simp only [beq_iff_eq, hentry j (hj.trans hrlen)]
  intro hji
  -- undoing `i` leaves `j` and `r`
  obtain ⟨b, hb, hundo⟩ := exists_inverse hi
  have hcancel : ∀ k, mul (mul (action k) (action i)) (action b) = action k := fun k => by
    rw [mul_assoc' (proper k) (proper i) (proper b), mul_eq_identity_comm (proper i) (proper b) hundo,
      mul_identity (proper k)]
  have hjr : action j = action r := by rw [← hcancel j, ← hcancel r, hji, h]
  exact hj.ne (Group.action_inj (g := .single) (hj.trans hr) hr hjr)

end Single

end Clifford

/-! ## Sequences of the console -/

namespace Console

open Clifford

theorem cliffordArg_int {g : Group} {w : Int} (h0 : 0 ≤ w) (hw : w < g.size) : cliffordArg g (.int w) = .ok w.toNat := by
  have hlt : Number.lt (.int w) (.int g.size) = true := by simpa [Number.lt] using hw
  lift w to Nat using h0
  change (if (!Number.lt (.int w) (.int g.size)) = true then fail .assertion >>= _ else cliffordNumber g w) = _
  rw [hlt]
  exact cliffordNumber_eq (by omega)

/-- A sequence is what is drawn, interleaved, and then its recovery. -/
theorem benchmarkingSequence_eq {g : Group} {count wanted top : Int} (extra? : Option Int) {m m' : Random.Mersenne}
    {ns : List Int} {r : Nat} (hns : drawSequence g top count none m = .ok (ns, m'))
    (hr : Clifford.recoveryOf g (cliffordArg g (.int wanted)) (interleaved extra? ns) = .ok r) :
    benchmarkingSequence (.int count) (.int wanted) g top (extra?.elim .null .int) m =
      .ok (interleaved extra? ns ++ [(r : Int)], m') := by
  have hlast : (Clifford.recoveryOf g (cliffordArg g (.int wanted)) (interleaved extra? ns) >>= fun r =>
      pure (interleaved extra? ns ++ [(r : Int)], m')) = .ok (interleaved extra? ns ++ [(r : Int)], m') :=
    bind_eq_ok.2 ⟨r, hr, rfl⟩
  refine bind_eq_ok.2 ⟨count, rfl, ?_⟩
  cases extra? <;> exact bind_eq_ok.2 ⟨(ns, m'), hns, hlast⟩

/-- A drawn sequence ends with the Clifford that gives it the wanted net Clifford: for every list of drawn numbers
there is such a Clifford, and from every state of the generator the sequence is one of these. -/
theorem benchmarkingSequence_netOf (g : Group) (count wanted top : Int) (extra? : Option Int) (hcount : 0 ≤ count)
    (hwanted : 0 ≤ wanted) (hwanted' : wanted < g.size) (htop : 1 ≤ top) (hextra : ∀ x ∈ extra?, x.natAbs < g.size) :
    (∀ ns, Drawn g top count ns → ∃ r : Nat,
      Clifford.recoveryOf g (cliffordArg g (.int wanted)) (interleaved extra? ns) = .ok r ∧
        netOf g (interleaved extra? ns ++ [(r : Int)]) = .ok wanted.toNat) ∧
    ∀ m, ∃ ns r m', benchmarkingSequence (.int count) (.int wanted) g top (extra?.elim .null .int) m =
        .ok (interleaved extra? ns ++ [r], m') ∧
      Drawn g top count ns ∧ netOf g (interleaved extra? ns ++ [r]) = .ok wanted.toNat := by
  have hstream : ∀ ns, Drawn g top count ns → ∃ r : Nat,
      Clifford.recoveryOf g (cliffordArg g (.int wanted)) (interleaved extra? ns) = .ok r ∧
        netOf g (interleaved extra? ns ++ [(r : Int)]) = .ok wanted.toNat := by
    intro ns hns
    rw [cliffordArg_int hwanted hwanted']
    exact hns.exists_recovery hextra (by omega)
  refine ⟨hstream, fun m => ?_⟩
  obtain ⟨ns, m', hdraw, hns⟩ := drawSequence_eq (g := g) htop hcount none m
  obtain ⟨r, hr, hnet⟩ := hstream ns hns
  exact ⟨ns, r, m', benchmarkingSequence_eq extra? hdraw hr, hns, hnet⟩

/-- Random Cliffords with bare controlled-phase gates between them recover to a swap. -/
theorem benchmarkingSequence_netOf_phase :
    ∃ ns r m', benchmarkingSequence (.int 3) (.int 10944) .pair 11520 (.int (-4368)) (Random.Mersenne.seeded 7) =
        .ok (interleaved (some (-4368)) ns ++ [r], m') ∧
      Drawn .pair 11520 3 ns ∧ netOf .pair (interleaved (some (-4368)) ns ++ [r]) = .ok 10944 :=
  (benchmarkingSequence_netOf .pair 3 10944 11520 (some (-4368)) (by decide) (by decide) (by decide) (by decide)
    (by decide)).2 _

/-- The recovery found by checksums is the one found in the product table. -/
theorem closedSequence_agrees (count wanted : Int) (hcount : 0 ≤ count) (hwanted : 0 ≤ wanted) (hwanted' : wanted < 24)
    (m : Random.Mersenne) :
    ∃ seq m', benchmarkingSequence (.int count) (.int wanted) .single 11520 .null m = .ok (seq, m') ∧
      closedSequence (.int count) (.int wanted) m = .ok seq := by
  obtain ⟨ns, m', hdraw, hns⟩ := drawSequence_eq (g := .single) (by decide : (1 : Int) ≤ 11520) hcount none m
  have hvalid := hns.natAbs_lt none (by simp)
  obtain ⟨k, hk, hnet, hkact⟩ := netOf_eq hvalid
  obtain ⟨r, hr, hrecovery, hract⟩ := recoveryOf_eq hvalid (w := wanted.toNat) (show _ < 24 by omega)
  rw [← cliffordArg_int (g := .single) hwanted hwanted'] at hrecovery
  refine ⟨ns ++ [(r : Int)], m', benchmarkingSequence_eq none hdraw hrecovery, ?_⟩
  have hrandom : randomCliffords 24 count m = .ok (ns, m') := by
    obtain ⟨⟨ns', m''⟩, hrandom, heq⟩ := bind_eq_ok.1 hdraw
    cases heq
    exact hrandom
  have hfind : (Single.productRow k).findIdx? (fun (n : Nat) => Number.eq (.int wanted) (.int n)) = some r := by
    have hsame : (fun (n : Nat) => Number.eq (.int wanted) (.int n)) = (· == wanted.toNat) := by
      funext n
      rw [Bool.eq_iff_iff]
      simp only [Number.eq, beq_iff_eq]
      omega
    rw [hsame]
    exact Single.findIdx?_productRow hk hr (show _ < 24 by omega) (by rw [show Single.action k = _ from hkact]; exact hract)
  refine bind_eq_ok.2 ⟨count, rfl, bind_eq_ok.2 ⟨(ns, m'), hrandom, bind_eq_ok.2 ⟨k, hnet, bind_eq_ok.2 ⟨.int wanted, rfl, ?_⟩⟩⟩⟩
  rw [hfind]
  rfl

theorem closedSequence_agrees_flip :
    ∃ seq m', benchmarkingSequence (.int 64) (.int 3) .single 11520 .null (Random.Mersenne.seeded 11) = .ok (seq, m') ∧
      closedSequence (.int 64) (.int 3) (Random.Mersenne.seeded 11) = .ok seq :=
  closedSequence_agrees 64 3 (by decide) (by decide) (by decide) _

end Console

end QubitLab
