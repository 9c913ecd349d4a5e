import Mathlib.Data.List.TakeWhile
import QubitLab.Proofs.FluxGroups

/-!
# Numbers of flux pulses

A timed listing with the lines of a program gives the operations of the program, and each of its lines is laid out around
them (`exists_layout`). Numbering the flux pulses (`numberFlux_kernels`) gives a result if there is a measurement and every
kernel with flux pulses has a codeword to count from. It lists the flux pulses of each kernel, unless the first operation of
all is one, and writes their numbers where their codewords stand, unless a codeword is written elsewhere in its line.
-/

namespace QubitLab.Program

open List

/-! ## The layout of lines -/

/-- The place of an operation on a line: what stands before it and behind it. -/
structure Slot where
  before : List Char
  after : List Char

/-- A line with places for operations. -/
structure Bundle where
  head : List Char
  slots : List Slot
  rest : List Char

def Slot.text (s : Slot) (name : String) : List Char := s.before ++ name.toList ++ s.after

/-- The line with operations at its places. -/
def Bundle.text (b : Bundle) (names : List String) : List Char :=
  b.head ++ (List.zipWith Slot.text b.slots names).flatten ++ b.rest

/-- After what separates it from the one before, an operation stands between blanks, with its register behind it. -/
def Slot.Proper (s : Slot) (lead : List Char) : Prop :=
  (∃ blanks, s.before = lead ++ blanks ∧ ∀ c ∈ blanks, Chars.isBlank c) ∧
  ∃ register blanks, s.after = ' ' :: register ++ blanks ∧ ' ' ∉ register ∧ ∀ c ∈ blanks, Chars.isBlank c

/-- A bundle begins with "bs " and a character for its interval. Its operations stand one behind the other, with bars
between blanks in between; only another "bs " may follow. -/
structure Bundle.Proper (b : Bundle) : Prop where
  head : ∃ start c, b.head = start ++ "bs ".toList ++ [c] ∧ ¬ "bs ".toList <:+: start ++ "bs".toList
  slots : ∃ s ss, b.slots = s :: ss ∧ s.Proper [] ∧
    ∀ t ∈ ss, ∃ c d, Chars.isBlank c ∧ Chars.isBlank d ∧ t.Proper [c, '|', d]
  rest : b.rest = [] ∨ "bs ".toList <+: b.rest

/-- Each codeword that is to be changed stands only at its place, in the line as it was changed so far. -/
def ApartFrom (rest : List Char) : List Char → List Slot → List Edit → Prop
  | done, s :: ss, c :: cs =>
    (c.old = c.new ∨
      Chars.OnlyAt c.old.toList (done ++ s.before)
        (s.after ++ (List.zipWith Slot.text ss (cs.map (·.old))).flatten ++ rest)) ∧
    ApartFrom rest (done ++ s.text c.new) ss cs
  | _, _, _ => True

def Bundle.Apart (b : Bundle) (cs : List Edit) : Prop := ApartFrom b.rest b.head b.slots cs

theorem apply_of_apart {c : Edit} (hold : c.old ≠ "") {s : Slot} {done behind : List Char}
    (h : c.old = c.new ∨ Chars.OnlyAt c.old.toList (done ++ s.before) (s.after ++ behind)) :
    c.apply (String.ofList (done ++ s.text c.old ++ behind)) = String.ofList (done ++ s.text c.new ++ behind) := by
  rcases h with h | h
  · rw [← h, Edit.apply, ← h, replace_self hold, id]
  · have hne : c.old.toList ≠ [] := fun hnil => hold (String.toList_injective hnil)
    have hsplit (name : String) : done ++ s.text name ++ behind = (done ++ s.before) ++ name.toList ++ (s.after ++ behind) := by
      simp [Slot.text]
    rw [hsplit, hsplit, Edit.apply, Text.replace, onChars, String.toList_ofList, Chars.replace_of_onlyAt hne h]

/-- Codewords that stand apart are written where they stand. -/
theorem foldl_apply_apart {rest : List Char} {ss : List Slot} {cs : List Edit} (hlen : ss.length = cs.length)
    (hold : ∀ c ∈ cs, c.old ≠ "") {done : List Char} (h : ApartFrom rest done ss cs) :
    cs.foldl (fun l c => c.apply l)
        (String.ofList (done ++ (List.zipWith Slot.text ss (cs.map (·.old))).flatten ++ rest)) =
      String.ofList (done ++ (List.zipWith Slot.text ss (cs.map (·.new))).flatten ++ rest) := by
  induction ss generalizing cs done with
  | nil =>
    obtain rfl := eq_nil_of_length_eq_zero hlen.symm
    rfl
  | cons s ss ih =>
    cases cs with
    | nil => cases hlen
    | cons c cs =>
      obtain ⟨hc, hcs⟩ := forall_mem_cons.1 hold
      obtain ⟨hapart, hrest⟩ := h
      rw [append_assoc] at hapart
      have hstep := apply_of_apart hc hapart
      have hnext := ih (Nat.succ.inj hlen) hcs hrest
      simp only [map_cons, zipWith_cons_cons, flatten_cons, foldl_cons, append_assoc] at hstep hnext ⊢
      rw [hstep, hnext]

/-! ## Reading lines -/

theorem exists_trim (s : List Char) : ∃ b a, s = b ++ Chars.trim s ++ a ∧ (∀ c ∈ b, Chars.isBlank c) ∧
    (∀ c ∈ a, Chars.isBlank c) ∧ ∀ c ∈ (Chars.trim s).head?, Chars.isBlank c = false := by
  have hstart : s = s.takeWhile Chars.isBlank ++ Chars.dropStart Chars.isBlank s := takeWhile_append_dropWhile.symm
  have hhead : ∀ c ∈ (Chars.dropStart Chars.isBlank s).head?, Chars.isBlank c = false := by
    intro c hc
    have := head?_dropWhile_not Chars.isBlank s
    rw [Chars.dropStart, Option.mem_def] at hc
    rwa [hc] at this
  rw [Chars.trim, Chars.trimBy]
  generalize Chars.dropStart Chars.isBlank s = u at hstart hhead
  have hend : u = Chars.dropEnd Chars.isBlank u ++ (u.reverse.takeWhile Chars.isBlank).reverse := by
    rw [Chars.dropEnd, ← reverse_append, takeWhile_append_dropWhile, reverse_reverse]
  refine ⟨s.takeWhile Chars.isBlank, (u.reverse.takeWhile Chars.isBlank).reverse, ?_, fun c hc => mem_takeWhile_imp hc,
    fun c hc => mem_takeWhile_imp (mem_reverse.1 hc), fun c hc => hhead c ?_⟩
  · rw [append_assoc, ← hend, ← hstart]
  · rw [hend, head?_append, hc]
    rfl

variable {registers : List (String × Value)}

/-- An instruction is an operation with its register behind it. -/
theorem exists_slot {s op : String} {targets : Value}
    (h : operationOf registers (Text.trim s) = .ok (op, targets)) (lead : List Char) :
    op ≠ "" ∧ ∃ t : Slot, t.Proper lead ∧ lead ++ s.toList = t.text op := by
  obtain ⟨b, a, hs, hb, ha, hhead⟩ := exists_trim s.toList
  rw [operationOf] at h
  split at h
  · next op' r hsplit =>
    obtain ⟨v, -, h⟩ := bind_eq_ok.1 h
    cases h
    obtain ⟨o, rest, hchars, rfl, hrest⟩ := map_eq_cons_iff.1 hsplit
    obtain ⟨r', _, rfl, rfl, hnil⟩ := map_eq_cons_iff.1 hrest
    obtain rfl := map_eq_nil_iff.1 hnil
    obtain ⟨htrim, hr⟩ := Chars.of_splitOn_eq_pair (by simp) hchars
    have htoList : (Text.trim s).toList = Chars.trim s.toList := String.toList_ofList
    rw [htoList] at htrim
    constructor
    · intro ho
      have hnil : o = [] := by simpa using congrArg String.toList ho
      rw [htrim, hnil] at hhead
      exact absurd (hhead ' ' rfl) (by decide)
    · refine ⟨⟨lead ++ b, ' ' :: r' ++ a⟩, ⟨⟨b, rfl, hb⟩, r', a, rfl, ?_, ha⟩, ?_⟩
      · intro hm
        obtain ⟨x, y, rfl⟩ := append_of_mem hm
        exact hr ⟨x, y, by simp⟩
      · rw [hs, htrim, Slot.text, String.toList_ofList]
        simp
  · cases h

theorem exists_leads (acc s : List Char) : ∃ p ps leads, bundleParts acc s = p :: ps ∧ leads.length = ps.length ∧
    (∀ l ∈ leads, ∃ c d, Chars.isBlank c ∧ Chars.isBlank d ∧ l = [c, '|', d]) ∧
    acc.reverse ++ s = p.toList ++ (List.zipWith (fun l q => l ++ q.toList) leads ps).flatten := by
  fun_induction bundleParts acc s with
  | case1 acc => exact ⟨_, [], [], rfl, rfl, by simp, by simp⟩
  | case2 acc c d r h ih =>
    obtain ⟨p, ps, leads, hparts, hlen, hleads, htext⟩ := ih
    rw [Bool.and_eq_true] at h
    refine ⟨_, p :: ps, [c, '|', d] :: leads, by rw [hparts], by simp [hlen], ?_, ?_⟩
    · exact forall_mem_cons.2 ⟨⟨c, d, h.1, h.2, rfl⟩, hleads⟩
    · rw [zipWith_cons_cons, flatten_cons, append_assoc, ← htext]
      simp
  | case3 acc c d r h ih => simpa using ih
  | case4 acc c r h ih => simpa using ih

theorem exists_slots {t : Int} {i : Nat} {parts : List String} {part : List Event}
    (h : parts.mapM (instructionEvent registers t i) = .ok part) (leads : List (List Char))
    (hlen : leads.length = parts.length) :
    ∃ (ops : List Operation) (slots : List Slot), part = ops.map Operation.event ∧ slots.length = ops.length ∧
      (∀ o ∈ ops, o.line = i ∧ o.name ≠ "") ∧ List.Forall₂ Slot.Proper slots leads ∧
      (List.zipWith (fun l q => l ++ q.toList) leads parts).flatten =
        (List.zipWith Slot.text slots (ops.map (·.name))).flatten := by
  replace h := mapM_eq_ok.1 h
  induction h generalizing leads with
  | nil => exact ⟨[], [], rfl, rfl, by simp, by rw [eq_nil_of_length_eq_zero hlen]; exact .nil, by simp⟩
  | @cons s e parts part hs _ ih =>
    obtain ⟨lead, leads, rfl⟩ := exists_cons_of_length_eq_add_one hlen
    obtain ⟨ops, slots, rfl, hslots, hops, hproper, htext⟩ := ih leads (Nat.succ.inj hlen)
    obtain ⟨⟨op, targets⟩, hop, he⟩ := bind_eq_ok.1 hs
    cases he
    obtain ⟨hne, slot, hslot, htextSlot⟩ := exists_slot hop lead
    refine ⟨⟨t, op, targets, i⟩ :: ops, slot :: slots, rfl, by simp [hslots],
      forall_mem_cons.2 ⟨⟨rfl, hne⟩, hops⟩, .cons hslot hproper, ?_⟩
    rw [zipWith_cons_cons, flatten_cons, htextSlot, htext]
    rfl

/-- The lines of a timed listing are laid out around their operations. -/
theorem exists_lineBundle {l : String} {i : Nat} {part : List Event}
    (h : lineEvents registers l i = .ok part) : ∃ ops : List Operation, part = ops.map Operation.event ∧
      (∀ o ∈ ops, o.line = i ∧ o.name ≠ "") ∧
      (ops ≠ [] → Text.contains "bs" l = true ∧
        ∃ b : Bundle, b.Proper ∧ b.slots.length = ops.length ∧ l.toList = b.text (ops.map (·.name))) := by
  rw [lineEvents] at h
  split at h
  · cases h
    exact ⟨[], rfl, by simp, by simp⟩
  · next hbs =>
    obtain ⟨t, -, h⟩ := bind_eq_ok.1 h
    obtain ⟨body, hbody, h⟩ := bind_eq_ok.1 h
    -- the line is cut at the first "bs ", and what is read ends at the next
    obtain ⟨x, hx, rfl⟩ : ∃ x, (Chars.splitOn "bs ".toList l.toList)[1]? = some x ∧ String.ofList x = body := by
      rw [orFail_eq_ok, Text.splitOn, getElem?_map] at hbody
      exact Option.map_eq_some_iff.1 hbody
    obtain ⟨start, rest, hline, hleast, hrest⟩ := Chars.exists_of_second (by simp) hx
    rw [String.toList_ofList] at h
    obtain ⟨p, ps, leads, hparts, hlen, hleads, htext⟩ : ∃ p ps leads,
        (if Text.contains "|" l then bundleParts [] (x.drop 1) else [String.ofList (x.drop 1)]) = p :: ps ∧
        leads.length = ps.length ∧ (∀ l ∈ leads, ∃ c d, Chars.isBlank c ∧ Chars.isBlank d ∧ l = [c, '|', d]) ∧
        x.drop 1 = p.toList ++ (List.zipWith (fun l q => l ++ q.toList) leads ps).flatten := by
      split
      · exact exists_leads [] (x.drop 1)
      · exact ⟨_, [], [], rfl, rfl, by simp, by simp⟩
    simp only [hparts] at h
    obtain ⟨ops, slots, rfl, hslots, hops, hproper, hbody⟩ := exists_slots h ([] :: leads) (by simp [hlen])
    refine ⟨ops, rfl, hops, fun _ => ⟨by simpa using hbs, ?_⟩⟩
    obtain ⟨slot, slots, hslot, hlater, rfl⟩ := forall₂_cons_right_iff.1 hproper
    obtain ⟨o, ops, rfl⟩ := exists_cons_of_length_eq_add_one hslots.symm
    have hdrop : x.drop 1 = (List.zipWith Slot.text (slot :: slots) ((o :: ops).map (·.name))).flatten := by
      rw [htext, ← hbody]
      rfl
    obtain ⟨c, x, rfl⟩ : ∃ c y, x = c :: y := by
      refine exists_cons_of_ne_nil ?_
      rintro rfl
      obtain ⟨-, register, blanks, hafter, -⟩ := hslot
      have hlength := congrArg List.length hdrop
      simp [Slot.text, hafter] at hlength
    refine ⟨⟨start ++ "bs ".toList ++ [c], slot :: slots, rest⟩, ⟨⟨start, c, rfl, ?_⟩, ⟨slot, slots, rfl, hslot, ?_⟩, hrest⟩,
      hslots, ?_⟩
    · rintro ⟨a, b, hab⟩
      have hwhole : start ++ "bs ".toList = a ++ "bs ".toList ++ (b ++ " ".toList) := by
        rw [← append_assoc, hab]
        simp
      have hearlier := hleast a (b ++ " ".toList ++ (c :: x ++ rest)) (by rw [hline, hwhole]; simp)
      have hlength := congrArg List.length hab
      simp at hlength
      omega
    · intro s hs
      obtain ⟨n, hn⟩ := mem_iff_getElem?.1 hs
      obtain ⟨lead, hlead, hs⟩ := getElem?_of_forall₂ hlater hn
      obtain ⟨c, d, hc, hd, rfl⟩ := hleads lead (mem_of_getElem? hlead)
      exact ⟨c, d, hc, hd, hs⟩
    · rw [hline, Bundle.text, ← hdrop]
      simp

/-! ## Numbered listings -/

/-- The lines of a timed listing with operations are those of the program, with a time in front of them. -/
def Numbered (program timed : String) : Prop :=
  ∀ (i : Nat) (t : String), (Text.fileLines timed)[i]? = some t → Text.contains "bs" t = true →
    ∃ (l : String) (time : List Char), (Text.fileLines program)[i]? = some l ∧
      (∀ c ∈ time, c.isDigit ∨ Chars.isBlank c ∨ c = ':') ∧ t.toList = time ++ l.toList

/-- What is in front of a bundle stays in front of its operations. -/
theorem Bundle.exists_behind {b : Bundle} (hb : b.Proper) {names : List String} {time l : List Char}
    (htime : ∀ c ∈ time, c.isDigit ∨ Chars.isBlank c ∨ c = ':') (h : b.text names = time ++ l) :
    ∃ b' : Bundle, b'.Proper ∧ b'.slots = b.slots ∧ l = b'.text names := by
  obtain ⟨start, c, hhead, hfirst⟩ := hb.head
  have hnotime : 'b' ∉ time := fun hm => absurd (htime 'b' hm) (by decide)
  -- the time ends before the first "bs "
  obtain ⟨y, rfl, hl⟩ : ∃ y, start = time ++ y ∧
      l = y ++ ("bs ".toList ++ [c] ++ (List.zipWith Slot.text b.slots names).flatten ++ b.rest) := by
    rw [text, hhead] at h
    simp only [append_assoc] at h ⊢
    rcases append_eq_append_iff.1 h with ⟨x, rfl, hx⟩ | ⟨y, rfl, hy⟩
    · cases x with
      | nil => exact ⟨[], by simp, hx.symm⟩
      | cons d x =>
        obtain rfl : 'b' = d := (List.cons.inj hx).1
        exact absurd (by simp) hnotime
    · exact ⟨y, rfl, hy⟩
  refine ⟨⟨y ++ "bs ".toList ++ [c], b.slots, b.rest⟩, ⟨⟨y, c, rfl, fun hin => hfirst ?_⟩, hb.slots, hb.rest⟩, rfl, ?_⟩
  · rw [append_assoc]
    exact hin.trans (suffix_append time _).isInfix
  · rw [hl, text]
    simp

/-- The operations of a line, in order. -/
def onLine (i : Nat) (ops : List Operation) : List Operation := ops.filter (·.line = i)

theorem onLine_flatten {n : Nat} (rows : List (List Operation))
    (h : ∀ (i : Nat) (row : List Operation), rows[i]? = some row → ∀ o ∈ row, o.line = n + i) (i : Nat) :
    onLine (n + i) rows.flatten = rows[i]?.getD [] := by
  induction rows generalizing n i with
  | nil => rfl
  | cons row rows ih =>
    have hhead := h 0 row rfl
    have htail (j : Nat) (r : List Operation) (hr : rows[j]? = some r) (o : Operation) (ho : o ∈ r) : o.line = n + 1 + j := by
      rw [h (j + 1) r (by rwa [getElem?_cons_succ]) o ho]
      omega
    rw [onLine, flatten_cons, filter_append]
    cases i with
    | zero =>
      rw [filter_eq_self.2 (by simpa using hhead), filter_eq_nil_iff.2, append_nil]
      · rfl
      · intro o ho
        obtain ⟨r, hr, ho⟩ := mem_flatten.1 ho
        obtain ⟨j, hj⟩ := mem_iff_getElem?.1 hr
        simp only [htail j r hj o ho, decide_eq_true_eq]
        omega
    | succ i =>
      rw [filter_eq_nil_iff.2, nil_append, getElem?_cons_succ, ← ih htail i, onLine]
      · exact congrArg (List.filter · rows.flatten) (by rw [Nat.add_right_comm, Nat.add_assoc])
      · intro o ho
        simp [hhead o ho]

/-- The line is laid out around some operations. -/
def Bundle.Lays (b : Bundle) (l : String) (ops : List Operation) : Prop :=
  b.slots.length = ops.length ∧ l.toList = b.text (ops.map (·.name)) ∧ (ops ≠ [] → b.Proper)

/-- Each line of a program is laid out around its operations. -/
def Layout (program : String) (ops : List Operation) (bundle : Nat → Bundle) : Prop :=
  ∀ i l, (Text.fileLines program)[i]? = some l → (bundle i).Lays l (onLine i ops)

/-- The operations of a numbered listing, and the layout of the lines of its program around them. -/
theorem exists_layout {program timed : String} {es : List Event} (h : timeline program timed = .ok es)
    (hnum : Numbered program timed) :
    ∃ (ops : List Operation) (bundle : Nat → Bundle), es = ops.map Operation.event ∧
      (∀ o ∈ ops, o.line < (Text.fileLines program).length ∧ o.name ≠ "") ∧ Layout program ops bundle := by
  obtain ⟨registers, -, h⟩ := bind_eq_ok.1 h
  obtain ⟨parts, hparts, h⟩ := bind_eq_ok.1 h
  cases h
  obtain ⟨rows, rfl, hrows⟩ := exists_map_of_forall₂ ((mapM_eq_ok.1 hparts).imp fun _ _ hpart => exists_lineBundle hpart)
  -- the operations of a row are on the line of the row, and a row with operations has a line of the program
  have hrow (i : Nat) (row : List Operation) (hi : rows[i]? = some row) : (∀ o ∈ row, o.line = i ∧ o.name ≠ "") ∧
      (row ≠ [] → ∃ (l : String) (b : Bundle), (Text.fileLines program)[i]? = some l ∧ b.Lays l row) := by
    obtain ⟨⟨t, j⟩, ht, hops, hlaid⟩ := getElem?_of_forall₂ hrows.flip hi
    obtain ⟨hi', rfl⟩ : (Text.fileLines timed)[i]? = some t ∧ i = j := by
      rw [getElem?_zipIdx, Nat.zero_add] at ht
      obtain ⟨t', ht', heq⟩ := Option.map_eq_some_iff.1 ht
      cases heq
      exact ⟨ht', rfl⟩
    refine ⟨hops, fun hne => ?_⟩
    obtain ⟨hbs, b, hb, hlen, htext⟩ := hlaid hne
    obtain ⟨l, time, hl, htime, hsplit⟩ := hnum i t hi' hbs
    obtain ⟨b', hb', hslots, hl'⟩ := b.exists_behind hb htime (htext.symm.trans hsplit)
    exact ⟨l, b', hl, hslots ▸ hlen, hl', fun _ => hb'⟩
  have honLine (i : Nat) : onLine i rows.flatten = rows[i]?.getD [] := by
    have := onLine_flatten (n := 0) rows (fun i row hi o ho => by rw [((hrow i row hi).1 o ho).1, Nat.zero_add]) i
    rwa [Nat.zero_add] at this
  have hbundle (i : Nat) : ∃ b : Bundle, ∀ l, (Text.fileLines program)[i]? = some l → b.Lays l (onLine i rows.flatten) := by
    rw [honLine]
    by_cases hempty : rows[i]?.getD [] = []
    · rw [hempty]
      cases hl : (Text.fileLines program)[i]? with
      | none => exact ⟨⟨[], [], []⟩, by simp⟩
      | some l => exact ⟨⟨l.toList, [], []⟩, fun l' hl' => by cases hl'; simp [Bundle.Lays, Bundle.text]⟩
    · cases hi : rows[i]? with
      | none => simp [hi] at hempty
      | some row =>
        rw [hi, Option.getD_some] at hempty
        obtain ⟨l, b, hl, hb⟩ := (hrow i row hi).2 hempty
        exact ⟨b, fun l' hl' => by cases hl.symm.trans hl'; exact hb⟩
  choose bundle hbundle using hbundle
  refine ⟨rows.flatten, bundle, map_flatten.symm, fun o ho => ?_, hbundle⟩
  obtain ⟨row, hmem, ho⟩ := mem_flatten.1 ho
  obtain ⟨i, hi⟩ := mem_iff_getElem?.1 hmem
  obtain ⟨hops, hline⟩ := hrow i row hi
  obtain ⟨l, b, hl, -⟩ := hline (ne_nil_of_mem ho)
  obtain ⟨hi', hname⟩ := hops o ho
  exact ⟨hi' ▸ (List.getElem?_eq_some_iff.1 hl).1, hname⟩

/-! ## Numbering -/

theorem numberFlux_eq_ok {program timed : String} {ops : List Operation}
    (hes : timeline program timed = .ok (ops.map Operation.event))
    (hops : ∀ o ∈ ops, o.line < (Text.fileLines program).length) {lines : List String} {groups : List (List Event)} :
    numberFlux program timed = .ok (lines, groups) ↔
      kernels ops ≠ [] ∧ List.Forall₂ Grouped (laterKernels ops) groups ∧
      lines = written (Text.fileLines program)
        (((laterKernels ops).map flux).zipIdx.flatMap fun x => groupEdits (x.2 + 1) x.1) := by
  have hreplace {gs : List (List Event)} (hgs : List.Forall₂ Grouped (laterKernels ops) gs) :=
    replaceFlux_groups hgs fun g hg o ho => hops o (mem_of_mem_laterKernels hg ho)
  rw [numberFlux, hes]
  constructor
  · intro h
    obtain ⟨_, hevents, h⟩ := bind_eq_ok.1 h
    cases hevents
    obtain ⟨gs, hgs, h⟩ := bind_eq_ok.1 h
    obtain ⟨hk, hgrouped⟩ := fluxGroups_eq_ok.1 hgs
    obtain ⟨ls, hls, h⟩ := bind_eq_ok.1 h
    cases h
    exact ⟨hk, hgrouped, Except.ok.inj (hls.symm.trans (hreplace hgrouped))⟩
  · rintro ⟨hk, hgrouped, rfl⟩
    refine bind_eq_ok.2 ⟨_, rfl, bind_eq_ok.2 ⟨groups, fluxGroups_eq_ok.2 ⟨hk, hgrouped⟩, ?_⟩⟩
    exact bind_eq_ok.2 ⟨_, hreplace hgrouped, rfl⟩

/-- Where codewords stand apart, their line is the one with the new codewords. -/
theorem Bundle.Lays.foldl_apply {b : Bundle} {l : String} {cs : List (Operation × String)}
    (h : b.Lays l (cs.map (·.1))) (hname : ∀ c ∈ cs, c.1.name ≠ "") (hapart : b.Apart (cs.map fun c => c.1.edit c.2)) :
    (cs.map fun c => c.1.edit c.2).foldl (fun l c => c.apply l) l = String.ofList (b.text (cs.map (·.2))) := by
  obtain ⟨hlen, hl, -⟩ := h
  have hfold := foldl_apply_apart (by rw [hlen, length_map, length_map])
    (forall_mem_map.2 hname) hapart
  rw [map_map, map_map] at hfold
  rw [← String.ofList_toList (s := l), hl, map_map]
  exact hfold

/-- Numbering of flux pulses, for a numbered listing whose operations are known. -/
theorem numberFlux_kernels (program timed : String) (es : List Event) (hes : timeline program timed = .ok es)
    (hnum : Numbered program timed) :
    ∃ ops : List Operation, es = ops.map Operation.event ∧ (∃ bundle, Layout program ops bundle) ∧
      ((∃ r, numberFlux program timed = .ok r) ↔ kernels ops ≠ [] ∧ ∀ g ∈ laterKernels ops, Anchored g) ∧
      ∀ lines groups, numberFlux program timed = .ok (lines, groups) →
        (groups = (kernels ops).map (fun g => (relativeFlux g).map Operation.event) ↔
          ¬ BeginsWithFlux ops ∧ ∀ g ∈ kernels ops, AnchoredFirst g) ∧
        ∀ bundle, ¬ BeginsWithFlux ops → Layout program ops bundle →
          (∀ i, (bundle i).Apart (((codewords ops).filter (·.1.line = i)).map fun c => c.1.edit c.2)) →
          lines = (Text.fileLines program).mapIdx fun i _ =>
            String.ofList ((bundle i).text (((codewords ops).filter (·.1.line = i)).map (·.2))) := by
  obtain ⟨ops, bundle, rfl, hops, hlays⟩ := exists_layout hes hnum
  have hlines (o : Operation) (ho : o ∈ ops) : o.line < (Text.fileLines program).length := (hops o ho).1
  refine ⟨ops, rfl, ⟨bundle, hlays⟩, ?_, fun lines groups h => ?_⟩
  · simp only [← Grouped.exists_iff]
    rw [← exists_forall₂_iff]
    constructor
    · rintro ⟨⟨lines, groups⟩, h⟩
      obtain ⟨hk, hgroups, -⟩ := (numberFlux_eq_ok hes hlines).1 h
      exact ⟨hk, groups, hgroups⟩
    · rintro ⟨hk, groups, hgroups⟩
      exact ⟨_, (numberFlux_eq_ok hes hlines).2 ⟨hk, hgroups, rfl⟩⟩
  · obtain ⟨hk, hgroups, rfl⟩ := (numberFlux_eq_ok hes hlines).1 h
    refine ⟨groups_eq_iff hk hgroups, fun bundle hfirst hlays hapart => ext_getElem? fun i => ?_⟩
    rw [map_flux_laterKernels hfirst, ← written_codewords fun o ho => (hops o ho).2, getElem?_written,
      getElem?_mapIdx, filter_map]
    refine Option.map_congr fun l hl => ?_
    have hcodewords : onLine i ops = ((codewords ops).filter (·.1.line = i)).map (·.1) := by
      conv_lhs => rw [onLine, ← map_fst_codewords ops, filter_map]
      rfl
    refine Bundle.Lays.foldl_apply (hcodewords ▸ hlays i l hl) (fun c hc => ?_) (hapart i)
    have hmem : c.1 ∈ (codewords ops).map (·.1) := mem_map.2 ⟨c, mem_of_mem_filter hc, rfl⟩
    rw [map_fst_codewords] at hmem
    exact (hops c.1 hmem).2

/-- A program with two flux pulses in its kernel. -/
def pulsedProgram : String := "smis s0, \x7b0\x7d\nbs 1 x s0 | fl_cw_03 s0 | fl_cw_04 s0 | measz s0\n"

def pulsedListing : String := "smis s0, \x7b0\x7d\n0:bs 1 x s0 | fl_cw_03 s0 | fl_cw_04 s0 | measz s0\n"

def pulsedOperations (w x y z : Value) : List Operation :=
  [⟨1, "x", w, 1⟩, ⟨1, "fl_cw_03", x, 1⟩, ⟨1, "fl_cw_04", y, 1⟩, ⟨1, "measz", z, 1⟩]

def pulsedBundle : Nat → Bundle
  | 0 => ⟨"smis s0, \x7b0\x7d\n".toList, [], []⟩
  | _ => ⟨"bs 1".toList, [⟨[' '], " s0".toList⟩, ⟨" | ".toList, " s0".toList⟩, ⟨" | ".toList, " s0".toList⟩,
      ⟨" | ".toList, " s0\n".toList⟩], []⟩

theorem fileLines_pulsedProgram : Text.fileLines pulsedProgram =
    ["smis s0, \x7b0\x7d\n", "bs 1 x s0 | fl_cw_03 s0 | fl_cw_04 s0 | measz s0\n"] := rfl

theorem numbered_pulsed : Numbered pulsedProgram pulsedListing := by
  have hlisting : Text.fileLines pulsedListing =
      ["smis s0, \x7b0\x7d\n", "0:bs 1 x s0 | fl_cw_03 s0 | fl_cw_04 s0 | measz s0\n"] := rfl
  intro i t ht hbs
  rw [hlisting] at ht
  rw [fileLines_pulsedProgram]
  match i with
  | 0 =>
    cases ht
    exact absurd hbs (by decide)
  | 1 =>
    refine ⟨_, ['0', ':'], rfl, forall_mem_cons.2 ⟨.inl rfl, ?_⟩, by cases ht; rfl⟩
    exact forall_mem_singleton.2 (.inr (.inr rfl))
  | n + 2 => simp at ht

theorem exists_pulsedOperations {ops : List Operation}
    (h : (ops.map Operation.event).map (fun e => (e.start.int?, e.operation.text?, e.line.int?)) =
      [(some 1, some "x", some 1), (some 1, some "fl_cw_03", some 1), (some 1, some "fl_cw_04", some 1),
        (some 1, some "measz", some 1)]) : ∃ w x y z, ops = pulsedOperations w x y z := by
  have hof {o : Operation} {s : Int} {n : String} {l : Nat}
      (h : (o.event.start.int?, o.event.operation.text?, o.event.line.int?) = (some s, some n, some (l : Int))) :
      o = ⟨s, n, o.targets, l⟩ := by
    simp only [Prod.mk.injEq] at h
    obtain ⟨hs, hn, hl⟩ := h
    cases hs
    cases hn
    rw [← Int.ofNat_inj.1 (Option.some.inj hl)]
  rw [map_map] at h
  obtain ⟨a, _, rfl, ha, h⟩ := map_eq_cons_iff.1 h
  obtain ⟨b, _, rfl, hb, h⟩ := map_eq_cons_iff.1 h
  obtain ⟨c, _, rfl, hc, h⟩ := map_eq_cons_iff.1 h
  obtain ⟨d, _, rfl, hd, h⟩ := map_eq_cons_iff.1 h
  obtain rfl := map_eq_nil_iff.1 h
  exact ⟨a.targets, b.targets, c.targets, d.targets, by rw [pulsedOperations, ← hof ha, ← hof hb, ← hof hc, ← hof hd]⟩

theorem kernels_pulsedOperations (w x y z : Value) : kernels (pulsedOperations w x y z) = [pulsedOperations w x y z] := by
  have hmeas : Text.contains "meas" "x" = false ∧ Text.contains "meas" "fl_cw_03" = false ∧
      Text.contains "meas" "fl_cw_04" = false ∧ Text.contains "meas" "measz" = true := ⟨rfl, rfl, rfl, rfl⟩
  simp [pulsedOperations, kernels, Operation.has, hmeas]

theorem contains_fl_pulsed : Text.contains "fl" "x" = false ∧ Text.contains "fl" "fl_cw_03" = true ∧
    Text.contains "fl" "fl_cw_04" = true ∧ Text.contains "fl" "measz" = false := ⟨rfl, rfl, rfl, rfl⟩

theorem codewords_pulsedOperations (w x y z : Value) : codewords (pulsedOperations w x y z) =
    (pulsedOperations w x y z).zip ["x", "fl_cw_01", "fl_cw_00", "measz"] := by
  have hone : "fl_cw_" ++ twoDigits 1 = "fl_cw_01" := rfl
  rw [codewords, unmeasured, kernels_pulsedOperations]
  simp [numbered, pulsedOperations, Operation.has, contains_fl_pulsed, hone]

theorem flux_pulsedOperations (w x y z : Value) :
    flux (pulsedOperations w x y z) = [⟨1, "fl_cw_03", x, 1⟩, ⟨1, "fl_cw_04", y, 1⟩] := by
  simp [flux, pulsedOperations, Operation.has, contains_fl_pulsed]

theorem layout_pulsed (w x y z : Value) : Layout pulsedProgram (pulsedOperations w x y z) pulsedBundle := by
  have hline : "bs 1 x s0 | fl_cw_03 s0 | fl_cw_04 s0 | measz s0\n".toList =
      (pulsedBundle 1).text ["x", "fl_cw_03", "fl_cw_04", "measz"] := rfl
  have hafter (blanks : List Char) (hblanks : ∀ c ∈ blanks, Chars.isBlank c) :
      ∃ register bs, ' ' :: "s0".toList ++ blanks = ' ' :: register ++ bs ∧ ' ' ∉ register ∧ ∀ c ∈ bs, Chars.isBlank c :=
    ⟨_, blanks, rfl, by decide, hblanks⟩
  intro i l hl
  rw [fileLines_pulsedProgram] at hl
  match i with
  | 0 =>
    cases hl
    exact ⟨rfl, rfl, fun h => absurd rfl h⟩
  | 1 =>
    cases hl
    refine ⟨rfl, hline, fun _ => ⟨⟨[], '1', rfl, by decide⟩, ⟨_, _, rfl, ?_, ?_⟩, .inl rfl⟩⟩
    · exact ⟨⟨[' '], rfl, forall_mem_singleton.2 rfl⟩, hafter [] (by simp)⟩
    · intro t ht
      simp only [mem_cons, not_mem_nil, or_false] at ht
      refine ⟨' ', ' ', rfl, rfl, ?_⟩
      rcases ht with rfl | rfl | rfl
      · exact ⟨⟨[], rfl, by simp⟩, hafter [] (by simp)⟩
      · exact ⟨⟨[], rfl, by simp⟩, hafter [] (by simp)⟩
      · exact ⟨⟨[], rfl, by simp⟩, hafter ['\n'] (forall_mem_singleton.2 rfl)⟩
  | n + 2 => simp at hl

theorem apart_pulsedBundle : (pulsedBundle 1).Apart
    [⟨1, "x", "x"⟩, ⟨1, "fl_cw_03", "fl_cw_01"⟩, ⟨1, "fl_cw_04", "fl_cw_00"⟩, ⟨1, "measz", "measz"⟩] :=
  ⟨.inl rfl, .inr (by decide +kernel), .inr (by decide +kernel), .inl rfl, trivial⟩

theorem numberFlux_kernels_pulsed : ∃ ops : List Operation,
    timeline pulsedProgram pulsedListing = .ok (ops.map Operation.event) ∧ Numbered pulsedProgram pulsedListing ∧
    numberFlux pulsedProgram pulsedListing =
      .ok (["smis s0, \x7b0\x7d\n", "bs 1 x s0 | fl_cw_01 s0 | fl_cw_00 s0 | measz s0\n"],
        (kernels ops).map fun g => (relativeFlux g).map Operation.event) := by
  have hdata : ((timeline pulsedProgram pulsedListing).toOption.map fun es =>
      es.map fun e => (e.start.int?, e.operation.text?, e.line.int?)) =
      some [(some 1, some "x", some 1), (some 1, some "fl_cw_03", some 1), (some 1, some "fl_cw_04", some 1),
        (some 1, some "measz", some 1)] := by decide +kernel
  obtain ⟨es, hes, hdata⟩ := Option.map_eq_some_iff.1 hdata
  rw [toOption_eq_some] at hes
  obtain ⟨ops, rfl, -, hiff, hall⟩ := numberFlux_kernels _ _ es hes numbered_pulsed
  obtain ⟨w, x, y, z, rfl⟩ := exists_pulsedOperations hdata
  have hx : ¬ (⟨1, "x", w, 1⟩ : Operation).has "fl" = true := by simp [Operation.has, contains_fl_pulsed]
  have hfirst : ¬ BeginsWithFlux (pulsedOperations w x y z) := by
    rintro ⟨o, ho, hfl⟩
    cases ho
    exact hx hfl
  have hanchor : anchor? (pulsedOperations w x y z) = some ⟨1, "fl_cw_03", x, 1⟩ := by
    have hcw : Text.contains "cw" "fl_cw_03" = true := rfl
    simp [anchor?, flux_pulsedOperations, Operation.has, hcw]
  have hanchored : ∀ g ∈ kernels (pulsedOperations w x y z), AnchoredFirst g := by
    rw [kernels_pulsedOperations]
    intro g hg f hf
    obtain rfl := mem_singleton.1 hg
    rw [flux_pulsedOperations] at hf
    cases hf
    exact ⟨_, hanchor, rfl⟩
  have hapart (i : Nat) : (pulsedBundle i).Apart
      (((codewords (pulsedOperations w x y z)).filter (·.1.line = i)).map fun c => c.1.edit c.2) := by
    rw [codewords_pulsedOperations]
    rcases i with _ | _ | n
    · trivial
    · exact apart_pulsedBundle
    · trivial
  have hlater : ∀ g ∈ laterKernels (pulsedOperations w x y z), Anchored g := by
    rw [laterKernels, kernels_pulsedOperations]
    intro g hg
    obtain rfl := mem_singleton.1 hg
    exact .inr ⟨_, by rw [← hanchor, anchor?, anchor?, pulsedOperations, flux_cons_of_not hx]; rfl⟩
  obtain ⟨⟨lines, groups⟩, hnumber⟩ := hiff.2 ⟨by simp [kernels_pulsedOperations], hlater⟩
  obtain ⟨hgroups, hlines⟩ := hall lines groups hnumber
  refine ⟨_, hes, numbered_pulsed, ?_⟩
  rw [hnumber, hlines pulsedBundle hfirst (layout_pulsed w x y z) hapart, ← hgroups.2 ⟨hfirst, hanchored⟩,
    fileLines_pulsedProgram, codewords_pulsedOperations]
  refine congrArg (fun ls => Except.ok (ls, groups)) ?_
  change [String.ofList ((pulsedBundle 0).text []),
    String.ofList ((pulsedBundle 1).text ["x", "fl_cw_01", "fl_cw_00", "measz"])] = _
  decide +kernel

/-- A program that begins with a flux pulse. -/
def leadingProgram : String :=
  "smis s0, \x7b0\x7d\nsmit t1, \x7b(2, 0)\x7d\nstart:\n    bs 1    fl_cw_03 t1\n    bs 1    measz s0\n"

def leadingListing : String :=
  "smis s0, \x7b0\x7d\nsmit t1, \x7b(2, 0)\x7d\nstart:\n   0:    bs 1    fl_cw_03 t1\n   1:    bs 1    measz s0\n"

/-- A flux pulse at the beginning is not numbered, and it is missing in its group. -/
theorem numberFlux_leading :
    ((timeline leadingProgram leadingListing).toOption.map fun es => es.map (·.operation.text?)) =
      some [some "fl_cw_03", some "measz"] ∧
    ((numberFlux leadingProgram leadingListing).toOption.map fun r => (r.1, r.2.map List.length)) =
      some (Text.fileLines leadingProgram, [0]) :=
  ⟨by decide +kernel, by decide +kernel⟩

end QubitLab.Program
