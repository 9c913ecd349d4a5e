import Mathlib.Data.List.Nodup
import QubitLab.Circuit.Loader
import QubitLab.Proofs.Playback

/-!
# Qubits of the gates of a program

`targets` reads the numbers of the qubits of a line. A program line is one or more gates with blanks around them, bars
between them and a comment behind them (`GateLine`); its parts are the gates (`GateLine.parts_text`), and the simulator's
line of a gate names the first digit of each of its qubits (`Call.lines_text`). `loadLines_targets_iff`: the qubits stay
the same exactly if their numbers are one digit long, or zero.
-/

namespace QubitLab.Circuit

open List

/-! ## Numbers of qubits -/

/-- The number that digits spell. -/
def numberOf (ds : List Char) : Nat := Decimal.ofDigits (ds.map fun c => c.toNat - 48)

/-- The numbers of the qubits that a line names, each with all its digits. -/
def targets : List Char → List Nat
  | [] => []
  | c :: r => if c = 'q' ∧ leadingDigits r ≠ [] then numberOf (leadingDigits r) :: targets r else targets r

variable {w : List Char} {c : Char}

theorem targets_append (h : 'q' ∉ w) (s : List Char) : targets (w ++ s) = targets s := by
  induction w with
  | nil => rfl
  | cons c w ih =>
    rw [mem_cons, not_or] at h
    rw [cons_append, targets, if_neg fun hq => h.1 hq.1.symm, ih h.2]

theorem qubitNames_append (h : 'q' ∉ w) (s : List Char) : qubitNames (w ++ s) = qubitNames s := by
  induction w with
  | nil => rfl
  | cons c w ih =>
    rw [mem_cons, not_or] at h
    rw [cons_append, qubitNames, ih h.2]
    rintro d r rfl
    exact absurd rfl h.1

/-- The digits of a numeral. -/
structure Numeral where
  first : Char
  more : List Char
  isDigit : ∀ c ∈ first :: more, c.isDigit = true

namespace Numeral

def digits (q : Numeral) : List Char := q.first :: q.more

/-- A numeral of one digit, or of zeros. -/
def IsShort (q : Numeral) : Prop := q.more = [] ∨ ∀ c ∈ q.digits, c = '0'

theorem q_notMem (q : Numeral) : 'q' ∉ q.digits := fun h => absurd (q.isDigit 'q' h) (by decide)

theorem leadingDigits_append (q : Numeral) {s : List Char} (hs : leadingDigits s = []) :
    leadingDigits (q.digits ++ s) = q.digits := by
  rw [leadingDigits, digits, takeWhile_append_of_pos q.isDigit, ← leadingDigits, hs, append_nil]

theorem targets_qubit (q : Numeral) {s : List Char} (hs : leadingDigits s = []) :
    targets ('q' :: (q.digits ++ s)) = numberOf q.digits :: targets s := by
  rw [targets, q.leadingDigits_append hs, if_pos ⟨rfl, by simp [digits]⟩, targets_append q.q_notMem]

theorem qubitNames_qubit (q : Numeral) (s : List Char) :
    qubitNames ('q' :: (q.digits ++ s)) = String.ofList ['q', q.first] :: qubitNames s := by
  have hmore : 'q' ∉ q.more := fun h => q.q_notMem (mem_cons_of_mem _ h)
  rw [digits, cons_append, qubitNames, if_pos (q.isDigit _ mem_cons_self), qubitNames_append hmore]

theorem le_foldl_digits (ds : List Nat) (n : Nat) : n ≤ ds.foldl (fun a d => a * 10 + d) n := by
  induction ds generalizing n with
  | nil => exact Nat.le_refl n
  | cons d ds ih =>
    have hstep : n ≤ n * 10 + d := by omega
    exact Nat.le_trans hstep (ih _)

theorem foldl_digits_eq_iff {ds : List Nat} {n : Nat} :
    ds.foldl (fun a d => a * 10 + d) n = n ↔ ds = [] ∨ n = 0 ∧ ∀ d ∈ ds, d = 0 := by
  induction ds generalizing n with
  | nil => simp
  | cons d ds ih =>
    have hle := le_foldl_digits ds (n * 10 + d)
    simp only [foldl_cons, reduceCtorEq, false_or, forall_mem_cons]
    constructor
    · intro h
      obtain ⟨rfl, rfl⟩ : n = 0 ∧ d = 0 := by omega
      rcases ih.1 h with rfl | ⟨-, hds⟩
      · simp
      · exact ⟨rfl, rfl, hds⟩
    · rintro ⟨rfl, rfl, hds⟩
      exact ih.2 (.inr ⟨rfl, hds⟩)

theorem value_eq_zero_iff {c : Char} (h : c.isDigit = true) : c.toNat - 48 = 0 ↔ c = '0' := by
  have hdigit := Decimal.toNat_of_isDigit h
  constructor
  · intro hc
    exact Char.toNat_inj.1 (show c.toNat = 48 by omega)
  · rintro rfl
    rfl

theorem numberOf_first_iff (q : Numeral) : numberOf [q.first] = numberOf q.digits ↔ q.IsShort := by
  have hdigits := forall_mem_cons.1 q.isDigit
  have hfirst : numberOf [q.first] = q.first.toNat - 48 := by
    simp [numberOf, Decimal.ofDigits]
  have hall : numberOf q.digits =
      (q.more.map fun c => c.toNat - 48).foldl (fun a d => a * 10 + d) (q.first.toNat - 48) := by
    simp [numberOf, Decimal.ofDigits, digits]
  rw [hfirst, hall, eq_comm, foldl_digits_eq_iff, map_eq_nil_iff, forall_mem_map, IsShort, digits,
    forall_mem_cons, value_eq_zero_iff hdigits.1]
  have hmore : (∀ c ∈ q.more, c.toNat - 48 = 0) ↔ ∀ c ∈ q.more, c = '0' :=
    forall₂_congr fun c hc => value_eq_zero_iff (hdigits.2 c hc)
  rw [hmore]

end Numeral

/-! ## Gates -/

theorem afterStart?_append (p s : List Char) : Chars.afterStart? p (p ++ s) = some s := by
  induction p with
  | nil => rfl
  | cons a p ih => simp [Chars.afterStart?, ih]

/-- A text does not begin with a word if its first word and that word differ. -/
theorem afterStart?_append_eq_none {p : List Char} (hp : Chars.afterStart? p w = none) (hw : Chars.afterStart? w p = none)
    (s : List Char) : Chars.afterStart? p (w ++ s) = none := by
  induction p generalizing w with
  | nil => cases hp
  | cons a p ih =>
    cases w with
    | nil => cases hw
    | cons c w =>
      rw [cons_append, Chars.afterStart?]
      rw [Chars.afterStart?] at hp hw
      by_cases h : a = c
      · simp only [h, beq_self_eq_true, if_true] at hp hw ⊢
        exact ih hp hw
      · simp [h]

/-- Qubits behind the name of a gate. -/
def operands (qs : List Numeral) : List Char := qs.flatMap fun q => ' ' :: 'q' :: q.digits

theorem leadingDigits_operands (qs : List Numeral) : leadingDigits (operands qs) = [] := by
  cases qs <;> rfl

theorem hasQubits_operands (qs : List Numeral) : hasQubits qs.length (operands qs) = true := by
  induction qs with
  | nil => rfl
  | cons q qs ih =>
    have hafter : afterQubit? ('q' :: (q.digits ++ operands qs)) = some (operands qs) := by
      rw [afterQubit?, q.leadingDigits_append (leadingDigits_operands qs), drop_left]
      rfl
    rw [operands, flatMap_cons, ← operands, length_cons, cons_append, cons_append, hasQubits, hafter]
    exact ih

theorem targets_operands (qs : List Numeral) : targets (operands qs) = qs.map fun q => numberOf q.digits := by
  induction qs with
  | nil => rfl
  | cons q qs ih =>
    rw [operands, flatMap_cons, ← operands, cons_append, cons_append, map_cons, ← ih,
      ← q.targets_qubit (leadingDigits_operands qs)]
    exact targets_append (w := [' ']) (by decide) _

theorem qubitNames_operands (qs : List Numeral) : qubitNames (operands qs) = qs.map fun q => String.ofList ['q', q.first] := by
  induction qs with
  | nil => rfl
  | cons q qs ih =>
    rw [operands, flatMap_cons, ← operands, cons_append, cons_append, map_cons, ← ih,
      ← q.qubitNames_qubit]
    exact qubitNames_append (w := [' ']) (by decide) _

/-- A gate of a program and the qubits that it acts on. -/
structure Call where
  name : String
  form : Form
  known : (name, form) ∈ gateForms
  qubits : List Numeral
  arity : qubits.length = form.arity

namespace Call

def text (c : Call) : List Char := c.name.toList ++ operands c.qubits

theorem name_chars {g : String × Form} (h : g ∈ gateForms) : g.1.toList ≠ [] ∧
    ∀ c ∈ g.1.toList, Chars.isBlank c = false ∧ c ∉ ['q', '#', '|', '.'] := by
  have hall : (gateForms.all fun g => !g.1.toList.isEmpty &&
      g.1.toList.all fun c => !Chars.isBlank c && !(['q', '#', '|', '.'].contains c)) = true := by decide
  simpa using all_eq_true.1 hall g h

/-- No gate's name begins with the name of another gate, or with that of a start or a readout. -/
theorem name_apart : ∀ g ∈ gateForms, ∀ w ∈ "init_all" :: "RO" :: gateForms.map Prod.fst, w ≠ g.1 →
    Chars.afterStart? w.toList g.1.toList = none ∧ Chars.afterStart? g.1.toList w.toList = none := by
  decide

theorem names_nodup : (gateForms.map Prod.fst).Nodup := by decide

theorem afterStart?_text (c : Call) {w : String} (hw : w ∈ "init_all" :: "RO" :: gateForms.map Prod.fst) (hne : w ≠ c.name) :
    Chars.afterStart? w.toList c.text = none := by
  obtain ⟨h1, h2⟩ := name_apart _ c.known w hw hne
  exact afterStart?_append_eq_none h1 h2 _

theorem form?_text (c : Call) : form? c.text = some c.form := by
  have hgate {g : String × Form} (hg : g ∈ gateForms) : isGate c.text g = true ↔ g = (c.name, c.form) := by
    constructor
    · intro h
      by_cases hname : g.1 = c.name
      · exact inj_on_of_nodup_map names_nodup hg c.known hname
      · have hmem : g.1 ∈ gateForms.map Prod.fst := mem_map_of_mem hg
        rw [isGate, c.afterStart?_text (by simp [hmem]) hname] at h
        cases h
    · rintro rfl
      rw [isGate, text, afterStart?_append, ← c.arity]
      exact hasQubits_operands c.qubits
  have hfind : gateForms.find? (isGate c.text) = some (c.name, c.form) := by
    cases hf : gateForms.find? (isGate c.text) with
    | none => exact absurd ((hgate c.known).2 rfl) (find?_eq_none.1 hf _ c.known)
    | some g => rw [(hgate (mem_of_find?_eq_some hf)).1 (find?_some hf)]
  have hother : "init_all" ≠ c.name ∧ "RO" ≠ c.name := by
    have hnames : ∀ g ∈ gateForms, "init_all" ≠ g.1 ∧ "RO" ≠ g.1 := by decide
    exact hnames _ c.known
  rw [form?, Chars.startsWith, c.afterStart?_text (by simp) hother.1, if_neg (by simp), Chars.startsWith,
    c.afterStart?_text (by simp) hother.2, if_neg (by simp), hfind]
  rfl

theorem qubitNames_text (c : Call) : qubitNames c.text = c.qubits.map fun q => String.ofList ['q', q.first] := by
  have hq : 'q' ∉ c.name.toList := fun h => ((name_chars c.known).2 _ h).2 (by simp)
  rw [text, qubitNames_append hq, qubitNames_operands]

theorem targets_text (c : Call) : targets c.text = c.qubits.map fun q => numberOf q.digits := by
  have hq : 'q' ∉ c.name.toList := fun h => ((name_chars c.known).2 _ h).2 (by simp)
  rw [text, targets_append hq, targets_operands]

end Call

/-! ## Lines of gates -/

/-- What stands around the qubit of a gate names no qubit, and does not go on with its number. -/
def Form.isPlain : Form → Bool
  | .gate before behind => !before.toList.contains 'q' && !behind.toList.contains 'q' && leadingDigits behind.toList == []
  | .start | .readout => false
  | .phase | .idle => true

theorem targets_digit (before s : List Char) (hc : c.isDigit = true) (hb : 'q' ∉ before)
    (hs : leadingDigits s = []) : targets (before ++ 'q' :: c :: s) = numberOf [c] :: targets s := by
  rw [targets_append hb]
  exact Numeral.targets_qubit ⟨c, [], by simpa using hc⟩ hs

theorem targets_gate {before behind : String} (h : (Form.gate before behind).isPlain = true)
    (hc : c.isDigit = true) : targets (before ++ String.ofList ['q', c] ++ behind).toList = [numberOf [c]] := by
  simp only [Form.isPlain, Bool.and_eq_true, Bool.not_eq_true', beq_iff_eq, contains_eq_mem, decide_eq_false_iff_not] at h
  obtain ⟨⟨hbefore, hbehind⟩, hdigits⟩ := h
  have hnil := targets_append hbehind []
  rw [append_nil] at hnil
  rw [String.toList_append, String.toList_append, String.toList_ofList, append_assoc]
  exact (targets_digit _ _ hc hbefore hdigits).trans (congrArg _ hnil)

theorem targets_phase {d : Char} (hc : c.isDigit = true) (hd : d.isDigit = true) :
    targets ("cz " ++ String.ofList ['q', c] ++ ", " ++ String.ofList ['q', d]).toList = [numberOf [c], numberOf [d]] := by
  simp only [String.toList_append, String.toList_ofList, append_assoc]
  refine (targets_digit "cz ".toList _ hc (by decide) (by rfl)).trans ?_
  exact congrArg _ (targets_digit ", ".toList [] hd (by decide) rfl)

theorem splitBy_flatMap {p : Char → Bool} {d : Char} (hd : p d = true) {ws : List (List Char)}
    (hw : ∀ c ∈ w, p c = false) (hws : ∀ v ∈ ws, ∀ c ∈ v, p c = false) :
    Chars.splitBy p (w ++ ws.flatMap fun v => d :: v) = w :: ws := by
  induction ws generalizing w with
  | nil => rw [flatMap_nil, append_nil, Qasm.splitBy_word hw]
  | cons v ws ih =>
    rw [forall_mem_cons] at hws
    rw [flatMap_cons, cons_append, Qasm.splitBy_append hd _ hw, ih hws.1 hws.2]

theorem trim_append {s b : List Char} (hne : s ≠ []) (hh : ∀ c ∈ s.head?, Chars.isBlank c = false)
    (hl : ∀ c ∈ s.getLast?, Chars.isBlank c = false) (hb : ∀ c ∈ b, Chars.isBlank c = true) : Chars.trim (s ++ b) = s := by
  obtain ⟨c, r, rfl⟩ := exists_cons_of_ne_nil hne
  have hstart (t : List Char) : Chars.dropStart Chars.isBlank (c :: t) = c :: t :=
    dropWhile_cons_of_neg (by simp [hh c rfl])
  have hself := Decimal.trimBy_eq_self hh hl
  rw [Chars.trimBy, hstart, Chars.dropEnd] at hself
  rw [Chars.trim, Chars.trimBy, cons_append, hstart, Chars.dropEnd, ← cons_append, reverse_append,
    dropWhile_append_of_pos (by simpa using hb), hself]

namespace Call

theorem qubits_ne_nil (c : Call) : c.qubits ≠ [] := by
  have harity : ∀ g ∈ gateForms, g.2.arity ≠ 0 := by decide
  rw [← length_pos_iff, c.arity]
  exact Nat.pos_of_ne_zero (harity _ c.known)

theorem text_ne_nil (c : Call) : c.text ≠ [] := by
  simp [text, (name_chars c.known).1]

theorem head?_text (c : Call) : ∀ d ∈ c.text.head?, Chars.isBlank d = false := by
  obtain ⟨hne, hchars⟩ := name_chars c.known
  obtain ⟨a, r, har⟩ := exists_cons_of_ne_nil hne
  intro d hd
  rw [text, har, cons_append, head?_cons, Option.mem_some_iff] at hd
  exact (hchars d (by simp [har, hd])).1

theorem getLast?_text (c : Call) : ∀ d ∈ c.text.getLast?, Chars.isBlank d = false := by
  obtain ⟨qs, q, hq⟩ := (eq_nil_or_concat c.qubits).resolve_left c.qubits_ne_nil
  intro d hd
  rw [text, hq, concat_eq_append, operands, flatMap_append, flatMap_singleton, ← append_assoc,
    getLast?_append_of_ne_nil _ (by simp), Numeral.digits, getLast?_cons_cons, getLast?_cons_cons] at hd
  exact Decimal.isBlank_of_isDigit (q.isDigit d (mem_of_mem_getLast? hd))

/-- The simulator's line of a gate: none if it is idle, else a line with the first digits of the qubits. -/
theorem lines_text (c : Call) (n count : Nat) : ∃ l, c.form.lines n count c.text = [l] ∧ (c.form = .idle → l = "") ∧
    (c.form ≠ .idle → targets l.toList = c.qubits.map fun q => numberOf [q.first]) := by
  have hplain : ∀ g ∈ gateForms, g.2.isPlain = true := by decide
  have hform := hplain _ c.known
  have hnames := c.qubitNames_text
  have harity := c.arity
  have hdigit (q : Numeral) : q.first.isDigit = true := q.isDigit _ mem_cons_self
  cases hf : c.form with
  | start => simp [hf, Form.isPlain] at hform
  | readout => simp [hf, Form.isPlain] at hform
  | idle => exact ⟨"", rfl, fun _ => rfl, fun h => absurd rfl h⟩
  | gate before behind =>
    rw [hf] at harity hform
    obtain ⟨q, hq⟩ := length_eq_one_iff.1 harity
    rw [hq] at hnames ⊢
    exact ⟨_, by rw [Form.lines, hnames]; rfl, by simp, fun _ => targets_gate hform (hdigit q)⟩
  | phase =>
    rw [hf] at harity
    obtain ⟨q, q', hq⟩ := length_eq_two.1 harity
    rw [hq] at hnames ⊢
    exact ⟨_, by rw [Form.lines, hnames]; rfl, by simp, fun _ => targets_phase (hdigit q) (hdigit q')⟩

theorem loadPart_text (c : Call) (n count : Nat) : loadPart n count c.text = (c.form.lines n count c.text, count) := by
  obtain ⟨hne, hchars⟩ := name_chars c.known
  have hstart : (String.ofList c.text == "init_all") = false := by
    rw [beq_eq_false_iff_ne]
    intro h
    have hform := c.form?_text
    rw [← String.toList_inj, String.toList_ofList] at h
    rw [h] at hform
    have hplain : ∀ g ∈ gateForms, g.2 ≠ .start := by decide
    exact hplain _ c.known (Option.some.inj hform.symm)
  have hmarker : isMarker (String.ofList c.text) = false := by
    obtain ⟨a, r, har⟩ := exists_cons_of_ne_nil hne
    have ha : a ≠ '.' := by
      rintro rfl
      exact (hchars '.' (by simp [har])).2 (by simp)
    simp [isMarker, text, har, ha]
  obtain ⟨l, hl, -⟩ := c.lines_text n count
  simp [loadPart, hstart, hmarker, c.form?_text, hl]

end Call

/-- A gate with blanks around it. -/
structure Slot where
  call : Call
  left : List Char
  right : List Char
  isBlank : ∀ c ∈ left ++ right, Chars.isBlank c = true

namespace Slot

def text (s : Slot) : List Char := s.left ++ (s.call.text ++ s.right)

theorem chars (s : Slot) : ∀ c ∈ s.text, c ≠ '#' ∧ c ≠ '|' := by
  have hblank : ∀ c ∈ s.left ++ s.right, c ≠ '#' ∧ c ≠ '|' := by
    intro c hc
    have hb := s.isBlank c hc
    constructor <;> (rintro rfl; revert hb; decide)
  have hname : ∀ c ∈ s.call.name.toList, c ≠ '#' ∧ c ≠ '|' := by
    intro c hc
    have hn := ((Call.name_chars s.call.known).2 c hc).2
    constructor <;> (rintro rfl; simp at hn)
  have hdigits : ∀ q ∈ s.call.qubits, ∀ c ∈ q.digits, c ≠ '#' ∧ c ≠ '|' := by
    intro q _ c hc
    have hd := q.isDigit c hc
    constructor <;> (rintro rfl; revert hd; decide)
  intro c hc
  simp only [text, Call.text, operands, mem_append, mem_flatMap, mem_cons] at hc
  rcases hc with hc | (hc | ⟨q, hq, rfl | rfl | hc⟩) | hc
  · exact hblank c (by simp [hc])
  · exact hname c hc
  · decide
  · decide
  · exact hdigits q hq c hc
  · exact hblank c (by simp [hc])

theorem trim_text (s : Slot) : Chars.trim s.text = s.call.text := by
  have hblank := forall_mem_append.1 s.isBlank
  have hleft : Chars.trim s.text = Chars.trim (s.call.text ++ s.right) := by
    rw [Chars.trim, Chars.trimBy, Chars.dropStart, text, dropWhile_append_of_pos hblank.1]
    rfl
  rw [hleft]
  exact trim_append s.call.text_ne_nil s.call.head?_text s.call.getLast?_text hblank.2

end Slot

/-- A program line of gates that start together, and a comment behind them if there is one. -/
structure GateLine where
  first : Slot
  more : List Slot
  comment : List Char
  isComment : ∀ c ∈ comment.head?, c = '#'

namespace GateLine

def text (g : GateLine) : List Char := g.first.text ++ (g.more.flatMap fun s => '|' :: s.text) ++ g.comment

def calls (g : GateLine) : List Call := (g.first :: g.more).map Slot.call

theorem parts_text (g : GateLine) : parts g.text = g.calls.map Call.text := by
  have hsharp : g.comment.takeWhile (· != '#') = [] := by
    cases hc : g.comment with
    | nil => rfl
    | cons c r => simp [g.isComment c (by simp [hc])]
  have hcode : ∀ c ∈ g.first.text ++ g.more.flatMap fun s => '|' :: s.text, (c != '#') = true := by
    intro c hc
    rw [bne_iff_ne]
    simp only [mem_append, mem_flatMap, mem_cons] at hc
    rcases hc with hc | ⟨s, -, rfl | hc⟩
    · exact (g.first.chars c hc).1
    · decide
    · exact (s.chars c hc).1
  have hbars (s : Slot) : ∀ c ∈ s.text, (c == '|') = false := fun c hc => beq_eq_false_iff_ne.2 (s.chars c hc).2
  have hsplit := splitBy_flatMap (p := (· == '|')) (d := '|') rfl (hbars g.first)
    (forall_mem_map.2 fun s (_ : s ∈ g.more) => hbars s)
  rw [flatMap_map] at hsplit
  rw [parts, text, takeWhile_append_of_pos hcode, hsharp, append_nil, hsplit, ← map_cons, calls, map_map,
    map_map]
  exact map_congr_left fun s _ => s.trim_text

end GateLine

theorem gather_append {α : Type} (load : Nat → α → List String × Nat) (count : Nat) (xs ys : List α) :
    gather load count (xs ++ ys) = ((gather load count xs).1 ++ (gather load (gather load count xs).2 ys).1,
      (gather load (gather load count xs).2 ys).2) := by
  induction xs generalizing count with
  | nil => rfl
  | cons x xs ih => simp only [cons_append, gather, ih, append_assoc]

theorem gather_calls (n count : Nat) (cs : List Call) : ∃ ls, gather (loadPart n) count (cs.map Call.text) = (ls, count) ∧
    (ls.filter (· ≠ "")).map (fun l => targets l.toList) =
      (cs.filter (·.form ≠ .idle)).map fun c => c.qubits.map fun q => numberOf [q.first] := by
  induction cs with
  | nil => exact ⟨[], rfl, rfl⟩
  | cons c cs ih =>
    obtain ⟨ls, hls, htargets⟩ := ih
    obtain ⟨l, hl, hidle, hgate⟩ := c.lines_text n count
    refine ⟨l :: ls, ?_, ?_⟩
    · simp only [map_cons, gather, c.loadPart_text, hl, hls]
      rfl
    · by_cases hc : c.form = .idle
      · rw [hidle hc, filter_cons_of_neg (by simp), filter_cons_of_neg (by simp [hc]), htargets]
      · have hne : l ≠ "" := by
          rintro rfl
          exact c.qubits_ne_nil (map_eq_nil_iff.1 (hgate hc).symm)
        rw [filter_cons_of_pos (by simpa using hne), filter_cons_of_pos (by simpa using hc), map_cons,
          map_cons, htargets, hgate hc]

theorem loadLine_gates (n count : Nat) (g : GateLine) : ∃ ls, loadLine n count g.text = (ls, count) ∧
    (ls.filter (· ≠ "")).map (fun l => targets l.toList) =
      (g.calls.filter (·.form ≠ .idle)).map fun c => c.qubits.map fun q => numberOf [q.first] := by
  obtain ⟨ls, hls, htargets⟩ := gather_calls n count g.calls
  rw [loadLine, g.parts_text, hls]
  refine ⟨_, rfl, ?_⟩
  rw [← htargets]
  split
  · rename_i hlast
    obtain ⟨ys, rfl⟩ := getLast?_eq_some_iff.1 (beq_iff_eq.1 hlast)
    simp
  · rfl

/-- **A gate keeps its qubits exactly if their numbers are short.** Of a program with a line of gates, the lines before and
behind it are loaded as without it. The lines that stand for the gates name the same qubits, in the same order, exactly if
each number is one digit long or zero. Idle gates stand for no line. -/
theorem loadLines_targets_iff (n : Nat) (g : GateLine) {text : String} {before after : List String}
    (htext : Text.fileLines text = before ++ String.ofList g.text :: after) :
    ∃ out, loadLines n text = (loadFrom n 0 before).1 ++ out ++ (loadFrom n (loadFrom n 0 before).2 after).1 ∧
      ((out.filter (· ≠ "")).map (fun l => targets l.toList) =
          (g.calls.filter (·.form ≠ .idle)).map (fun c => targets c.text) ↔
        ∀ c ∈ g.calls, c.form ≠ .idle → ∀ q ∈ c.qubits, q.IsShort) := by
  obtain ⟨out, hout, htargets⟩ := loadLine_gates n (loadFrom n 0 before).2 g
  refine ⟨out, ?_, ?_⟩
  · rw [loadLines, htext, loadFrom, gather_append, ← loadFrom]
    simp only [gather, String.toList_ofList, hout, append_assoc]
    rfl
  · rw [htargets, map_inj_left]
    simp only [mem_filter, decide_eq_true_eq, and_imp, Call.targets_text, map_inj_left,
      Numeral.numberOf_first_iff]

/-- A phase gate on qubits 0 and 7, and a comment. -/
def phaseLine : GateLine where
  first := {
    call := ⟨"CZ", .phase, by decide, [⟨'0', [], by simp⟩, ⟨'7', [], by simp⟩], rfl⟩
    left := [' ']
    right := [' ']
    isBlank := by simp [Chars.isBlank] }
  more := []
  comment := "# phase\n".toList
  isComment := by simp

/-- The line of a phase gate, behind the start of a circuit. -/
theorem loadLines_targets_phase : ∃ out, loadLines 8 "init_all\n CZ q0 q7 # phase\n" = (loadFrom 8 0 ["init_all\n"]).1 ++ out ∧
    (out.filter (· ≠ "")).map (fun l => targets l.toList) = [[0, 7]] := by
  have htext : Text.fileLines "init_all\n CZ q0 q7 # phase\n" = ["init_all\n"] ++ String.ofList phaseLine.text :: [] := by
    decide +kernel
  obtain ⟨out, hout, hiff⟩ := loadLines_targets_iff 8 phaseLine htext
  refine ⟨out, ?_, (hiff.2 ?_).trans (by decide +kernel)⟩
  · rw [hout]
    exact append_nil _
  · have hshort : ∀ c ∈ phaseLine.calls, ∀ q ∈ c.qubits, q.more = [] := by
      simp [phaseLine, GateLine.calls]
    exact fun c hc _ q hq => .inl (hshort c hc q hq)

/-- Of the number of qubit 12 only the first digit is left. -/
theorem loadLines_twoDigits : loadLines 16 "X180 q12\n" = ["rx180 q1"] ∧
    targets "X180 q12".toList = [12] ∧ targets "rx180 q1".toList = [1] :=
  ⟨by decide +kernel, by decide +kernel, by decide +kernel⟩

end QubitLab.Circuit
