import Mathlib.Data.List.Forall2
import Mathlib.Tactic.Common
import QubitLab.Fault

/-!
# Computations that may fail

`bind_eq_ok`, `map_eq_ok` and `mapM_eq_ok` say when a computation made of steps gives a result, `bind_eq_error` and
`mapM_eq_error` when it fails. `foldlM_ok_mem`: a fold that gives a result made each of its steps. `Ends E P` says of a
computation that its errors are of one kind and its results of another; `Ends.bind` composes it along the steps.
-/

namespace QubitLab

variable {ε α β : Type} {x : Except ε α} {f : α → Except ε β} {b : β} {a : α} {l : List α} {out : List β}

theorem bind_eq_ok : (x >>= f) = .ok b ↔ ∃ a, x = .ok a ∧ f a = .ok b := by
  cases x with
  | error e => simp [bind, Except.bind]
  | ok a => simp [bind, Except.bind]

theorem bind_eq_error {e : ε} : (x >>= f) = .error e ↔ x = .error e ∨ ∃ a, x = .ok a ∧ f a = .error e := by
  cases x with
  | error e' => simp [bind, Except.bind]
  | ok a => simp [bind, Except.bind]

theorem map_eq_ok {f : α → β} : x.map f = .ok b ↔ ∃ a, x = .ok a ∧ f a = b := by
  cases x with
  | error e => simp [Except.map]
  | ok a => simp [Except.map]

theorem toOption_eq_some : x.toOption = some a ↔ x = .ok a := by
  cases x <;> simp [Except.toOption]

theorem orFail_eq_ok {k : FaultKind} {x : Option α} : orFail k x = .ok a ↔ x = some a := by
  cases x <;> simp [orFail, fail]

theorem mapM_eq_ok : l.mapM f = .ok out ↔ List.Forall₂ (fun a b => f a = .ok b) l out := by
  induction l generalizing out with
  | nil => simp [pure, Except.pure, eq_comm]
  | cons a l ih =>
    simp only [List.mapM_cons, bind_eq_ok, List.forall₂_cons_left_iff, pure, Except.pure,
      Except.ok.injEq]
    constructor
    · rintro ⟨b, hb, bs, hbs, rfl⟩
      exact ⟨b, bs, hb, ih.1 hbs, rfl⟩
    · rintro ⟨b, bs, hb, hbs, rfl⟩
      exact ⟨b, hb, bs, ih.2 hbs, rfl⟩

theorem getElem?_of_forall₂ {R : α → β → Prop} {l' : List β} (h : List.Forall₂ R l l')
    {n : Nat} (ha : l[n]? = some a) : ∃ b, l'[n]? = some b ∧ R a b := by
  obtain ⟨hn, rfl⟩ := List.getElem?_eq_some_iff.1 ha
  have hn' : n < l'.length := h.length_eq ▸ hn
  exact ⟨l'[n], List.getElem?_eq_getElem hn', h.get hn hn'⟩

theorem exists_map_of_forall₂ {γ : Type} {R : α → γ → Prop} {f : γ → β} {bs : List β}
    (h : List.Forall₂ (fun a b => ∃ c, b = f c ∧ R a c) l bs) : ∃ cs, bs = cs.map f ∧ List.Forall₂ R l cs := by
  induction h with
  | nil => exact ⟨[], rfl, .nil⟩
  | cons h _ ih =>
    obtain ⟨c, rfl, hc⟩ := h
    obtain ⟨cs, rfl, hcs⟩ := ih
    exact ⟨c :: cs, rfl, .cons hc hcs⟩

theorem mapM_eq_error {e : ε} (h : l.mapM f = .error e) : ∃ a ∈ l, f a = .error e := by
  induction l with
  | nil => cases h
  | cons a l ih =>
    rw [List.mapM_cons] at h
    rcases bind_eq_error.1 h with ha | ⟨b, -, h⟩
    · exact ⟨a, List.mem_cons_self, ha⟩
    · rcases bind_eq_error.1 h with hl | ⟨bs, -, h⟩
      · obtain ⟨a', ha', he⟩ := ih hl
        exact ⟨a', List.mem_cons_of_mem a ha', he⟩
      · cases h

theorem exists_mem_of_forall₂ {R : α → β → Prop} {l' : List β} (h : List.Forall₂ R l l') (ha : a ∈ l) : ∃ b ∈ l', R a b := by
  obtain ⟨n, hn⟩ := List.getElem?_of_mem ha
  obtain ⟨b, hb, hR⟩ := getElem?_of_forall₂ h hn
  exact ⟨b, List.mem_of_getElem? hb, hR⟩

theorem mapM_ok_of_mem (h : l.mapM f = .ok out) (hb : b ∈ out) : ∃ a ∈ l, f a = .ok b :=
  exists_mem_of_forall₂ (mapM_eq_ok.1 h).flip hb

theorem mapM_ok_mem (h : l.mapM f = .ok out) (ha : a ∈ l) : ∃ b ∈ out, f a = .ok b :=
  exists_mem_of_forall₂ (mapM_eq_ok.1 h) ha

theorem exists_mapM_ok {R : α → β → Prop} (h : ∀ a ∈ l, ∃ b, f a = .ok b ∧ R a b) :
    ∃ out, l.mapM f = .ok out ∧ List.Forall₂ R l out := by
  induction l with
  | nil => exact ⟨[], rfl, .nil⟩
  | cons a l ih =>
    obtain ⟨b, hb, hR⟩ := h a (by simp)
    obtain ⟨out, hout, hRs⟩ := ih fun c hc => h c (by simp [hc])
    exact ⟨b :: out, mapM_eq_ok.2 (.cons hb (mapM_eq_ok.1 hout)), .cons hR hRs⟩

theorem mapM_eq_map {g : α → β} (h : ∀ a ∈ l, f a = .ok (g a)) : l.mapM f = .ok (l.map g) := by
  rw [mapM_eq_ok, List.forall₂_map_right_iff, List.forall₂_same]
  exact h

theorem mapM_ok_eq_map {g : α → β} (h : l.mapM f = .ok out)
    (hg : ∀ a ∈ l, ∀ b, f a = .ok b → b = g a) : out = l.map g := by
  replace h := mapM_eq_ok.1 h
  induction h with
  | nil => rfl
  | cons hab _ ih =>
    rw [hg _ List.mem_cons_self _ hab, ih fun a ha => hg a (List.mem_cons_of_mem _ ha)]
    rfl

theorem foldlM_ok_mem {f : β → α → Except ε β} :
    ∀ {l : List α} {s s' : β}, l.foldlM f s = .ok s' → ∀ a ∈ l, ∃ r r', f r a = .ok r'
  | b :: l, s, s', h, a, ha => by
    rw [List.foldlM_cons, bind_eq_ok] at h
    obtain ⟨s₁, h₁, h⟩ := h
    rcases List.mem_cons.1 ha with rfl | ha
    · exact ⟨s, s₁, h₁⟩
    · exact foldlM_ok_mem h a ha

/-- A computation ends in an error of a kind, or in a result of a kind. -/
def Ends (E : ε → Prop) (P : α → Prop) : Except ε α → Prop
  | .ok a => P a
  | .error e => E e

section
variable {E : ε → Prop} {P : α → Prop} {Q : β → Prop}

theorem ends_iff : Ends E P x ↔ (∀ a, x = .ok a → P a) ∧ ∀ e, x = .error e → E e := by
  cases x <;> simp [Ends]

theorem Ends.imp {P' : α → Prop} (h : Ends E P x) (hP : ∀ a, P a → P' a) : Ends E P' x := by
  cases x with
  | error e => exact h
  | ok a => exact hP a h

theorem Ends.bind (h : Ends E P x) (hf : ∀ a, P a → Ends E Q (f a)) : Ends E Q (x >>= f) := by
  cases x with
  | error e => exact h
  | ok a => exact hf a h

theorem Ends.foldlM {f : α → β → Except ε α} {l : List β} (h : ∀ s, P s → ∀ b ∈ l, Ends E P (f s b)) {s : α} (hs : P s) :
    Ends E P (l.foldlM f s) := by
  induction l generalizing s with
  | nil => exact hs
  | cons b l ih =>
    rw [List.foldlM_cons]
    exact (h s hs b List.mem_cons_self).bind fun s' hs' => ih (fun r hr c hc => h r hr c (List.mem_cons_of_mem b hc)) hs'

end

end QubitLab
