import Mathlib.Data.List.Basic
import QubitLab.Circuit.Loader

/-!
# Circuits of a program

A section is a marker with the lines up to the next marker. Every list of lines is a start without markers, followed by
sections (`exists_sections`), and the circuits that `cut` finds are those of the sections (`cut_flatMap`), but for a list
whose last line is a marker (`cut_lastMarker`).
-/

namespace QubitLab.Circuit

/-! ## Sections -/

/-- A marker and lines that are none. -/
structure Section where
  marker : String
  lines : List String
  isMarker_marker : isMarker marker = true
  unmarked : ∀ l ∈ lines, isMarker l = false

namespace Section

/-- All lines of a section. -/
def all (s : Section) : List String := s.marker :: s.lines

/-- The circuit of a section: what stands behind the dot, without blanks, and the lines longer than one character. -/
def part (s : Section) : Part :=
  ⟨String.ofList ((s.marker.toList.drop 1).filter (· != ' ')), s.lines.filter fun l => 1 < l.length⟩

theorem markerName_marker (s : Section) : markerName s.marker = s.part.name := by
  have h := s.isMarker_marker
  rw [isMarker, beq_iff_eq] at h
  obtain ⟨r, hr⟩ := List.head?_eq_some_iff.1 h
  rw [markerName, part, hr, List.filter_cons_of_pos (by decide)]
  rfl

end Section

theorem cut_unmarked {before : List String} (h : ∀ l ∈ before, isMarker l = false) (lines : List String) :
    cut (before ++ lines) = cut lines := by
  induction before with
  | nil => rfl
  | cons l before ih =>
    rw [List.forall_mem_cons] at h
    rw [List.cons_append, cut, if_pos (by simp [h.1])]
    exact ih h.2

theorem body_section (s : Section) (rest : List Section) : body (s.lines ++ rest.flatMap Section.all) = s.part.body := by
  have hrest : (rest.flatMap Section.all).takeWhile (fun l => !isMarker l) = [] := by
    cases rest with
    | nil => rfl
    | cons t rest => simp [Section.all, t.isMarker_marker]
  have hlines : ∀ l ∈ s.lines, (!isMarker l) = true := by simpa using s.unmarked
  rw [body, List.takeWhile_append_of_pos hlines, hrest, List.append_nil]
  rfl

theorem cut_flatMap {sections : List Section} (h : ((sections.flatMap Section.all).getLast?).any isMarker = false) :
    cut (sections.flatMap Section.all) = .ok (sections.map Section.part) := by
  induction sections with
  | nil => rfl
  | cons s rest ih =>
    rw [List.flatMap_cons, Section.all, List.cons_append] at h ⊢
    have htail : s.lines ++ rest.flatMap Section.all ≠ [] := by
      intro hnil
      simp [hnil, s.isMarker_marker] at h
    have hlast : ((rest.flatMap Section.all).getLast?).any isMarker = false := by
      by_cases hrest : rest.flatMap Section.all = []
      · rw [hrest]
        rfl
      · rwa [List.getLast?_cons_of_ne_nil htail, List.getLast?_append_of_ne_nil _ hrest] at h
    rw [cut, if_neg (by simp [s.isMarker_marker]), if_neg (by simpa using htail), s.markerName_marker, body_section,
      cut_unmarked s.unmarked, ih hlast]
    rfl

theorem cut_lastMarker {lines : List String} (h : (lines.getLast?).any isMarker = true) : cut lines = .error (.of .index) := by
  induction lines with
  | nil => cases h
  | cons l rest ih =>
    rw [cut]
    cases rest with
    | nil =>
      rw [if_neg (by simpa using h)]
      rfl
    | cons m rest =>
      rw [List.getLast?_cons_cons] at h
      rw [ih h]
      split
      · rfl
      · rfl

theorem exists_sections (lines : List String) : ∃ (before : List String) (sections : List Section),
    (∀ l ∈ before, isMarker l = false) ∧ lines = before ++ sections.flatMap Section.all := by
  induction lines with
  | nil => exact ⟨[], [], by simp, rfl⟩
  | cons l lines ih =>
    obtain ⟨before, sections, hbefore, rfl⟩ := ih
    cases hl : isMarker l with
    | false => exact ⟨l :: before, sections, List.forall_mem_cons.2 ⟨hl, hbefore⟩, rfl⟩
    | true => exact ⟨[], ⟨l, before, hl, hbefore⟩ :: sections, by simp, rfl⟩

/-- **Circuits are cut completely, unless the last line is a marker.** Every list of lines is a start without markers and
sections. Its circuits are those of the sections, one for each and in order; a last line that is a marker is a fault. -/
theorem cut_sections (lines : List String) : ∃ (before : List String) (sections : List Section),
    (∀ l ∈ before, isMarker l = false) ∧ lines = before ++ sections.flatMap Section.all ∧
    cut lines = if (lines.getLast?).any isMarker then .error (.of .index) else .ok (sections.map Section.part) := by
  obtain ⟨before, sections, hbefore, hlines⟩ := exists_sections lines
  refine ⟨before, sections, hbefore, hlines, ?_⟩
  split
  · rename_i h
    exact cut_lastMarker h
  · rename_i h
    rw [hlines, cut_unmarked hbefore]
    apply cut_flatMap
    by_cases hnil : sections.flatMap Section.all = []
    · rw [hnil]
      rfl
    · rwa [hlines, List.getLast?_append_of_ne_nil _ hnil, Bool.not_eq_true] at h

/-- A program that ends with the start of a circuit. -/
theorem cut_loneMarker : cut ["rx180 q0", ".first", "rx90 q0", ".second"] = .error (.of .index) := rfl

end QubitLab.Circuit
