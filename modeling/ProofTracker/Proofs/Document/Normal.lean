import ProofTracker.Document.Normal
import ProofTracker.Proofs.Text.Lines

/-! # Normal form

A text is in normal form iff its lines are tidy and there are no blanks around it
(`normalText_eq_self_iff`), and bringing a text into normal form twice is doing it once. An empty
line at the end of a text does not matter (`normalText_concat_newline`), so the line between two
records belongs to neither. A location in normal form is a trimmed text that is neither empty nor
the phrase for no location. -/

namespace ProofTracker.Document

open Text

variable {s : List Char}

/-! ### Texts -/

theorem tidy_normalText (s : List Char) : Tidy (normalText s) :=
  (tidy_joinLines_map_trimEnd (lines_ne_nil s) fun _ => notMem_of_mem_lines).trim

theorem trim_normalText (s : List Char) : trim (normalText s) = normalText s := trim_trim _

theorem normalText_of_tidy (h : Tidy s) : normalText s = trim s := by
  unfold normalText
  rw [List.map_congr_left (g := id) h, List.map_id, joinLines_lines]

theorem normalText_eq_self_iff : normalText s = s ↔ Tidy s ∧ trim s = s := by
  constructor
  · intro h
    exact ⟨h ▸ tidy_normalText s, h ▸ trim_normalText s⟩
  · rintro ⟨h1, h2⟩; rw [normalText_of_tidy h1, h2]

@[simp] theorem normalText_normalText (s : List Char) :
    normalText (normalText s) = normalText s :=
  normalText_eq_self_iff.mpr ⟨tidy_normalText s, trim_normalText s⟩

/-- An empty line at the end is dropped. -/
theorem normalText_concat_newline (s : List Char) : normalText (s ++ ['\n']) = normalText s := by
  unfold normalText
  rw [lines_append, List.map_append, lines_nil, List.map_singleton, trimEnd_nil,
    joinLines_concat [] (by simpa using lines_ne_nil s), trim_concat_of_isBlank isBlank_newline]

/-! ### Locations -/

theorem normalLocation_eq_some_iff {l : Option String} {x : String} :
    normalLocation l = some x ↔
      (∃ y, l = some y ∧ trimmed y = x) ∧ x ≠ "" ∧ x ≠ noLocation := by
  unfold normalLocation
  rw [Option.filter_eq_some_iff, Option.map_eq_some_iff, decide_eq_true_eq]

theorem trimmed_trimmed (x : String) : trimmed (trimmed x) = trimmed x := by
  unfold trimmed; rw [String.toList_ofList, trim_trim]

theorem normalLocation_eq_self_iff {l : Option String} :
    normalLocation l = l ↔ ∀ x, l = some x → trimmed x = x ∧ x ≠ "" ∧ x ≠ noLocation := by
  cases l with
  | none => simp [normalLocation]
  | some x =>
    rw [normalLocation_eq_some_iff]
    simp

@[simp] theorem normalLocation_normalLocation (l : Option String) :
    normalLocation (normalLocation l) = normalLocation l := by
  rw [normalLocation_eq_self_iff]
  intro x hx
  obtain ⟨⟨y, -, rfl⟩, h1, h2⟩ := normalLocation_eq_some_iff.mp hx
  exact ⟨trimmed_trimmed y, h1, h2⟩

end ProofTracker.Document

namespace ProofTracker.Item

open Document

variable {i : Item}

/-- The item's texts and its location are in normal form. -/
theorem normalize_eq_self_iff : i.normalize = i ↔
    normalLocation i.location = i.location ∧ normalText i.statement.toList = i.statement.toList ∧
      normalText i.proof.toList = i.proof.toList := by
  cases i
  simp [normalize, ← String.toList_inj]

@[simp] theorem normalize_normalize (i : Item) : i.normalize.normalize = i.normalize := by
  rw [normalize_eq_self_iff]
  simp [normalize]

end ProofTracker.Item
