import ProofTracker.Proofs.Text.Trim
import ProofTracker.Text.Lines

/-! # Lines of a text

A line holds no line feed, and the lines of joined texts are the lines of each in turn
(`lines_joinLines_eq_flatMap`). The lines of a text are *tidy* if none of them ends in a blank. This
is kept when blanks are dropped at the ends of the text (`Tidy.trim`): what is cut off at the start
leaves the ends of the lines alone, and what is cut off at the end can only be line feeds. -/

namespace ProofTracker.Text

variable {s t l : List Char} {c : Char} {ls : List (List Char)}

theorem lines_cons (c : Char) (s : List Char) :
    lines (c :: s) = if c = '\n' then [] :: lines s else (lines s).modifyHead (c :: ·) := by
  unfold lines; rw [List.splitOn_cons_eq_if_modifyHead]; simp only [beq_iff_eq]

theorem lines_ne_nil (s : List Char) : lines s ≠ [] := List.splitOn_ne_nil _ _

theorem lines_of_notMem (h : '\n' ∉ s) : lines s = [s] := List.splitOn_eq_singleton h

theorem notMem_of_mem_lines (h : l ∈ lines s) : '\n' ∉ l := notMem_of_mem_splitOn h

/-! ### Joined texts -/

@[simp] theorem joinLines_singleton (l : List Char) : joinLines [l] = l := by
  unfold joinLines; simp

theorem joinLines_cons (l : List Char) (hne : ls ≠ []) :
    joinLines (l :: ls) = l ++ '\n' :: joinLines ls := by
  unfold joinLines; rw [List.intercalate_cons_of_ne_nil hne]; simp

theorem joinLines_concat (l : List Char) (hne : ls ≠ []) :
    joinLines (ls ++ [l]) = joinLines ls ++ '\n' :: l := by
  induction ls with
  | nil => exact absurd rfl hne
  | cons a ls ih =>
    by_cases h : ls = []
    · subst h; rw [List.singleton_append, joinLines_cons a (by simp)]; simp
    · rw [List.cons_append, joinLines_cons a (by simp), ih h, joinLines_cons a h]; simp

/-- The lines of joined texts are the lines of each of them. -/
theorem lines_joinLines_eq_flatMap (hne : ls ≠ []) : lines (joinLines ls) = ls.flatMap lines := by
  induction ls with
  | nil => exact absurd rfl hne
  | cons a ls ih =>
    by_cases h : ls = []
    · subst h; simp
    · rw [joinLines_cons a h, lines_append, ih h, List.flatMap_cons]

/-- Behind the last separator there is an empty piece. -/
theorem splitOn_flatMap_concat (h : ∀ l ∈ ls, c ∉ l) :
    (ls.flatMap (· ++ [c])).splitOn c = ls ++ [[]] := by
  induction ls with
  | nil => rfl
  | cons a ls ih =>
    rw [List.flatMap_cons, List.append_assoc, List.singleton_append,
      List.splitOn_append_cons_self_of_not_mem (h a (by simp)), ih fun l hl => h l (by simp [hl])]
    rfl

theorem lines_closeLines (h : ∀ l ∈ ls, '\n' ∉ l) : lines (closeLines ls) = ls ++ [[]] :=
  splitOn_flatMap_concat h

/-! ### The last line -/

/-- What stands behind the last line feed of the text. -/
def lastLine (s : List Char) : List Char := (lines s).getLast (lines_ne_nil s)

theorem dropLast_lines_concat (s : List Char) : (lines s).dropLast ++ [lastLine s] = lines s :=
  List.dropLast_append_getLast (lines_ne_nil s)

/-- A text without a line feed is added to the last line. -/
theorem lines_append_of_notMem (ht : '\n' ∉ t) :
    lines (s ++ t) = (lines s).dropLast ++ [lastLine s ++ t] := by
  have hlast : '\n' ∉ lastLine s := notMem_of_mem_lines (List.getLast_mem (lines_ne_nil s))
  have hs : s = joinLines ((lines s).dropLast ++ [lastLine s]) := by
    rw [dropLast_lines_concat, joinLines_lines]
  have hlines : ∀ l ∈ (lines s).dropLast, '\n' ∉ l := fun l hl =>
    notMem_of_mem_lines (List.dropLast_subset _ hl)
  generalize (lines s).dropLast = front at hs hlines
  generalize lastLine s = l at hs hlast
  have hjoin : s ++ t = joinLines (front ++ [l ++ t]) := by
    by_cases hfront : front = []
    · rw [hs, hfront]
      simp
    · rw [hs, joinLines_concat _ hfront, joinLines_concat _ hfront]
      simp
  rw [hjoin]
  refine lines_joinLines (fun m hm => ?_) (by simp)
  rcases List.mem_append.mp hm with hm | hm
  · exact hlines m hm
  · rw [List.mem_singleton.mp hm, List.mem_append, not_or]
    exact ⟨hlast, ht⟩

/-! ### Tidy lines -/

/-- No line of the text ends in a blank. -/
def Tidy (s : List Char) : Prop := ∀ l ∈ lines s, trimEnd l = l

theorem Tidy.of_cons (h : Tidy (c :: s)) : Tidy s := by
  intro l hl
  unfold Tidy at h
  rw [lines_cons] at h
  split_ifs at h with hc
  · exact h l (by simp [hl])
  · obtain ⟨l', ls', he⟩ := List.exists_cons_of_ne_nil (lines_ne_nil s)
    rw [he, List.modifyHead_cons] at h
    rw [he] at hl
    rcases List.mem_cons.mp hl with rfl | hl
    · have h' := trimEnd_eq_self_iff.mp (h (c :: l) (by simp))
      refine trimEnd_eq_self_iff.mpr fun d hd => h' d ?_
      cases l with
      | nil => simp at hd
      | cons a l => simpa using hd
    · exact h l (by simp [hl])

theorem Tidy.trimStart (h : Tidy s) : Tidy (trimStart s) := by
  induction s with
  | nil => exact h
  | cons c s ih =>
    rw [trimStart_cons]
    split_ifs
    · exact ih h.of_cons
    · exact h

theorem Tidy.of_concat_newline (h : Tidy (s ++ ['\n'])) : Tidy s := by
  intro l hl
  exact h l (by rw [lines_append]; simp [hl])

/-- A blank at the end of a text with tidy lines is a line feed. -/
theorem Tidy.eq_newline (h : Tidy (s ++ [c])) (hc : isBlank c = true) : c = '\n' := by
  by_contra hne
  have hl : ∃ l, l ++ [c] ∈ lines (s ++ [c]) := by
    clear h
    induction s with
    | nil => exact ⟨[], by rw [List.nil_append, lines_of_notMem (by simp [Ne.symm hne])]; simp⟩
    | cons a s ih =>
      obtain ⟨l, hl⟩ := ih
      rw [List.cons_append, lines_cons]
      split_ifs
      · exact ⟨l, by simp [hl]⟩
      · obtain ⟨l', ls', he⟩ := List.exists_cons_of_ne_nil (lines_ne_nil (s ++ [c]))
        rw [he] at hl ⊢
        rcases List.mem_cons.mp hl with rfl | hl
        · exact ⟨a :: l, by simp⟩
        · exact ⟨l, by simp [hl]⟩
  obtain ⟨l, hl⟩ := hl
  have := trimEnd_eq_self_iff.mp (h _ hl) c (by simp)
  rw [hc] at this; cases this

theorem Tidy.trimEnd (h : Tidy s) : Tidy (trimEnd s) := by
  induction s using List.reverseRecOn with
  | nil => exact h
  | append_singleton s c ih =>
    rw [trimEnd_concat]
    split_ifs with hc
    · have := h.eq_newline hc
      subst this
      exact ih h.of_concat_newline
    · exact h

theorem Tidy.trim (h : Tidy s) : Tidy (trim s) := h.trimStart.trimEnd

theorem tidy_joinLines_map_trimEnd (hne : ls ≠ []) (hl : ∀ l ∈ ls, '\n' ∉ l) :
    Tidy (joinLines (ls.map trimEnd)) := by
  have hn : ∀ l ∈ ls.map trimEnd, '\n' ∉ l := by
    intro l h
    obtain ⟨l', hl', rfl⟩ := List.mem_map.mp h
    exact fun hm => hl l' hl' ((trimEnd_prefix_self l').subset hm)
  intro l h
  rw [lines_joinLines hn (by simpa using hne)] at h
  obtain ⟨l', -, rfl⟩ := List.mem_map.mp h
  exact trimEnd_trimEnd l'

end ProofTracker.Text
