import ProofTracker.Blueprint.Change
import ProofTracker.Proofs.Document.RoundTrip

/-! # What normal form settles

Blanks around a text do not matter for its normal form: one that stands in front of it or behind it
is dropped, be it a line feed or not (`normalText_cons_of_isBlank`, `normalText_concat_of_isBlank`).
Neither does it matter how lines are closed: where a carriage return in front of a line feed is part
of the break and no empty line is read behind the last one (`closedLines`), the normal form of a
text is the same (`normalText_eq_closedLines`), and of a text in normal form the same lines are
written (`textLines_normalText`). So it makes no difference to a document or to a blueprint whether
texts are trimmed or brought into normal form before (`normalText_settled`). -/

namespace ProofTracker

namespace Text

variable {s l : List Char} {c : Char}

/-! ### Closed lines -/

/-- The line without a carriage return at its end. -/
def dropReturn (l : List Char) : List Char := if l.getLast? = some '\r' then l.dropLast else l

/-- The lines of a text in which a line feed, or a carriage return and a line feed, closes a line.
If nothing stands behind the last line feed, that is no line. -/
def closedLines (s : List Char) : List (List Char) :=
  (lines s).dropLast.map dropReturn ++ if lastLine s = [] then [] else [lastLine s]

theorem trimEnd_dropReturn (l : List Char) : trimEnd (dropReturn l) = trimEnd l := by
  unfold dropReturn
  split_ifs with h
  · have hl := List.dropLast_append_getLast? _ h
    rw [← hl, List.dropLast_concat, trimEnd_concat, if_pos (by decide)]
  · rfl

theorem dropReturn_of_trimEnd (h : trimEnd l = l) : dropReturn l = l := by
  unfold dropReturn
  refine if_neg fun hr => ?_
  have hblank := trimEnd_eq_self_iff.mp h '\r' hr
  revert hblank
  decide

theorem lastLine_ne_nil (hne : s ≠ []) (h : trimEnd s = s) : lastLine s ≠ [] := by
  intro hlast
  have hs := joinLines_lines s
  rw [← dropLast_lines_concat, hlast] at hs
  by_cases hfront : (lines s).dropLast = []
  · rw [hfront] at hs
    exact hne hs.symm
  · rw [joinLines_concat [] hfront] at hs
    have hblank := trimEnd_eq_self_iff.mp h '\n' (by rw [← hs]; simp)
    rw [isBlank_newline] at hblank
    cases hblank

/-- Tidy lines are read in the same way however lines are closed. -/
theorem closedLines_of_tidy (hne : s ≠ []) (h : Tidy s) (hs : trimEnd s = s) :
    closedLines s = lines s := by
  have hfront : (lines s).dropLast.map dropReturn = (lines s).dropLast := by
    rw [List.map_congr_left (g := id), List.map_id]
    exact fun l hl => dropReturn_of_trimEnd (h l (List.dropLast_subset _ hl))
  unfold closedLines
  rw [if_neg (lastLine_ne_nil hne hs), hfront, dropLast_lines_concat]

/-! ### A blank in front -/

/-- A blank in front of a line is dropped only if there is nothing else in the line. -/
theorem trimEnd_cons_of_isBlank (h : isBlank c = true) (l : List Char) :
    trimEnd (c :: l) = if trimEnd l = [] then [] else c :: trimEnd l := by
  induction l using List.reverseRecOn with
  | nil => rw [← List.nil_append [c], trimEnd_concat, if_pos h, if_pos trimEnd_nil, trimEnd_nil]
  | append_singleton l d ih =>
    rw [← List.cons_append, trimEnd_concat, trimEnd_concat]
    by_cases hd : isBlank d = true
    · rw [if_pos hd, if_pos hd, ih]
    · rw [if_neg hd, if_neg hd, if_neg (by simp), List.cons_append]

theorem joinLines_cons_cons (c : Char) (l : List Char) (ls : List (List Char)) :
    joinLines ((c :: l) :: ls) = c :: joinLines (l :: ls) := by
  by_cases hne : ls = []
  · subst hne
    rw [joinLines_singleton, joinLines_singleton]
  · rw [joinLines_cons _ hne, joinLines_cons _ hne, List.cons_append]

theorem trim_joinLines_concat_nil (ls : List (List Char)) :
    trim (joinLines (ls ++ [[]])) = trim (joinLines ls) := by
  by_cases hne : ls = []
  · subst hne
    rfl
  · rw [joinLines_concat [] hne, trim_concat_of_isBlank isBlank_newline]

end Text

namespace Document

open Text

variable {s : List Char} {c : Char}

/-! ### Blanks that do not matter -/

theorem normalText_eq_closedLines (s : List Char) :
    normalText s = trim (joinLines ((closedLines s).map trimEnd)) := by
  have hlines : (lines s).map trimEnd =
      (lines s).dropLast.map trimEnd ++ [trimEnd (lastLine s)] := by
    conv_lhs => rw [← dropLast_lines_concat s, List.map_append, List.map_singleton]
  have hfront : ((lines s).dropLast.map dropReturn).map trimEnd =
      (lines s).dropLast.map trimEnd := by
    rw [List.map_map]
    exact List.map_congr_left fun l _ => trimEnd_dropReturn l
  unfold normalText closedLines
  rw [hlines, List.map_append, hfront]
  split_ifs with h
  · rw [h, trimEnd_nil, trim_joinLines_concat_nil, List.map_nil, List.append_nil]
  · rw [List.map_singleton]

theorem normalText_cons_of_isBlank (h : isBlank c = true) (s : List Char) :
    normalText (c :: s) = normalText s := by
  unfold normalText
  rw [lines_cons]
  split_ifs with hc
  · rw [List.map_cons, trimEnd_nil, joinLines_cons [] (by simpa using lines_ne_nil s),
      List.nil_append, trim_cons_of_isBlank isBlank_newline]
  · obtain ⟨l, ls, he⟩ := List.exists_cons_of_ne_nil (lines_ne_nil s)
    rw [he, List.modifyHead_cons, List.map_cons, List.map_cons, trimEnd_cons_of_isBlank h]
    split_ifs with hl
    · rw [hl]
    · rw [joinLines_cons_cons, trim_cons_of_isBlank h]

theorem normalText_concat_of_isBlank (h : isBlank c = true) (s : List Char) :
    normalText (s ++ [c]) = normalText s := by
  by_cases hc : c = '\n'
  · rw [hc, normalText_concat_newline]
  · unfold normalText
    rw [lines_append_of_notMem (by simpa using Ne.symm hc), List.map_append, List.map_singleton,
      trimEnd_concat, if_pos h, ← List.map_singleton, ← List.map_append, dropLast_lines_concat]

theorem normalText_trimStart (s : List Char) : normalText (trimStart s) = normalText s := by
  induction s with
  | nil => rfl
  | cons c s ih =>
    rw [trimStart_cons]
    split_ifs with hc
    · rw [ih, normalText_cons_of_isBlank hc]
    · rfl

theorem normalText_trimEnd (s : List Char) : normalText (trimEnd s) = normalText s := by
  induction s using List.reverseRecOn with
  | nil => rfl
  | append_singleton s c ih =>
    rw [trimEnd_concat]
    split_ifs with hc
    · rw [ih, normalText_concat_of_isBlank hc]
    · rfl

/-- Blanks around a text do not matter for its normal form. -/
theorem normalText_trim (s : List Char) : normalText (trim s) = normalText s := by
  unfold trim
  rw [normalText_trimEnd, normalText_trimStart]

/-- A text in normal form is written line by line, however lines are closed. -/
theorem textLines_normalText (s : List Char) :
    textLines (normalText s) = (closedLines (normalText s)).map escape := by
  unfold textLines
  split_ifs with h
  · rw [h]
    rfl
  · rw [closedLines_of_tidy h (tidy_normalText s) (trim_eq_self_iff.mp (trim_normalText s)).2]

end Document

/-! ### Items with trimmed texts -/

namespace Item

/-- The item without blanks around its statement and its proof. -/
def trimmed (i : Item) : Item :=
  { i with statement := Text.trimmed i.statement, proof := Text.trimmed i.proof }

/-- An item not yet started is one with trimmed texts. -/
theorem fresh_eq_trimmed (label : String) (kind : Kind) (budget : UInt32) (uses : LabelSet)
    (statement proof : String) (priority : UInt32) (location : Option String) :
    fresh label kind budget uses statement proof priority location = trimmed {
      label, kind, uses, attempts := .fresh budget, location, statement, proof, priority } := rfl

theorem normalize_trimmed (i : Item) : i.trimmed.normalize = i.normalize := by
  unfold normalize trimmed Text.trimmed
  simp only [String.toList_ofList, Document.normalText_trim]

theorem accept_trimmed (i : Item) : i.trimmed.accept = i.accept := by
  unfold accept
  rw [normalize_trimmed]
  rfl

end Item

/-- A blueprint does not tell items from those with trimmed texts. -/
theorem Blueprint.put_map_trimmed (b : Blueprint) (batch : List Item) :
    b.put (batch.map Item.trimmed) = b.put batch := by
  unfold put
  rw [List.mapM_map, funext (f := Item.accept ∘ Item.trimmed) Item.accept_trimmed]

namespace Document

open Text

/-- **Bringing a text into normal form settles it.** Once more changes nothing, nor does trimming
before; no line is left that ends in a blank, and there is no blank at either end. A document and
what a blueprint keeps are the same whether the texts of the items have been settled, or trimmed, or
not. All this is also so where a carriage return in front of a line feed is part of the break. -/
theorem normalText_settled (s : List Char) (items : List Item) (b : Blueprint) :
    normalText (normalText s) = normalText s ∧
    normalText (trim s) = normalText s ∧
    (∀ l ∈ lines (normalText s), ∀ c ∈ l.getLast?, isBlank c = false) ∧
    (∀ c ∈ (normalText s).head?, isBlank c = false) ∧
    (∀ c ∈ (normalText s).getLast?, isBlank c = false) ∧
    render (items.map Item.normalize) = render items ∧
    b.put (items.map Item.trimmed) = b.put items ∧
    normalText s = trim (joinLines ((closedLines s).map trimEnd)) ∧
    textLines (normalText s) = (closedLines (normalText s)).map escape := by
  have hends := trim_eq_self_iff.mp (trim_normalText s)
  refine ⟨normalText_normalText s, normalText_trim s, fun l hl => ?_,
    trimStart_eq_self_iff.mp hends.1, trimEnd_eq_self_iff.mp hends.2, render_map_normalize items,
    b.put_map_trimmed items, normalText_eq_closedLines s, textLines_normalText s⟩
  exact trimEnd_eq_self_iff.mp (tidy_normalText s l hl)

/-- A first line with a blank only, a line separator in front of a break, and a carriage return that
begins a line and so belongs to no break. -/
example : normalText "\u0085\n a\u2028\r\n\rb \n\n".toList = "a\n\rb".toList := by decide

end Document

end ProofTracker
