/-!
# Lines

A text is cut into lines at line feeds only, so a text always has at least one line and joining the
lines gives the text back. Nothing is done about a carriage return before a line feed: it is blank,
and every reader of lines trims their ends.
-/

namespace ProofTracker.Text

/-- The pieces of the text between its line feeds. -/
def lines (s : List Char) : List (List Char) :=
  s.splitOn '\n'

/-- The lines with a line feed between any two of them. -/
def joinLines (ls : List (List Char)) : List Char :=
  ['\n'].intercalate ls

/-- The lines, each followed by a line feed. -/
def closeLines (ls : List (List Char)) : List Char :=
  ls.flatMap (· ++ ['\n'])

@[simp] theorem lines_nil : lines [] = [[]] := rfl

@[simp] theorem joinLines_lines (s : List Char) : joinLines (lines s) = s :=
  List.intercalate_splitOn '\n'

theorem lines_joinLines {ls : List (List Char)} (h : ∀ l ∈ ls, '\n' ∉ l) (hne : ls ≠ []) :
    lines (joinLines ls) = ls :=
  List.splitOn_intercalate '\n' h hne

/-- A line feed between two texts keeps their lines apart. -/
theorem lines_append (s t : List Char) : lines (s ++ '\n' :: t) = lines s ++ lines t :=
  List.splitOnP_append_cons s t rfl

end ProofTracker.Text
