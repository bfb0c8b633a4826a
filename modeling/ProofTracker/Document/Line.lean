import ProofTracker.Document.Section
import ProofTracker.Item.Basic
import ProofTracker.Text.Lines

/-!
# Lines of a document

A document is read line by line. Headings alone give it its shape: a heading of the first level with
a kind and a label opens a record, and one of the second level opens a section. Lines of free text
that look like headings are written with one backslash more, so they never open anything.
-/

namespace ProofTracker.Document

/-- A line, without the blanks at its end, and its place in the document. -/
structure Line where
  /-- The number of the line; the first one has the number 1. -/
  number : Nat
  text : List Char
deriving DecidableEq, Repr

/-- The lines of the text. -/
def Line.ofText (s : List Char) : List Line :=
  ((Text.lines s).zipIdx 1).map fun l => ⟨l.2, Text.trimEnd l.1⟩

/-- Cuts lines at their headings. The result is the lines before the first heading, and every
heading with the lines up to the next one. -/
def cutAt {β : Type} (heading? : List Char → Option β) :
    List Line → List Line × List (Line × β × List Line)
  | [] => ([], [])
  | l :: ls =>
    let (before, parts) := cutAt heading? ls
    match heading? l.text with
    | some h => ([], (l, h, before) :: parts)
    | none => (l :: before, parts)

/-! ### Headings of records -/

/-- The line that opens the record of an item. -/
def heading (k : Kind) (label : List Char) : List Char :=
  '#' :: ' ' :: k.name.toList ++ ' ' :: label

/-- The kind and the label in the heading of a record. A heading has these two words and no
other. -/
def ofHeading? : List Char → Option (Kind × List Char)
  | '#' :: ' ' :: rest =>
    match Text.words rest with
    | [k, label] => (Kind.ofName? (.ofList k)).map (·, label)
    | _ => none
  | _ => none

/-! ### Lines of free text -/

/-- Whether a line looks like a heading, perhaps behind backslashes. -/
def headingLike (line : List Char) : Bool :=
  (line.dropWhile (· = '\\')).head? = some '#'

/-- A line of free text as it is written. -/
def escape (line : List Char) : List Char :=
  if headingLike line then '\\' :: line else line

/-- The line of free text that is written so. -/
def unescape : List Char → List Char
  | '\\' :: rest => if headingLike rest then rest else '\\' :: rest
  | line => line

theorem unescape_escape (line : List Char) : unescape (escape line) = line := by
  by_cases h : headingLike line
  · simp [escape, unescape, h]
  · rw [escape, if_neg h]
    match line with
    | [] => rfl
    | c :: rest =>
      by_cases hc : c = '\\'
      · subst hc
        have : headingLike rest = false := by simpa [headingLike] using h
        simp [unescape, this]
      · simp [unescape, hc]

end ProofTracker.Document
