import ProofTracker.Proofs.Document.Canonical
import ProofTracker.Proofs.Document.Reading

/-! # Documents one behind the other

The lines of two documents with a line feed between them are the lines of the first one and those of
the second one (`ofText_append`). If the second document has a record's heading in front of
everything but blank lines, then this heading parts what is read: the blank lines before it are the
end of the first document, where they say nothing, and each document is read for itself
(`parse_append_iff`). So documents can be appended and cut at the headings of records. -/

namespace ProofTracker.Document

open Text

variable {l : Line} {ls ms : List Line} {s t : List Char} {d₁ d₂ : String} {items : List Item}

/-- The document is blank, or its first line that is not blank is the heading of a record. -/
def StartsRecord (d : String) : Prop :=
  ∀ l ∈ (Line.ofText d.toList).find? (·.text ≠ []), (ofHeading? l.text).isSome

/-- The lines of both documents, but for the numbers in front of those of the second one. -/
theorem ofText_append (s t : List Char) :
    SameText (Line.ofText (s ++ '\n' :: t)) (Line.ofText s ++ Line.ofText t) := by
  refine .of_texts_eq ?_
  rw [List.map_append, texts_ofText, texts_ofText, texts_ofText, lines_append, List.map_append]

/-- Lines behind a heading that only empty lines separate from the lines in front of it are read for
themselves. -/
theorem readLines_append_iff (h : ∀ m ∈ ms.find? (·.text ≠ []), (ofHeading? m.text).isSome) :
    readLines (ls ++ ms) = .ok items ↔ ∃ is₁ is₂, readLines ls = .ok is₁ ∧
      readLines ms = .ok is₂ ∧ (∀ i ∈ is₁, ∀ j ∈ is₂, i.label ≠ j.label) ∧ items = is₁ ++ is₂ := by
  cases hm : ms.find? (·.text ≠ []) with
  | none =>
    have hempty : ∀ m ∈ ms, m.text = [] := find?_eq_none_iff.mp hm
    rw [← readLines_iff_of_sameText (.append_empty ls hempty)]
    simp only [readLines_of_empty hempty]
    constructor
    · intro hl
      exact ⟨items, [], hl, rfl, by simp, by simp⟩
    · rintro ⟨is₁, _, hl, rfl, -, rfl⟩
      rwa [List.append_nil]
  | some l =>
    obtain ⟨hhead, gap, rest, rfl, hgap⟩ := List.find?_eq_some_iff_append.mp hm
    have hempty : ∀ m ∈ gap, m.text = [] := fun m hmem => by simpa using hgap m hmem
    obtain ⟨k, hk⟩ := Option.isSome_iff_exists.mp (h l hm)
    -- the empty lines end what stands before the heading, on either side
    have hfirst : ∀ is, readLines (ls ++ gap) = .ok is ↔ readLines ls = .ok is := fun is =>
      (readLines_iff_of_sameText (.append_empty ls hempty)).symm
    have hsecond : ∀ is, readLines (gap ++ l :: rest) = .ok is ↔ readLines (l :: rest) = .ok is := by
      intro is
      rw [readLines_append_cons_iff hk]
      simp only [readLines_of_empty hempty]
      constructor
      · rintro ⟨_, is₂, rfl, h₂, -, rfl⟩
        exact h₂
      · intro h₂
        exact ⟨[], is, rfl, h₂, by simp, rfl⟩
    rw [← List.append_assoc, readLines_append_cons_iff hk]
    simp only [hfirst, hsecond]

/-- **A document behind another one is read for itself.** If it starts with a record, then both
together can be read iff each of them can be and no label is in both, and they say what the first one
says and what the second one says. -/
theorem parse_append_iff (h : StartsRecord d₂) : parse (d₁ ++ "\n" ++ d₂) = .ok items ↔
    ∃ is₁ is₂, parse d₁ = .ok is₁ ∧ parse d₂ = .ok is₂ ∧
      (∀ i ∈ is₁, ∀ j ∈ is₂, i.label ≠ j.label) ∧ items = is₁ ++ is₂ := by
  have htext : (d₁ ++ "\n" ++ d₂).toList = d₁.toList ++ '\n' :: d₂.toList := by
    rw [String.toList_append, String.toList_append, List.append_assoc]
    rfl
  simp only [parse_eq_readLines]
  rw [htext, readLines_iff_of_sameText (ofText_append _ _)]
  exact readLines_append_iff h

/-- The first document ends in the middle of a section, with blank lines and a heading of the first
level that opens no record, and the second one begins with blank lines. -/
theorem parse_append_unclosed :
    let d₁ := String.ofList (joinLines ([
      "# lemma a", "## meta", "- label: a", "- uses: [[b]]", "- status: partial", "- attempts: 1/3",
      "## proof", "see b", "", "# a", "\\# theorem b \x0d", " "].map String.toList))
    let d₂ := String.ofList (joinLines ([
      "\t\x0d", "", "# definition b", "", "## statement", "x", "## meta", "- label: b",
      "- attempts: 0/2", "- status: hard"].map String.toList))
    let i : Item := {
      label := "a", kind := .lem, uses := .ofList ["b"], status := .underway, attempts := ⟨1, 3⟩
      proof := "see b\n\n# a\n# theorem b" }
    let j : Item := {
      label := "b", kind := .defn, status := .hard, attempts := ⟨0, 2⟩, statement := "x" }
    StartsRecord d₂ ∧ parse (d₁ ++ "\n" ++ d₂) = .ok [i, j] ∧
      StartsRecord d₁ ∧ ∀ items, parse (d₁ ++ "\n" ++ d₁) ≠ .ok items := by
  intro d₁ d₂ i j
  have hs₁ : StartsRecord d₁ := by
    unfold StartsRecord
    rw [String.toList_ofList]
    decide +kernel
  have hs₂ : StartsRecord d₂ := by
    unfold StartsRecord
    rw [String.toList_ofList]
    decide +kernel
  have h₁ : parse d₁ = .ok [i] := by
    rw [parse_of_toList String.toList_ofList]
    decide +kernel
  have h₂ : parse d₂ = .ok [j] := by
    rw [parse_of_toList String.toList_ofList]
    decide +kernel
  refine ⟨hs₂, (parse_append_iff hs₂).mpr ⟨[i], [j], h₁, h₂, by simp [i, j], rfl⟩, hs₁, ?_⟩
  intro items h
  obtain ⟨is₁, is₂, ha, hb, hne, -⟩ := (parse_append_iff hs₁).mp h
  rw [h₁] at ha hb
  cases ha
  cases hb
  exact hne i (List.mem_singleton_self i) i (List.mem_singleton_self i) rfl

end ProofTracker.Document
