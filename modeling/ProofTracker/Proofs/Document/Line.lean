import Mathlib.Data.List.Forall2
import ProofTracker.Document.Line
import ProofTracker.Item.Label
import ProofTracker.Proofs.Text.Lines

/-! # Headings and the lines between them

Lines are cut at their headings: if the lines spell, one after the other, headings with lines that
are none, then the cut finds these headings and these lines again (`cutAt_of_texts`). Headings of
records and of sections start with a number sign, and an escaped line never does (`head?_escape`),
so whatever a free text holds, it opens nothing. -/

namespace ProofTracker

namespace Label

variable {l : String} {s : List Char} {c : Char}

theorem solid_iff : Solid s ↔ s ≠ [] ∧ ∀ c ∈ s, Text.isBlank c = false := by
  unfold Solid
  simp [List.all_eq_true]

theorem Solid.ne_nil (h : Solid s) : s ≠ [] := (solid_iff.mp h).1

theorem Solid.isBlank (h : Solid s) (hc : c ∈ s) : Text.isBlank c = false := (solid_iff.mp h).2 c hc

theorem Solid.notMem_newline (h : Solid s) : '\n' ∉ s := fun hc => by
  have := h.isBlank hc
  simp at this

theorem Solid.trim (h : Solid s) : Text.trim s = s := Text.trim_of_forall fun _ => h.isBlank

theorem valid_iff : Valid l ↔ l ≠ "" ∧
    ∀ c ∈ l.toList, Text.isBlank c = false ∧ c ≠ '[' ∧ c ≠ ']' ∧ c ≠ ',' := by
  unfold Valid
  simp [allows, List.all_eq_true, and_assoc]

theorem Valid.isBlank (h : Valid l) (hc : c ∈ l.toList) : Text.isBlank c = false :=
  ((valid_iff.mp h).2 c hc).1

theorem Valid.solid (h : Valid l) : Solid l.toList :=
  solid_iff.mpr ⟨fun he => h.1 (by rw [← String.toList_inj, he]; rfl), fun _ => h.isBlank⟩

theorem Valid.notMem_bracket (h : Valid l) : ']' ∉ l.toList := fun hc =>
  ((valid_iff.mp h).2 _ hc).2.2.1 rfl

end Label

namespace Document

open Text

/-! ### The cut -/

section Cut

variable {β : Type} {heading? : List Char → Option β} {l : Line} {ls ms : List Line} {b : β}

theorem cutAt_append (h : ∀ l ∈ ls, heading? l.text = none) :
    cutAt heading? (ls ++ ms) = (ls ++ (cutAt heading? ms).1, (cutAt heading? ms).2) := by
  induction ls with
  | nil => rfl
  | cons l ls ih =>
    rw [List.cons_append, cutAt, ih fun m hm => h m (by simp [hm]), h l (by simp)]
    rfl

theorem cutAt_of_none (h : ∀ l ∈ ls, heading? l.text = none) : cutAt heading? ls = (ls, []) := by
  have hc : cutAt heading? (ls ++ []) = (ls ++ [], []) := cutAt_append h
  rwa [List.append_nil] at hc

theorem cutAt_cons_of_some (h : heading? l.text = some b) :
    cutAt heading? (l :: ls) =
      ([], (l, b, (cutAt heading? ls).1) :: (cutAt heading? ls).2) := by
  rw [cutAt, h]

/-- A heading parts the lines in front of it from those behind. -/
theorem cutAt_append_cons_of_some (h : heading? l.text = some b) :
    cutAt heading? (ls ++ l :: ms) = ((cutAt heading? ls).1,
      (cutAt heading? ls).2 ++ (l, b, (cutAt heading? ms).1) :: (cutAt heading? ms).2) := by
  induction ls with
  | nil => exact cutAt_cons_of_some h
  | cons m ls ih =>
    rw [List.cons_append, cutAt, cutAt, ih]
    cases heading? m.text <;> rfl

/-- The lines before the first heading are among the lines that are cut. -/
theorem mem_of_mem_cutAt_fst (h : l ∈ (cutAt heading? ls).1) : l ∈ ls := by
  induction ls with
  | nil => cases h
  | cons m ls ih =>
    unfold cutAt at h
    cases hm : heading? m.text with
    | some b => simp [hm] at h
    | none =>
      simp only [hm, List.mem_cons] at h
      exact List.mem_cons.mpr (h.imp_right ih)

/-- Every part of the cut starts with a heading and holds lines that are cut. -/
theorem of_mem_cutAt_snd {p : Line × β × List Line} (h : p ∈ (cutAt heading? ls).2) :
    heading? p.1.text = some p.2.1 ∧ ∀ l ∈ p.2.2, l ∈ ls := by
  induction ls with
  | nil => cases h
  | cons m ls ih =>
    unfold cutAt at h
    have hmem (h : p ∈ (cutAt heading? ls).2) : heading? p.1.text = some p.2.1 ∧
        ∀ l ∈ p.2.2, l ∈ m :: ls :=
      ⟨(ih h).1, fun l hl => List.mem_cons_of_mem _ ((ih h).2 l hl)⟩
    cases hm : heading? m.text with
    | none => exact hmem (by simpa [hm] using h)
    | some b =>
      simp only [hm, List.mem_cons] at h
      rcases h with rfl | h
      · exact ⟨hm, fun l hl => List.mem_cons_of_mem _ (mem_of_mem_cutAt_fst hl)⟩
      · exact hmem h

theorem none_of_mem_cutAt_fst (h : l ∈ (cutAt heading? ls).1) : heading? l.text = none := by
  induction ls with
  | nil => cases h
  | cons m ls ih =>
    unfold cutAt at h
    cases hm : heading? m.text with
    | some b => simp [hm] at h
    | none =>
      simp only [hm, List.mem_cons] at h
      rcases h with rfl | h
      · exact hm
      · exact ih h

/-- Below a heading there is no heading before the next part. -/
theorem none_of_mem_cutAt_snd {p : Line × β × List Line} (h : p ∈ (cutAt heading? ls).2) :
    ∀ l ∈ p.2.2, heading? l.text = none := by
  induction ls with
  | nil => cases h
  | cons m ls ih =>
    unfold cutAt at h
    cases hm : heading? m.text with
    | none => exact ih (by simpa [hm] using h)
    | some b =>
      simp only [hm, List.mem_cons] at h
      rcases h with rfl | h
      · exact fun l hl => none_of_mem_cutAt_fst hl
      · exact ih h

variable (heading?) in
/-- No line is lost in the cut. -/
theorem cutAt_flatMap (ls : List Line) :
    (cutAt heading? ls).1 ++ (cutAt heading? ls).2.flatMap (fun p => p.1 :: p.2.2) = ls := by
  induction ls with
  | nil => rfl
  | cons l ls ih =>
    unfold cutAt
    cases heading? l.text <;> simp [ih]

variable (heading?) in
/-- **The cut finds headings and what stands under them.** The lines spell the headings `start` of
the entries `es`, each with its `body` below, and a `tail` behind the last one. -/
theorem cutAt_of_texts {ε : Type} (start : ε → List Char) (val : ε → β)
    (body : ε → List (List Char)) {tail : List (List Char)} {es : List ε}
    (hstart : ∀ e ∈ es, heading? (start e) = some (val e))
    (hbody : ∀ e ∈ es, ∀ t ∈ body e, heading? t = none) (htail : ∀ t ∈ tail, heading? t = none)
    (h : ls.map Line.text = es.flatMap (fun e => start e :: body e) ++ tail) :
    (cutAt heading? ls).1.map Line.text = (if es = [] then tail else []) ∧
      List.Forall₂ (fun e p => p.2.1 = val e ∧
        (p.2.2.map Line.text = body e ∨ p.2.2.map Line.text = body e ++ tail))
        es (cutAt heading? ls).2 := by
  induction es generalizing ls with
  | nil =>
    rw [List.flatMap_nil, List.nil_append] at h
    rw [cutAt_of_none fun l hl => htail _ (h ▸ List.mem_map_of_mem hl)]
    exact ⟨by rw [if_pos rfl]; exact h, .nil⟩
  | cons e es ih =>
    rw [List.flatMap_cons, List.append_assoc, List.cons_append, List.map_eq_cons_iff] at h
    obtain ⟨l, rest, rfl, hl, hrest⟩ := h
    obtain ⟨mid, rest, rfl, hmid, hrest⟩ := List.map_eq_append_iff.mp hrest
    obtain ⟨ih1, ih2⟩ := ih (fun e he => hstart e (by simp [he]))
      (fun e he => hbody e (by simp [he])) hrest
    have hm : ∀ m ∈ mid, heading? m.text = none := fun m hm =>
      hbody e (by simp) _ (hmid ▸ List.mem_map_of_mem hm)
    rw [cutAt_cons_of_some (by rw [hl]; exact hstart e (by simp)), cutAt_append hm]
    refine ⟨by simp, List.Forall₂.cons ⟨rfl, ?_⟩ ih2⟩
    rw [List.map_append, hmid, ih1]
    split_ifs
    · exact Or.inr rfl
    · left; simp

end Cut

/-! ### Headings of records -/

theorem ofHeading?_heading {k : Kind} {l : List Char} (h : Label.Solid l) :
    ofHeading? (heading k l) = some (k, l) := by
  have hk : k.name.toList ≠ [] := by cases k <;> decide
  have hkb : ∀ c ∈ k.name.toList, isBlank c = false := by
    have hall : k.name.toList.all (!isBlank ·) = true := by cases k <;> decide
    simpa using hall
  unfold heading ofHeading?
  simp only [List.cons_append]
  rw [words_append_cons isBlank_space, words_of_forall hk hkb,
    words_of_forall h.ne_nil fun _ => h.isBlank]
  simp [Kind.ofName?_name]

theorem ofHeading?_of_head {l : List Char} (h : l.head? ≠ some '#') : ofHeading? l = none := by
  unfold ofHeading?
  split
  · simp at h
  · rfl

/-- The label in a heading is solid, whatever else it holds. -/
theorem solid_of_ofHeading? {l : List Char} {p : Kind × List Char} (h : ofHeading? l = some p) :
    Label.Solid p.2 := by
  unfold ofHeading? at h
  split at h
  · next rest =>
    split at h
    · next k label hw =>
      obtain ⟨k', -, rfl⟩ := Option.map_eq_some_iff.mp h
      exact Label.solid_iff.mpr (mem_words (s := rest) (by rw [hw]; simp))
    · cases h
  · cases h

/-- The heading of a section opens no record. -/
theorem ofHeading?_section (s : Section) : ofHeading? s.heading = none := by
  cases s <;> rfl

/-! ### Headings of sections -/

theorem Section.ofHeading?_of_head {l : List Char} (h : l.head? ≠ some '#') :
    Section.ofHeading? l = none := by
  refine List.find?_eq_none.mpr fun s _ => ?_
  rw [decide_eq_true_eq]
  rintro rfl
  exact h rfl

/-! ### Lines of free text -/

theorem headingLike_cons_of_ne {c : Char} (hc : c ≠ '\\') (l : List Char) :
    headingLike (c :: l) = decide (c = '#') := by
  unfold headingLike
  rw [List.dropWhile_cons_of_neg (by simpa using hc)]
  simp

/-- **An escaped line does not start with a number sign.** -/
theorem head?_escape (l : List Char) : (escape l).head? ≠ some '#' := by
  unfold escape
  split_ifs with h
  · simp
  · intro hh
    cases l with
    | nil => simp at hh
    | cons c l =>
      simp only [List.head?_cons, Option.some.injEq] at hh
      subst hh
      rw [headingLike_cons_of_ne (by decide)] at h
      simp at h

theorem trimEnd_escape {l : List Char} (h : trimEnd l = l) : trimEnd (escape l) = escape l := by
  unfold escape
  split_ifs with hl
  · refine trimEnd_cons (fun he => ?_) h _
    subst he
    cases hl
  · exact h

theorem notMem_newline_escape {l : List Char} (h : '\n' ∉ l) : '\n' ∉ escape l := by
  unfold escape
  split_ifs
  · simp [h]
  · exact h

end Document

end ProofTracker
