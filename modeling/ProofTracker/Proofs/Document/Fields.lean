import Mathlib.Data.List.TakeDrop
import ProofTracker.Document.Fields
import ProofTracker.Document.Printer
import ProofTracker.Proofs.Checked
import ProofTracker.Proofs.Document.Line
import ProofTracker.Proofs.Document.Normal
import ProofTracker.Proofs.Sorted

/-! # Fields are read back

The value of each field is read back as it was written: dependencies (`readUses_usesText`), attempts
(`readAttempts_attemptsText`), the location (`normalLocation_getD`). A field's line gives its key
the written value (`Fields.add_fieldLine`), so the lines of the fields of an item in normal form
give what the item says (`foldlM_add_fieldLines`). -/

namespace ProofTracker.Document

open Text

/-- An item that a document can hold: its label and its dependencies are labels, its attempts are
within the budget, and its location stands on one line. -/
structure Storable (i : Item) : Prop where
  label : Label.Valid i.label
  uses : ∀ l ∈ i.uses, Label.Valid l
  attempts : i.attempts.current ≤ i.attempts.budget
  location : ∀ x ∈ normalLocation i.location, '\n' ∉ x.toList

/-- An item whose record can be read back as far as its headings and fields go. Its label may hold
brackets and commas, and its dependencies anything that does not end them. -/
structure Legible (i : Item) : Prop where
  label : Label.Solid i.label.toList
  uses : ∀ l ∈ i.uses, Label.Solid l.toList ∧ ']' ∉ l.toList
  attempts : i.attempts.current ≤ i.attempts.budget
  location : ∀ x ∈ normalLocation i.location, '\n' ∉ x.toList

theorem Storable.legible {i : Item} (h : Storable i) : Legible i where
  label := h.label.solid
  uses l hl := ⟨(h.uses l hl).solid, (h.uses l hl).notMem_bracket⟩
  attempts := h.attempts
  location := h.location

/-! ### Dependencies -/

theorem readUse_label {l : List Char} (h : Label.Solid l) :
    readUse ('[' :: l) = .ok (some (.ofList l)) := by
  have hb : ∀ c ∈ '[' :: l, isBlank c = false := by
    intro c hc
    rcases List.mem_cons.mp hc with rfl | hc
    · decide
    · exact h.isBlank hc
  unfold readUse
  rw [trim_of_forall hb, List.dropWhile_cons_of_neg (by decide), trim_of_forall hb]
  simp only [h.trim, h, if_true]

/-- The comma and the blank between two dependencies are passed over. -/
theorem readUse_separator {l : List Char} (h : Label.Solid l) :
    readUse (',' :: ' ' :: '[' :: l) = readUse ('[' :: l) := by
  have hb : ∀ c ∈ '[' :: l, isBlank c = false := by
    intro c hc
    rcases List.mem_cons.mp hc with rfl | hc
    · decide
    · exact h.isBlank hc
  have ht : trimEnd ('[' :: l) = '[' :: l := trimEnd_of_forall hb
  have h1 : trim (',' :: ' ' :: '[' :: l) = ',' :: ' ' :: '[' :: l := by
    refine trim_eq_self_iff.mpr ⟨?_, ?_⟩
    · rw [trimStart_cons, if_neg (by decide)]
    · exact trimEnd_append (s := [',', ' ']) (by simp) ht
  unfold readUse
  rw [h1, trim_of_forall hb, List.dropWhile_cons_of_pos (by decide),
    List.dropWhile_cons_of_neg (by decide), List.dropWhile_cons_of_neg (by decide),
    trim_cons_of_isBlank isBlank_space]

/-- The written dependencies, each without its closing bracket. All but the first have the separator
in front. -/
def usePieces : List (List Char) → List (List Char)
  | [] => []
  | l :: ls => ('[' :: l) :: ls.map fun l => ',' :: ' ' :: '[' :: l

theorem intercalate_eq_flatMap_usePieces (ls : List (List Char)) :
    [',', ' '].intercalate (ls.map fun l => '[' :: l ++ [']']) =
      (usePieces ls).flatMap (· ++ [']']) := by
  cases ls with
  | nil => rfl
  | cons l ls =>
    induction ls generalizing l with
    | nil => simp [usePieces]
    | cons m ls ih =>
      rw [List.map_cons, List.intercalate_cons_of_ne_nil (by simp), ih m]
      simp [usePieces]

theorem mapM_readUse_usePieces {ls : List (List Char)} (h : ∀ l ∈ ls, Label.Solid l) :
    (usePieces ls).mapM readUse = .ok (ls.map fun l => some (.ofList l)) := by
  cases ls with
  | nil => rfl
  | cons l ls =>
    refine mapM_eq_ok_iff.mpr (.cons (readUse_label (h l (by simp))) ?_)
    rw [List.forall₂_map_left_iff, List.forall₂_map_right_iff]
    refine List.forall₂_same.mpr fun m hm => ?_
    rw [readUse_separator (h m (by simp [hm]))]
    exact readUse_label (h m (by simp [hm]))

theorem mem_usePieces {ls : List (List Char)} {p : List Char} (h : p ∈ usePieces ls) :
    ∃ l ∈ ls, p = '[' :: l ∨ p = ',' :: ' ' :: '[' :: l := by
  cases ls with
  | nil => simp [usePieces] at h
  | cons l ls =>
    rcases List.mem_cons.mp h with rfl | h
    · exact ⟨l, by simp, Or.inl rfl⟩
    · obtain ⟨m, hm, rfl⟩ := List.mem_map.mp h
      exact ⟨m, by simp [hm], Or.inr rfl⟩

theorem usesText_eq (uses : LabelSet) : usesText uses =
    '[' :: ((usePieces (uses.toList.map String.toList)).flatMap (· ++ [']']) ++ [']']) := by
  unfold usesText
  rw [← intercalate_eq_flatMap_usePieces, List.map_map]; rfl

theorem mem_usesText {uses : LabelSet} {c : Char} (h : c ∈ usesText uses) :
    c ∈ ['[', ']', ',', ' '] ∨ ∃ l ∈ uses, c ∈ l.toList := by
  rw [usesText_eq] at h
  simp only [List.mem_cons, List.mem_append, List.mem_flatMap, List.not_mem_nil, or_false] at h ⊢
  rcases h with rfl | ⟨p, hp, hc⟩ | rfl
  · simp
  · obtain ⟨t, ht, hp⟩ := mem_usePieces hp
    obtain ⟨l, hl, rfl⟩ := List.mem_map.mp ht
    rcases hp with rfl | rfl <;> simp only [List.mem_cons] at hc
    · rcases hc with (rfl | hc) | rfl
      · simp
      · exact Or.inr ⟨l, hl, hc⟩
      · simp
    · rcases hc with (rfl | rfl | rfl | hc) | rfl
      · simp
      · simp
      · simp
      · exact Or.inr ⟨l, hl, hc⟩
      · simp
  · simp

/-- **Written dependencies are read back.** -/
theorem readUses_usesText {uses : LabelSet}
    (h : ∀ l ∈ uses, Label.Solid l.toList ∧ ']' ∉ l.toList) :
    readUses (usesText uses) = .ok uses := by
  set ls := uses.toList.map String.toList with hls
  have hsolid : ∀ l ∈ ls, Label.Solid l := by simpa [hls] using fun l hl => (h l hl).1
  have hbr : ∀ p ∈ usePieces ls, ']' ∉ p := by
    intro p hp
    obtain ⟨t, ht, hp⟩ := mem_usePieces hp
    obtain ⟨l, hl, rfl⟩ := List.mem_map.mp ht
    have := (h l hl).2
    rcases hp with rfl | rfl <;> simp [this]
  have hpieces : ((usePieces ls).flatMap (· ++ [']'])).splitOn ']' = usePieces ls ++ [[]] :=
    splitOn_flatMap_concat hbr
  have hread : (usePieces ls ++ [[]]).mapM readUse =
      .ok (ls.map (fun l => some (String.ofList l)) ++ [none]) := by
    rw [List.mapM_append, mapM_readUse_usePieces hsolid]; rfl
  have hback : ls.map String.ofList = uses.toList := by simp [hls, Function.comp_def]
  rw [usesText_eq]
  unfold readUses
  simp only [List.getLast?_concat, List.dropLast_concat, ← hls, hpieces, hread]
  simp [bind, Except.bind, pure, Except.pure, hback]

/-! ### Attempts -/

theorem span_append_cons {p : Char → Bool} {s t : List Char} {c : Char} (hs : ∀ d ∈ s, p d = true)
    (hc : p c = false) : (s ++ c :: t).span p = (s, c :: t) := by
  rw [List.span_eq_takeWhile_dropWhile, List.takeWhile_append_of_pos hs,
    List.dropWhile_append_of_pos hs, List.takeWhile_cons_of_neg (by simp [hc]),
    List.dropWhile_cons_of_neg (by simp [hc]), List.append_nil]

theorem trim_ofCount (n : UInt32) : trim (ofCount n) = ofCount n :=
  trim_of_forall fun _ => isBlank_of_mem_ofCount

/-- **Written attempts are read back.** -/
theorem readAttempts_attemptsText {a : Attempts} (h : a.current ≤ a.budget) :
    readAttempts (attemptsText a) = .ok a := by
  have hs : ∀ c ∈ ofCount a.current ++ [' '], decide (c ≠ '/') = true := by
    intro c hc
    rw [decide_eq_true_eq]
    rintro rfl
    rcases List.mem_append.mp hc with hc | hc
    · have := isDigit_of_mem_ofCount hc
      cases this
    · simp at hc
  have hspan : (attemptsText a).span (· ≠ '/') =
      (ofCount a.current ++ [' '], '/' :: ' ' :: ofCount a.budget) := by
    unfold attemptsText
    rw [List.append_cons]
    exact span_append_cons hs (by decide)
  have hc : trim (ofCount a.current ++ [' ']) = ofCount a.current := by
    rw [trim_concat_of_isBlank isBlank_space, trim_ofCount]
  have hb : trim (' ' :: ofCount a.budget) = ofCount a.budget := by
    rw [trim_cons_of_isBlank isBlank_space, trim_ofCount]
  unfold readAttempts
  simp only [hspan, hc, hb, count?_ofCount, if_neg (UInt32.not_lt.mpr h)]
  rfl

/-! ### Locations -/

/-- **A written location is read back**, and the phrase for no location is read as none. -/
theorem normalLocation_getD {l : Option String} (h : normalLocation l = l) :
    normalLocation (some (l.getD noLocation)) = l := by
  cases l with
  | none => decide
  | some x => exact h

/-! ### Lines of fields -/

/-- A field's line gives its key the value. -/
theorem Fields.add_fieldLine (f : Fields) {key : String} {value : List Char}
    (hkey : ∀ c ∈ key.toList, decide (c ≠ ':') = true) (ht : trimmed key = key)
    (hv : trim value = value) : f.add (fieldLine key value) = f.set key value := by
  have hspan : (key.toList ++ ':' :: ' ' :: value).span (· ≠ ':') =
      (key.toList, ':' :: ' ' :: value) := span_append_cons hkey (by decide)
  unfold Fields.add fieldLine
  simp only [List.cons_append, hspan, String.ofList_toList, ht, trim_cons_of_isBlank isBlank_space,
    hv]
  rfl

/-- What the fields of the item say. -/
def Fields.ofItem (i : Item) : Fields where
  label := some i.label.toList
  uses := i.uses
  location := i.location
  status := some i.status
  attempts := some i.attempts
  priority := i.priority

/-- The keys under which fields are written. -/
def fieldKeys : List String := ["label", "uses", "file", "status", "attempts", "priority"]

theorem notMem_colon_of_mem_fieldKeys {key : String} (h : key ∈ fieldKeys) :
    ∀ c ∈ key.toList, decide (c ≠ ':') = true := by
  have hall : key.toList.all (· ≠ ':') = true := by revert key; decide
  exact List.all_eq_true.mp hall

theorem trimmed_of_mem_fieldKeys {key : String} (h : key ∈ fieldKeys) : trimmed key = key := by
  revert key; decide

theorem Fields.add_known (f : Fields) {key : String} {value : List Char} (hkey : key ∈ fieldKeys)
    (hv : trim value = value) : f.add (fieldLine key value) = f.set key value :=
  f.add_fieldLine (notMem_colon_of_mem_fieldKeys hkey) (trimmed_of_mem_fieldKeys hkey) hv

theorem usesText_ne_nil (uses : LabelSet) : usesText uses ≠ [] := by
  rw [usesText_eq]; simp

theorem trim_usesText (uses : LabelSet) : trim (usesText uses) = usesText uses := by
  refine trim_eq_self_iff.mpr ⟨trimStart_eq_self_iff.mpr ?_, trimEnd_eq_self_iff.mpr ?_⟩
  · intro c hc
    cases hc
    decide
  · intro c hc
    rw [usesText_eq, List.getLast?_cons, List.getLast?_concat] at hc
    cases hc
    decide

theorem trim_location {i : Item} (hn : i.normalize = i) :
    trim (i.location.getD noLocation).toList = (i.location.getD noLocation).toList := by
  have hl := normalLocation_eq_self_iff.mp (Item.normalize_eq_self_iff.mp hn).1
  cases h : i.location with
  | none => decide
  | some x =>
    have := congrArg String.toList (hl x h).1
    rwa [trimmed, String.toList_ofList] at this

theorem trim_statusName (s : Status) : trim s.name.toList = s.name.toList := by
  cases s <;> decide

theorem trim_attemptsText (a : Attempts) : trim (attemptsText a) = attemptsText a := by
  unfold attemptsText
  refine trim_eq_self_iff.mpr ⟨trimStart_eq_self_iff.mpr fun c hc => ?_, ?_⟩
  · rw [List.head?_append_of_ne_nil _ (ofCount_ne_nil _)] at hc
    exact isBlank_of_mem_ofCount (List.mem_of_mem_head? hc)
  · rw [show ofCount a.current ++ ' ' :: '/' :: ' ' :: ofCount a.budget =
      (ofCount a.current ++ [' ', '/', ' ']) ++ ofCount a.budget by simp]
    exact trimEnd_append (ofCount_ne_nil _) (trimEnd_of_forall fun _ => isBlank_of_mem_ofCount)

/-- **The lines of the fields give what the item says.** -/
theorem foldlM_add_fieldLines {i : Item} (h : Legible i) (hn : i.normalize = i) :
    (fieldLines i).foldlM Fields.add {} = .ok (Fields.ofItem i) := by
  have hlabel : ∀ f : Fields, f.add (fieldLine "label" i.label.toList) =
      .ok { f with label := some i.label.toList } := fun f =>
    f.add_known (by decide) h.label.trim
  have huses : ∀ f : Fields, f.add (fieldLine "uses" (usesText i.uses)) =
      .ok { f with uses := i.uses } := fun f => by
    rw [f.add_known (by decide) (trim_usesText _), Fields.set, readUses_usesText h.uses]; rfl
  have hfile : ∀ f : Fields, f.add (fieldLine "file" (i.location.getD noLocation).toList) =
      .ok { f with location := i.location } := fun f => by
    rw [f.add_known (by decide) (trim_location hn), Fields.set, String.ofList_toList,
      normalLocation_getD (Item.normalize_eq_self_iff.mp hn).1]
    rfl
  have hstatus : ∀ f : Fields, f.add (fieldLine "status" i.status.name.toList) =
      .ok { f with status := some i.status } := fun f => by
    rw [f.add_known (by decide) (trim_statusName _), Fields.set, String.ofList_toList, Status.read,
      Status.ofName?_name]
    rfl
  have hattempts : ∀ f : Fields, f.add (fieldLine "attempts" (attemptsText i.attempts)) =
      .ok { f with attempts := some i.attempts } := fun f => by
    rw [f.add_known (by decide) (trim_attemptsText _), Fields.set,
      readAttempts_attemptsText h.attempts]
    rfl
  have hpriority : ∀ f : Fields, f.add (fieldLine "priority" (ofCount i.priority)) =
      .ok { f with priority := i.priority } := fun f => by
    rw [f.add_known (by decide) (trim_ofCount _), Fields.set, count?_ofCount]; rfl
  unfold fieldLines
  rw [List.foldlM_append]
  simp only [List.foldlM_cons, List.foldlM_nil, hlabel, huses, hfile, hstatus, hattempts]
  by_cases hp : i.priority = 0
  · rw [if_pos hp]
    simp [bind, Except.bind, pure, Except.pure, Fields.ofItem, hp]
  · rw [if_neg hp]
    simp [bind, Except.bind, pure, Except.pure, Fields.ofItem, hpriority]

end ProofTracker.Document
