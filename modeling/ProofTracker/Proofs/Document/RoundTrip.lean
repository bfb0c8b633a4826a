import ProofTracker.Proofs.Document.Record

/-! # A document is read back

The lines of the document of legible items in normal form are those of the records of these items,
with an empty line behind each (`texts_render`). The cut at the headings of records finds the
records again, and each of them spells its item (`records_spell`). So the document of items in
normal form is read as these items, and that of any items as their normal forms (`parse_render`). -/

namespace ProofTracker.Document

open Text

variable {i : Item} {items : List Item}

theorem Storable.normalize (h : Storable i) : Storable i.normalize where
  label := h.label
  uses := h.uses
  attempts := h.attempts
  location := by
    show ∀ x ∈ normalLocation (normalLocation i.location), _
    rw [normalLocation_normalLocation]
    exact h.location

/-! ### The lines of a document -/

theorem texts_ofText (s : List Char) :
    (Line.ofText s).map Line.text = (lines s).map trimEnd := by
  unfold Line.ofText
  conv_rhs => rw [← List.zipIdx_map_fst 1 (lines s)]
  rw [List.map_map, List.map_map]
  rfl

/-- The lines of a document: the lines of the records, with an empty one behind each. -/
theorem texts_render (h : ∀ i ∈ items, Legible i ∧ i.normalize = i) (hne : items ≠ []) :
    (Line.ofText (render items).toList).map Line.text =
      items.flatMap fun i => recordLines i ++ [[]] := by
  have hk : ∀ i ∈ items, ∀ t ∈ recordLines i, Kept t := fun i hi _ =>
    kept_of_mem_recordLines (h i hi).1 (h i hi).2
  have hl : lines (render items).toList = items.flatMap fun i => recordLines i ++ [[]] := by
    unfold render
    rw [String.toList_ofList, lines_joinLines_eq_flatMap (by simpa using hne), List.flatMap_map]
    refine List.flatMap_congr fun i hi => ?_
    rw [(h i hi).2]
    exact lines_closeLines fun t ht => (hk i hi t ht).1
  have ht : ∀ t ∈ lines (render items).toList, trimEnd t = t := by
    intro t ht
    rw [hl, List.mem_flatMap] at ht
    obtain ⟨i, hi, ht⟩ := ht
    rcases List.mem_append.mp ht with ht | ht
    · exact (hk i hi t ht).2
    · rw [List.mem_singleton.mp ht]; rfl
  rw [texts_ofText, List.map_congr_left (g := id) ht, List.map_id, hl]

/-! ### Reading a document -/

/-- The cut at the headings of records finds the records. -/
theorem records_spell {ls : List Line} (h : ∀ i ∈ items, Label.Solid i.label.toList)
    (hls : ls.map Line.text = items.flatMap fun i => recordLines i ++ [[]]) :
    (Record.ofLines ls).1 = [] ∧
      List.Forall₂ (fun i r => r.kind = i.kind ∧ r.label = i.label.toList ∧ r.before = [] ∧
        Spells i r.parts) items (Record.ofLines ls).2 := by
  have hls' : ls.map Line.text =
      items.flatMap (fun i => heading i.kind i.label.toList :: bodyLines i) ++ [] := by
    rw [hls, List.append_nil]
    refine List.flatMap_congr fun i _ => ?_
    rw [recordLines_eq, bodyLines, List.cons_append]
  have hstart : ∀ i ∈ items, ofHeading? (heading i.kind i.label.toList) =
      some (i.kind, i.label.toList) := fun i hi => ofHeading?_heading (h i hi)
  obtain ⟨h1, h2⟩ := cutAt_of_texts ofHeading?
    (fun i : Item => heading i.kind i.label.toList) (fun i => (i.kind, i.label.toList)) bodyLines
    hstart (fun i _ t ht => ofHeading?_of_mem_bodyLines ht) (by simp) hls'
  unfold Record.ofLines
  generalize cutAt ofHeading? ls = cut at h1 h2
  obtain ⟨before, records⟩ := cut
  rw [ite_self] at h1
  refine ⟨List.map_eq_nil_iff.mp h1, ?_⟩
  rw [List.forall₂_map_right_iff]
  refine h2.imp fun i p hp => ?_
  obtain ⟨l, ⟨k, label⟩, body⟩ := p
  obtain ⟨hv, hb⟩ := hp
  rw [List.append_nil, or_self] at hb
  obtain ⟨hv1, hv2⟩ := Prod.mk.inj hv
  obtain ⟨h3, h4⟩ := spells_of_bodyLines hb
  dsimp only
  generalize cutAt Section.ofHeading? body = cut at h3 h4
  exact ⟨hv1, hv2, h3, h4⟩

theorem readRecords_of_spell {rs : List Record} (earlier : List String)
    (h : ∀ i ∈ items, Legible i ∧ i.normalize = i) (hd : (items.map Item.label).Nodup)
    (he : ∀ i ∈ items, i.label ∉ earlier)
    (hrs : List.Forall₂ (fun i r => r.kind = i.kind ∧ r.label = i.label.toList ∧ r.before = [] ∧
      Spells i r.parts) items rs) : readRecords earlier rs = .ok items := by
  induction hrs generalizing earlier with
  | nil => rfl
  | @cons i r items rs hr _ ih =>
    obtain ⟨hk, hl, hb, hp⟩ := hr
    obtain ⟨hs, hn⟩ := h i (by simp)
    rw [List.map_cons, List.nodup_cons] at hd
    have hrest := ih (i.label :: earlier) (fun j hj => h j (by simp [hj])) hd.2
      fun j hj => by
        rw [List.mem_cons, not_or]
        exact ⟨fun hij => hd.1 (hij ▸ List.mem_map_of_mem hj), he j (by simp [hj])⟩
    unfold readRecords
    rw [Record.read_of_spells hs hn hk hl hb hp]
    refine bind_eq_ok_iff.mpr ⟨i, rfl, ?_⟩
    rw [if_neg (he i (by simp)), hrest]
    rfl

/-- **The document of legible items in normal form is read as these items.** -/
theorem parse_render_of_legible (h : ∀ i ∈ items, Legible i ∧ i.normalize = i)
    (hd : (items.map Item.label).Nodup) : parse (render items) = .ok items := by
  by_cases hne : items = []
  · subst hne; rfl
  obtain ⟨hbefore, hrs⟩ := records_spell (fun i hi => (h i hi).1.label) (texts_render h hne)
  have hread := readRecords_of_spell [] h hd (by simp) hrs
  unfold parse
  simp only [hbefore, List.find?_nil]
  exact hread

/-- The document of items in normal form is read as these items. -/
theorem parse_render_of_normal (h : ∀ i ∈ items, Storable i ∧ i.normalize = i)
    (hd : (items.map Item.label).Nodup) : parse (render items) = .ok items :=
  parse_render_of_legible (fun i hi => ⟨(h i hi).1.legible, (h i hi).2⟩) hd

/-- The writer does not tell an item from its normal form. -/
theorem render_map_normalize (items : List Item) :
    render (items.map Item.normalize) = render items := by
  unfold render
  rw [List.map_map]
  refine congrArg _ (congrArg _ (List.map_congr_left fun i _ => ?_))
  rw [Function.comp_apply, Item.normalize_normalize]

/-- **The document of items is read back as these items in normal form**, whatever their texts hold:
in particular no text can change another field or another item. -/
theorem parse_render (h : ∀ i ∈ items, Storable i) (hd : (items.map Item.label).Nodup) :
    parse (render items) = .ok (items.map Item.normalize) := by
  have hn : ∀ i ∈ items.map Item.normalize, Storable i ∧ i.normalize = i := by
    intro j hj
    obtain ⟨i, hi, rfl⟩ := List.mem_map.mp hj
    exact ⟨(h i hi).normalize, i.normalize_normalize⟩
  have hd' : ((items.map Item.normalize).map Item.label).Nodup := by
    rw [List.map_map]
    exact hd
  rw [← render_map_normalize]
  exact parse_render_of_normal hn hd'

/-- Texts that imitate the records, sections and fields of another item. -/
theorem parse_render_imitation :
    let i : Item := {
      label := "a:b", kind := .lem, status := .done, attempts := ⟨1, 3⟩
      location := some " A.lean ", statement := "# theorem c\n## meta\n- status: todo\n\\# x "
      proof := "\n## statement\r" }
    let j : Item := { label := "c", kind := .defn, uses := {"a:b"}, attempts := ⟨0, 2⟩ }
    parse (render [i, j]) = .ok [i.normalize, j.normalize] := by
  intro i j
  have hi : Storable i :=
    ⟨by decide, fun l hl => absurd hl SortedBy.notMem_empty, by decide, by decide⟩
  have hj : Storable j := by
    refine ⟨by decide, fun l hl => ?_, by decide, by decide⟩
    rw [List.mem_singleton.mp (SortedBy.mem_toList.mpr hl)]
    decide
  exact parse_render (by simp [hi, hj]) (by decide)

end ProofTracker.Document
