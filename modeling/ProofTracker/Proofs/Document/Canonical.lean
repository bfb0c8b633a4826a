import Mathlib.Logic.Function.Iterate
import ProofTracker.Proofs.Document.RoundTrip

/-! # What is read can be written

Reading is lenient, but what it lets through is legible and in normal form (`legible_of_parse`): a
label in a heading is one word, a dependency ends at the first closing bracket, and no field holds a
line feed, since it stands on one line. So a document that can be read is written in a form that is
read as the same items, and reading and writing again change nothing (`parse_render_of_parse`). -/

namespace ProofTracker.Document

open Text

/-! ### Values of fields -/

theorem solid_of_readUse {piece : List Char} {l : String} (h : readUse piece = .ok (some l)) :
    Label.Solid l.toList ∧ l.toList ⊆ piece := by
  unfold readUse at h
  split at h
  · cases h
  · next l' hp =>
    split_ifs at h with hs
    cases h
    rw [String.toList_ofList]
    refine ⟨hs, fun c hc => ?_⟩
    have hc' : c ∈ '[' :: l' := List.mem_cons_of_mem _ (trim_subset l' hc)
    rw [← hp] at hc'
    exact trim_subset _ ((List.dropWhile_suffix _).subset (trim_subset _ hc'))
  · cases h

/-- **A dependency that is read is solid** and ends at its bracket. -/
theorem solid_of_readUses {value : List Char} {uses : LabelSet} (h : readUses value = .ok uses) :
    ∀ l ∈ uses, Label.Solid l.toList ∧ ']' ∉ l.toList := by
  unfold readUses at h
  split at h
  · next rest =>
    rw [unless_throw_eq_ok_iff] at h
    obtain ⟨labels, hlabels, h⟩ := bind_eq_ok_iff.mp h.2
    rw [pure_eq_ok_iff] at h
    subst h
    intro l hl
    have hl' : some l ∈ labels := by
      rcases SortedBy.mem_or_mem_of_mem_foldl_insert hl with hl | hl
      · simpa using hl
      · exact absurd hl SortedBy.notMem_empty
    obtain ⟨piece, hpiece, hread⟩ := exists_of_mem_mapM hlabels hl'
    obtain ⟨hs, hsub⟩ := solid_of_readUse hread
    exact ⟨hs, fun hc => notMem_of_mem_splitOn hpiece (hsub hc)⟩
  · cases h

theorem le_of_readAttempts {value : List Char} {a : Attempts} (h : readAttempts value = .ok a) :
    a.current ≤ a.budget := by
  unfold readAttempts at h
  split at h
  · split at h
    · split at h
      · rw [if_throw_eq_ok_iff, pure_eq_ok_iff] at h
        obtain ⟨hle, rfl⟩ := h
        exact UInt32.not_lt.mp hle
      · cases h
    · cases h
  · cases h

/-! ### Fields -/

/-- The fields of a record that can be read back. -/
structure Fields.Legible (f : Fields) : Prop where
  uses : ∀ l ∈ f.uses, Label.Solid l.toList ∧ ']' ∉ l.toList
  attempts : ∀ a ∈ f.attempts, a.current ≤ a.budget
  location : normalLocation f.location = f.location
  oneLine : ∀ x ∈ f.location, '\n' ∉ x.toList

theorem Fields.legible_empty : Fields.Legible {} where
  uses _ hl := absurd hl SortedBy.notMem_empty
  attempts _ ha := by cases ha
  location := rfl
  oneLine _ hx := by cases hx

theorem notMem_newline_of_mem_normalLocation {value : List Char} (hv : '\n' ∉ value) :
    ∀ x ∈ normalLocation (some (.ofList value)), '\n' ∉ x.toList := by
  intro x hx
  obtain ⟨⟨y, hy, rfl⟩, -⟩ := normalLocation_eq_some_iff.mp hx
  rw [← Option.some.inj hy, trimmed, String.toList_ofList, String.toList_ofList]
  exact fun hn => hv (trim_subset value hn)

theorem Fields.Legible.set {f f' : Fields} {key : String} {value : List Char} (hf : f.Legible)
    (hv : '\n' ∉ value) (h : f.set key value = .ok f') : f'.Legible := by
  unfold Fields.set at h
  split at h
  · rw [pure_eq_ok_iff] at h
    subst h
    exact { hf with }
  · obtain ⟨uses, huses, h⟩ := bind_eq_ok_iff.mp h
    rw [pure_eq_ok_iff] at h
    subst h
    exact { hf with uses := solid_of_readUses huses }
  · have hn := normalLocation_normalLocation (some (.ofList value))
    have hone := notMem_newline_of_mem_normalLocation hv
    generalize normalLocation (some (.ofList value)) = location at h hn hone
    rw [pure_eq_ok_iff] at h
    subst h
    exact { hf with location := hn, oneLine := hone }
  · split at h
    · rw [pure_eq_ok_iff] at h
      subst h
      exact { hf with }
    · cases h
  · obtain ⟨a, ha, h⟩ := bind_eq_ok_iff.mp h
    rw [pure_eq_ok_iff] at h
    subst h
    refine { hf with attempts := fun a' ha' => ?_ }
    cases ha'
    exact le_of_readAttempts ha
  · split at h
    · rw [pure_eq_ok_iff] at h
      subst h
      exact { hf with }
    · cases h
  · rw [pure_eq_ok_iff] at h
    exact h ▸ hf

theorem Fields.Legible.add {f f' : Fields} {line : List Char} (hf : f.Legible)
    (hl : '\n' ∉ line) (h : f.add line = .ok f') : f'.Legible := by
  unfold Fields.add at h
  split_ifs at h with hempty
  · cases h
    exact hf
  · split at h
    · next entry =>
      split at h
      · next key value hspan =>
        rw [List.span_eq_takeWhile_dropWhile] at hspan
        have hvalue : value ⊆ entry := fun c hc =>
          (List.dropWhile_suffix _).subset
            ((Prod.mk.inj hspan).2 ▸ List.mem_cons_of_mem _ hc)
        refine hf.set (fun hn => hl ?_) h
        exact List.mem_cons_of_mem _ (List.mem_cons_of_mem _ (hvalue (trim_subset _ hn)))
      · cases h
    · cases h

/-! ### Records -/

/-- The contents of a record that can be read back. -/
structure Contents.Legible (c : Contents) : Prop where
  fields : c.fields.Legible
  statement : normalText c.statement = c.statement
  proof : normalText c.proof = c.proof

theorem Contents.legible_empty : Contents.Legible {} where
  fields := Fields.legible_empty
  statement := rfl
  proof := rfl

theorem Contents.Legible.add {c c' : Contents} {p : Part} {label : String} (hc : c.Legible)
    (hp : ∀ l ∈ p.body, '\n' ∉ l.text) (h : c.add label p = .ok c') : c'.Legible := by
  unfold Contents.add at h
  rw [if_throw_eq_ok_iff] at h
  obtain ⟨-, h⟩ := h
  split at h
  · obtain ⟨f, hf, h⟩ := bind_eq_ok_iff.mp h
    cases h
    refine { hc with fields := of_foldlM_eq_ok hc.fields (fun l hl g g' hg hadd => ?_) hf }
    cases hgl : g.add l.text with
    | error e => rw [hgl] at hadd; cases hadd
    | ok f =>
      rw [hgl] at hadd
      cases hadd
      exact hg.add (hp l hl) hgl
  · cases h
    exact { hc with statement := normalText_normalText _ }
  · cases h
    exact { hc with proof := normalText_normalText _ }

/-- A record as lines of a text can give it: its label is one word, and the lines of its sections are
lines. -/
structure Record.Legible (r : Record) : Prop where
  label : Label.Solid r.label
  body : ∀ p ∈ r.parts, ∀ l ∈ p.body, '\n' ∉ l.text

theorem Record.legible_of_mem_ofLines {ls : List Line} (h : ∀ l ∈ ls, '\n' ∉ l.text) :
    ∀ r ∈ (Record.ofLines ls).2, r.Legible := by
  intro r hr
  obtain ⟨⟨l, ⟨k, label⟩, body⟩, hmem, rfl⟩ := List.mem_map.mp hr
  obtain ⟨hhead, hbody⟩ := of_mem_cutAt_snd hmem
  refine ⟨solid_of_ofHeading? hhead, fun p hp m hm => ?_⟩
  obtain ⟨⟨l', s, body'⟩, hmem', rfl⟩ := List.mem_map.mp hp
  exact h m (hbody m ((of_mem_cutAt_snd hmem').2 m hm))

/-- An item that a record gives has the record's label, and for the rest it says what the contents
say. -/
theorem Record.of_finish {r : Record} {c : Contents} {i : Item} (h : r.finish c = .ok i) :
    i.label = .ofList r.label ∧ i.uses = c.fields.uses ∧ c.fields.attempts = some i.attempts ∧
      i.location = c.fields.location ∧ i.statement = .ofList c.statement ∧
      i.proof = .ofList c.proof := by
  unfold Record.finish at h
  rw [unless_throw_eq_ok_iff] at h
  obtain ⟨-, h⟩ := h
  split at h
  · rw [unless_throw_eq_ok_iff] at h
    obtain ⟨-, h⟩ := h
    split at h
    · split at h
      · next ha =>
        rw [pure_eq_ok_iff] at h
        subst h
        exact ⟨rfl, rfl, ha, rfl, rfl, rfl⟩
      · cases h
    · cases h
  · cases h

/-- **An item that is read is legible and in normal form.** -/
theorem Record.Legible.read {r : Record} {i : Item} (hr : r.Legible) (h : r.read = .ok i) :
    Document.Legible i ∧ i.normalize = i := by
  unfold Record.read at h
  split at h
  · cases h
  · obtain ⟨c, hc, h⟩ := bind_eq_ok_iff.mp h
    have hcl : c.Legible := of_foldlM_eq_ok Contents.legible_empty
      (fun p hp c c' hc hadd => hc.add (hr.body p hp) hadd) hc
    cases hfin : r.finish c with
    | error e => rw [hfin] at h; cases h
    | ok j =>
      rw [hfin] at h
      cases h
      obtain ⟨hlabel, huses, hattempts, hloc, hstatement, hproof⟩ := Record.of_finish hfin
      refine ⟨⟨?_, ?_, ?_, ?_⟩, Item.normalize_eq_self_iff.mpr ⟨?_, ?_, ?_⟩⟩
      · rw [hlabel, String.toList_ofList]
        exact hr.label
      · rw [huses]
        exact hcl.fields.uses
      · exact hcl.fields.attempts _ hattempts
      · rw [hloc, hcl.fields.location]
        exact hcl.fields.oneLine
      · rw [hloc, hcl.fields.location]
      · rw [hstatement, String.toList_ofList, hcl.statement]
      · rw [hproof, String.toList_ofList, hcl.proof]

/-! ### Documents -/

theorem notMem_newline_of_mem_ofText {s : List Char} {l : Line} (h : l ∈ Line.ofText s) :
    '\n' ∉ l.text := by
  obtain ⟨⟨t, n⟩, ht, rfl⟩ := List.mem_map.mp h
  intro hn
  exact notMem_of_mem_lines (List.fst_mem_of_mem_zipIdx ht) ((trimEnd_prefix_self t).subset hn)

theorem of_readRecords {earlier : List String} {rs : List Record} {items : List Item}
    (hrs : ∀ r ∈ rs, r.Legible) (h : readRecords earlier rs = .ok items) :
    (∀ i ∈ items, Legible i ∧ i.normalize = i ∧ i.label ∉ earlier) ∧
      (items.map Item.label).Nodup := by
  induction rs generalizing earlier items with
  | nil =>
    cases h
    simp
  | cons r rs ih =>
    unfold readRecords at h
    obtain ⟨i, hi, h⟩ := bind_eq_ok_iff.mp h
    rw [if_throw_eq_ok_iff] at h
    obtain ⟨hnew, h⟩ := h
    obtain ⟨rest, hrest, h⟩ := bind_eq_ok_iff.mp h
    rw [pure_eq_ok_iff] at h
    subst h
    obtain ⟨hl, hn⟩ := (hrs r List.mem_cons_self).read hi
    obtain ⟨ih, hd⟩ := ih (fun r hr => hrs r (List.mem_cons_of_mem _ hr)) hrest
    refine ⟨fun j hj => ?_, ?_⟩
    · rcases List.mem_cons.mp hj with rfl | hj
      · exact ⟨hl, hn, hnew⟩
      · obtain ⟨hjl, hjn, hne⟩ := ih j hj
        exact ⟨hjl, hjn, fun he => hne (List.mem_cons_of_mem _ he)⟩
    · rw [List.map_cons, List.nodup_cons]
      refine ⟨fun hmem => ?_, hd⟩
      obtain ⟨j, hj, he⟩ := List.mem_map.mp hmem
      exact (ih j hj).2.2 (he ▸ List.mem_cons_self)

/-- **What a document says is legible and in normal form**, and no label occurs twice. -/
theorem legible_of_parse {doc : String} {items : List Item} (h : parse doc = .ok items) :
    (∀ i ∈ items, Legible i ∧ i.normalize = i) ∧ (items.map Item.label).Nodup := by
  unfold parse at h
  have hrs : ∀ r ∈ (Record.ofLines (Line.ofText doc.toList)).2, r.Legible :=
    Record.legible_of_mem_ofLines fun l hl => notMem_newline_of_mem_ofText hl
  generalize Record.ofLines (Line.ofText doc.toList) = read at h hrs
  obtain ⟨before, records⟩ := read
  dsimp only at h
  split at h
  · cases h
  · obtain ⟨hitems, hd⟩ := of_readRecords hrs h
    exact ⟨fun i hi => ⟨(hitems i hi).1, (hitems i hi).2.1⟩, hd⟩

/-- The document as it is written once it has been read. -/
def canonical (doc : String) : Except Error String :=
  (parse doc).map render

/-- **Reading and writing brings a document into a form that is kept.** Whatever a document that can
be read looks like, its items are written as a document that is read as the same items, and reading
and writing it any number of times gives the same text. -/
theorem parse_render_of_parse {doc : String} {items : List Item} (h : parse doc = .ok items) :
    parse (render items) = .ok items ∧ canonical doc = .ok (render items) ∧
      ∀ n, (· >>= canonical)^[n] (canonical doc) = canonical doc := by
  obtain ⟨hitems, hd⟩ := legible_of_parse h
  have hback := parse_render_of_legible hitems hd
  have hcanonical {d : String} (hd : parse d = .ok items) : canonical d = .ok (render items) := by
    unfold canonical
    rw [hd]
    rfl
  rw [hcanonical h]
  exact ⟨hback, rfl, Function.iterate_fixed (bind_eq_ok_iff.mpr ⟨_, rfl, hcanonical hback⟩)⟩

/-- A document is read by its characters. -/
theorem parse_of_toList {doc : String} {s : List Char} (h : doc.toList = s) : parse doc = (do
    let (before, records) := Record.ofLines (Line.ofText s)
    if let some l := before.find? (·.text ≠ []) then
      throw (.document l.number (.stray (.ofList l.text)))
    readRecords [] records) := by
  subst h
  rfl

/-- A document with much that only a lenient reader accepts: the proof before the fields, a heading
of a section that is none, odd labels, an unknown key, a key twice and a missing one. -/
theorem parse_render_of_parse_lenient :
    let doc := String.ofList (joinLines ([
      "", "# theorem  [a],b \x0d", "", "## proof", " \\# x", "", "  y \t", "##  meta", "## meta", "",
      "- label: [a],b\x0d", "- uses: [,[[c] ,, [d,e] ,,[f]]", "- file: a\x0db", "- colour: red",
      "- status: hard", "- status : done", "- attempts:+01/002", ""].map String.toList))
    let i : Item := {
      label := "[a],b", kind := .thm, uses := .ofList ["[c", "d,e", "f"], status := .done
      attempts := ⟨1, 2⟩, location := some "a\x0db", proof := "\\# x\n\n  y\n##  meta" }
    parse doc = .ok [i] ∧ parse (render [i]) = .ok [i] := by
  intro doc i
  have h : parse doc = .ok [i] := by
    rw [parse_of_toList String.toList_ofList]
    decide +kernel
  exact ⟨h, (parse_render_of_parse h).1⟩

end ProofTracker.Document
