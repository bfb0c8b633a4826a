import ProofTracker.Proofs.Document.Canonical
import ProofTracker.Proofs.Document.Commute

/-! # Rearranged documents

What a record says does not depend on the order of its sections, nor on the order of the lines of its
fields unless a key is there twice, nor on empty lines between sections and among the fields
(`Record.read_of_rearranged`). A document is read record by record, so all of its records may be
rearranged in this way at once, and it is read as the same items (`parse_of_rearranged`). -/

namespace ProofTracker.Document

open Text

variable {ts us : List (List Char)} {k : Kind × List Char} {l : Line} {i : Item}
  {items : List Item} {m n : ℕ} {doc doc' : String}
  {parts parts' : List (Section × List (List Char))}

/-! ### Rearrangements -/

/-- The line opens neither a record nor a section. -/
def Plain (t : List Char) : Prop := ofHeading? t = none ∧ Section.ofHeading? t = none

instance : DecidablePred Plain := fun _ => inferInstanceAs (Decidable (_ ∧ _))

/-- What may become of the lines of a section: other empty lines at the end, or, for fields that all
have different keys, another order with empty lines anywhere. -/
inductive Shuffled : Section → List (List Char) → List (List Char) → Prop
  | gap (s : Section) (ts : List (List Char)) (m n : ℕ) :
      Shuffled s (ts ++ List.replicate m []) (ts ++ List.replicate n [])
  | fields {ts us : List (List Char)} (hp : (ts.filter (· ≠ [])).Perm (us.filter (· ≠ [])))
      (hkeys : ((ts.filter (· ≠ [])).map fieldKey).Nodup) : Shuffled .fields ts us

/-- The lines of a record: its heading, empty lines, and the sections with their headings. -/
def sheet (head : List Char) (gap : ℕ) (parts : List (Section × List (List Char))) :
    List (List Char) :=
  head :: (List.replicate gap [] ++ parts.flatMap fun p => p.1.heading :: p.2)

/-- What may become of the sections of a record: each of them may be shuffled, and then they come in
any order. -/
def PartsRearranged (parts parts' : List (Section × List (List Char))) : Prop :=
  ∃ moved, List.Forall₂ (fun p q => p.1 = q.1 ∧ Shuffled p.1 p.2 q.2) parts moved ∧
    moved.Perm parts'

/-- What may become of the lines of a document: the sections of each record are rearranged, and the
records and what is in front of them stay in their places. -/
inductive Rearranged : List (List Char) → List (List Char) → Prop
  | front {ts : List (List Char)} (h : ∀ t ∈ ts, ofHeading? t = none) : Rearranged ts ts
  | record {ts us : List (List Char)} {head : List Char}
      {parts parts' : List (Section × List (List Char))} (h : Rearranged ts us)
      (hhead : (ofHeading? head).isSome) (hplain : ∀ p ∈ parts, ∀ t ∈ p.2, Plain t) (m n : ℕ)
      (hparts : PartsRearranged parts parts') :
      Rearranged (ts ++ sheet head m parts) (us ++ sheet head n parts')

/-! ### Sections -/

/-- Lines with these texts. -/
def linesOf (ts : List (List Char)) : List Line := ts.map (Line.mk 0)

@[simp] theorem map_text_linesOf (ts : List (List Char)) : (linesOf ts).map Line.text = ts := by
  unfold linesOf
  rw [List.map_map]
  exact List.map_id ts

theorem linesOf_append (ts us : List (List Char)) : linesOf (ts ++ us) = linesOf ts ++ linesOf us :=
  List.map_append

theorem forall_mem_linesOf {P : List Char → Prop} : (∀ l ∈ linesOf ts, P l.text) ↔ ∀ t ∈ ts, P t := by
  unfold linesOf
  rw [List.forall_mem_map]

theorem text_of_mem_linesOf_replicate (h : l ∈ linesOf (List.replicate m [])) : l.text = [] :=
  forall_mem_linesOf.mpr (fun _ ht => List.eq_of_mem_replicate ht) l h

/-- A section with these lines. -/
def Part.ofTexts (p : Section × List (List Char)) : Part := ⟨0, p.1, linesOf p.2⟩

theorem Shuffled.sameText (ts : List (List Char)) (m n : ℕ) :
    SameText (linesOf (ts ++ List.replicate m [])) (linesOf (ts ++ List.replicate n [])) := by
  induction ts with
  | nil =>
    exact .empty (fun _ => text_of_mem_linesOf_replicate) fun _ => text_of_mem_linesOf_replicate
  | cons t ts ih => exact .cons rfl ih

theorem Shuffled.alike {s : Section} (h : Shuffled s ts us) :
    (Part.ofTexts (s, ts)).Alike (Part.ofTexts (s, us)) := by
  cases h with
  | gap _ ts m n => exact .of_sameText rfl (Shuffled.sameText ts m n)
  | fields hp hkeys =>
    refine .of_opened_eq rfl (fun _ f f' hf => ?_) fun hne => absurd rfl hne
    unfold Part.ofTexts at hf ⊢
    rw [map_text_linesOf] at hf ⊢
    rw [← foldlM_add_filter] at hf ⊢
    exact foldlM_add_of_perm hp hkeys hf

theorem Shuffled.plain {s : Section} (h : Shuffled s ts us) (hplain : ∀ t ∈ ts, Plain t) :
    ∀ t ∈ us, Plain t := by
  have hempty : Plain [] := ⟨rfl, rfl⟩
  cases h with
  | gap _ ts m n =>
    intro t ht
    rcases List.mem_append.mp ht with ht | ht
    · exact hplain t (List.mem_append_left _ ht)
    · rw [List.eq_of_mem_replicate ht]
      exact hempty
  | fields hp _ =>
    intro t ht
    by_cases hne : t = []
    · rw [hne]
      exact hempty
    · have hmem : t ∈ us.filter (· ≠ []) := List.mem_filter.mpr ⟨ht, by simpa using hne⟩
      exact hplain t (List.mem_of_mem_filter (hp.mem_iff.mpr hmem))

theorem PartsRearranged.plain (h : PartsRearranged parts parts')
    (hplain : ∀ p ∈ parts, ∀ t ∈ p.2, Plain t) : ∀ p ∈ parts', ∀ t ∈ p.2, Plain t := by
  obtain ⟨moved, hmoved, hperm⟩ := h
  have hall : ∀ p ∈ moved, ∀ t ∈ p.2, Plain t := by
    clear hperm
    induction hmoved with
    | nil => simp
    | cons hpq _ ih =>
      obtain ⟨hp, hparts⟩ := List.forall_mem_cons.mp hplain
      exact List.forall_mem_cons.mpr ⟨hpq.2.plain hp, ih hparts⟩
  exact fun p hp => hall p (hperm.mem_iff.mpr hp)

/-! ### Records -/

/-- The record with these sections. -/
def Record.ofTexts (k : Kind × List Char) (gap : ℕ) (parts : List (Section × List (List Char))) :
    Record :=
  ⟨0, k.1, k.2, linesOf (List.replicate gap []), parts.map Part.ofTexts⟩

theorem cutAt_linesOf (hplain : ∀ p ∈ parts, ∀ t ∈ p.2, Plain t) :
    cutAt Section.ofHeading? (linesOf (parts.flatMap fun p => p.1.heading :: p.2)) =
      ([], parts.map fun p => (⟨0, p.1.heading⟩, p.1, linesOf p.2)) := by
  induction parts with
  | nil => rfl
  | cons p parts ih =>
    obtain ⟨hp, hparts⟩ := List.forall_mem_cons.mp hplain
    have hbody : ∀ l ∈ linesOf p.2, Section.ofHeading? l.text = none :=
      (forall_mem_linesOf (P := (Section.ofHeading? · = none))).mpr fun t ht => (hp t ht).2
    rw [List.flatMap_cons, List.cons_append]
    show cutAt Section.ofHeading? (⟨0, p.1.heading⟩ :: linesOf (p.2 ++ _)) = _
    rw [cutAt_cons_of_some (Section.ofHeading?_heading p.1), linesOf_append, cutAt_append hbody,
      ih hparts]
    simp

/-- The lines of one record are read as what this record says. -/
theorem readLines_sheet_iff {head : List Char} (hhead : ofHeading? head = some k)
    (hplain : ∀ p ∈ parts, ∀ t ∈ p.2, Plain t) :
    readLines (linesOf (sheet head m parts)) = .ok items ↔
      ∃ i, (Record.ofTexts k m parts).read = .ok i ∧ items = [i] := by
  set body := List.replicate m [] ++ parts.flatMap fun p => p.1.heading :: p.2 with hbody
  have hgap : ∀ l ∈ linesOf (List.replicate m []), Section.ofHeading? l.text = none := by
    intro l hl
    rw [text_of_mem_linesOf_replicate hl]
    rfl
  have hnone : ∀ l ∈ linesOf body, ofHeading? l.text = none := by
    refine (forall_mem_linesOf (P := (ofHeading? · = none))).mpr fun t ht => ?_
    rcases List.mem_append.mp ht with ht | ht
    · rw [List.eq_of_mem_replicate ht]
      rfl
    · obtain ⟨p, hp, ht⟩ := List.mem_flatMap.mp ht
      rcases List.mem_cons.mp ht with rfl | ht
      · exact ofHeading?_section p.1
      · exact (hplain p hp t ht).1
  have hrecord : Record.ofCut (⟨0, head⟩, k, linesOf body) = Record.ofTexts k m parts := by
    unfold Record.ofCut Record.ofTexts Part.ofTexts
    simp only [hbody, linesOf_append, cutAt_append hgap, cutAt_linesOf hplain, List.map_map,
      List.append_nil]
    rfl
  have hcut : Record.ofLines (linesOf (sheet head m parts)) = ([], [Record.ofTexts k m parts]) := by
    show Record.ofLines (⟨0, head⟩ :: linesOf body) = _
    rw [Record.ofLines_eq, cutAt_cons_of_some hhead, cutAt_of_none hnone, ← hrecord]
    rfl
  rw [readLines_eq_ok_iff, hcut]
  simp only [List.not_mem_nil, false_imp_iff, implies_true, true_and, mapM_eq_ok_iff,
    List.forall₂_cons_left_iff, List.forall₂_nil_left_iff]
  constructor
  · rintro ⟨⟨i, _, hi, rfl, rfl⟩, -⟩
    exact ⟨i, hi, rfl⟩
  · rintro ⟨i, hi, rfl⟩
    exact ⟨⟨i, [], hi, rfl, rfl⟩, by simp⟩

/-- **What a record says does not depend on the order of its sections and of its fields.** -/
theorem Record.read_of_rearranged (h : PartsRearranged parts parts') (n : ℕ)
    (hi : (Record.ofTexts k m parts).read = .ok i) : (Record.ofTexts k n parts').read = .ok i := by
  obtain ⟨moved, hmoved, hperm⟩ := h
  rw [Record.read_eq_ok_iff] at hi ⊢
  obtain ⟨-, c, hc, hfinish⟩ := hi
  have halike : List.Forall₂ Part.Alike (parts.map Part.ofTexts) (moved.map Part.ofTexts) := by
    rw [List.forall₂_map_left_iff, List.forall₂_map_right_iff]
    refine hmoved.imp fun p q hpq => ?_
    obtain ⟨hopened, hbody⟩ := hpq
    have hq : q = (p.1, q.2) := by rw [hopened]
    rw [hq]
    exact hbody.alike
  have hmovedc := foldlM_of_forall₂ (halike.imp fun _ _ h => h (.ofList k.2)) hc
  obtain ⟨c', hc', hcc'⟩ := exists_foldlM_add_of_perm (hperm.map Part.ofTexts) hmovedc
  refine ⟨fun _ => text_of_mem_linesOf_replicate, c', hc', ?_⟩
  rw [← Record.finish_of_alike hcc', ← hfinish]
  exact Record.finish_congr rfl rfl c

/-! ### Documents -/

theorem readLines_append_sheet_iff {head : List Char} (hhead : ofHeading? head = some k)
    (hplain : ∀ p ∈ parts, ∀ t ∈ p.2, Plain t) :
    readLines (linesOf (ts ++ sheet head m parts)) = .ok items ↔
      ∃ is i, readLines (linesOf ts) = .ok is ∧ (Record.ofTexts k m parts).read = .ok i ∧
        (∀ j ∈ is, j.label ≠ i.label) ∧ items = is ++ [i] := by
  rw [linesOf_append]
  refine (readLines_append_cons_iff (l := ⟨0, head⟩) hhead).trans ?_
  show (∃ is₁ is₂, _ ∧ readLines (linesOf (sheet head m parts)) = .ok is₂ ∧ _) ↔ _
  simp only [readLines_sheet_iff hhead hplain]
  constructor
  · rintro ⟨is, _, his, ⟨i, hi, rfl⟩, hne, rfl⟩
    exact ⟨is, i, his, hi, by simpa using hne, rfl⟩
  · rintro ⟨is, i, his, hi, hne, rfl⟩
    exact ⟨is, [i], his, ⟨i, hi, rfl⟩, by simpa using hne, rfl⟩

theorem readLines_of_rearranged (h : Rearranged ts us) (hi : readLines (linesOf ts) = .ok items) :
    readLines (linesOf us) = .ok items := by
  induction h generalizing items with
  | front _ => exact hi
  | record _ hhead hplain m n hparts ih =>
    obtain ⟨k, hk⟩ := Option.isSome_iff_exists.mp hhead
    rw [readLines_append_sheet_iff hk hplain] at hi
    rw [readLines_append_sheet_iff hk (hparts.plain hplain)]
    obtain ⟨is, i, his, hread, hne, rfl⟩ := hi
    exact ⟨is, i, ih his, Record.read_of_rearranged hparts n hread, hne, rfl⟩

/-! ### Documents that can be read -/

theorem Shuffled.refl (s : Section) (ts : List (List Char)) : Shuffled s ts ts := by
  have h := Shuffled.gap s ts 0 0
  rwa [List.replicate_zero, List.append_nil] at h

theorem PartsRearranged.refl (parts : List (Section × List (List Char))) :
    PartsRearranged parts parts :=
  ⟨parts, List.forall₂_same.mpr fun p _ => ⟨rfl, .refl p.1 p.2⟩, .refl parts⟩

/-- The lines of a record that can be read are a heading, empty lines, and sections. -/
theorem exists_sheet_of_read {ls : List Line} (hnone : ∀ l ∈ ls, ofHeading? l.text = none)
    (h : (Record.ofCut (l, k, ls)).read = .ok i) :
    ∃ m parts, (l :: ls).map Line.text = sheet l.text m parts ∧ ∀ p ∈ parts, ∀ t ∈ p.2, Plain t := by
  obtain ⟨hempty, -⟩ := Record.read_eq_ok_iff.mp h
  have hempty : (cutAt Section.ofHeading? ls).1.map Line.text =
      List.replicate (cutAt Section.ofHeading? ls).1.length [] :=
    List.eq_replicate_iff.mpr ⟨List.length_map .., List.forall_mem_map.mpr hempty⟩
  have hheading : ∀ p ∈ (cutAt Section.ofHeading? ls).2, p.1.text = p.2.1.heading := by
    intro p hp
    have hs := List.find?_some (of_mem_cutAt_snd hp).1
    exact (of_decide_eq_true hs).symm
  refine ⟨(cutAt Section.ofHeading? ls).1.length,
    (cutAt Section.ofHeading? ls).2.map fun p => (p.2.1, p.2.2.map Line.text), ?_, ?_⟩
  · unfold sheet
    rw [← hempty, List.flatMap_map]
    conv_lhs => rw [← cutAt_flatMap Section.ofHeading? ls]
    rw [List.map_cons, List.map_append, List.map_flatMap]
    refine congrArg _ (congrArg _ (List.flatMap_congr fun p hp => ?_))
    rw [List.map_cons, hheading p hp]
  · refine List.forall_mem_map.mpr fun p hp => List.forall_mem_map.mpr fun l hl => ?_
    exact ⟨hnone l ((of_mem_cutAt_snd hp).2 l hl), none_of_mem_cutAt_snd hp l hl⟩

theorem Rearranged.append_self {rs : List (Line × (Kind × List Char) × List Line)}
    (h : Rearranged ts ts) (hrs : ∀ r ∈ rs, (ofHeading? r.1.text).isSome ∧ ∃ m parts,
      (r.1 :: r.2.2).map Line.text = sheet r.1.text m parts ∧ ∀ p ∈ parts, ∀ t ∈ p.2, Plain t) :
    Rearranged (ts ++ (rs.flatMap fun r => r.1 :: r.2.2).map Line.text)
      (ts ++ (rs.flatMap fun r => r.1 :: r.2.2).map Line.text) := by
  induction rs generalizing ts with
  | nil => simpa using h
  | cons r rs ih =>
    obtain ⟨⟨hhead, m, parts, htexts, hplain⟩, hrs⟩ := List.forall_mem_cons.mp hrs
    rw [List.flatMap_cons, List.map_append, htexts, ← List.append_assoc]
    exact ih (.record h hhead hplain m m (.refl parts)) hrs

/-- **Every document that can be read is made of records that can be rearranged.** -/
theorem rearranged_self_of_parse (hi : parse doc = .ok items) :
    Rearranged ((Line.ofText doc.toList).map Line.text) ((Line.ofText doc.toList).map Line.text) := by
  rw [parse_eq_readLines, readLines_eq_ok_iff, Record.ofLines_eq] at hi
  obtain ⟨-, hread, -⟩ := hi
  rw [List.mapM_map] at hread
  set ls := Line.ofText doc.toList
  rw [← cutAt_flatMap ofHeading? ls, List.map_append]
  refine .append_self (.front (List.forall_mem_map.mpr fun _ => none_of_mem_cutAt_fst)) ?_
  intro r hr
  obtain ⟨l, k, body⟩ := r
  obtain ⟨i, hi⟩ := exists_ok_of_mem_mapM hread hr
  refine ⟨?_, exists_sheet_of_read (none_of_mem_cutAt_snd hr) hi⟩
  rw [(of_mem_cutAt_snd hr).1]
  rfl

/-- **A rearranged document is read as the same items.** -/
theorem parse_of_rearranged
    (h : Rearranged ((Line.ofText doc.toList).map Line.text) ((Line.ofText doc'.toList).map Line.text))
    (hi : parse doc = .ok items) : parse doc' = .ok items := by
  rw [parse_eq_readLines] at hi ⊢
  have hlines : ∀ ls : List Line, SameText ls (linesOf (ls.map Line.text)) := fun ls =>
    .of_texts_eq (map_text_linesOf _).symm
  rw [readLines_iff_of_sameText (hlines _)] at hi ⊢
  exact readLines_of_rearranged h hi

/-- Two records with everything in another place: the sections of the first one in the opposite
order, its fields in another one, among them one with an unknown key, and other empty lines. -/
theorem parse_of_rearranged_reversed :
    let doc := String.ofList (joinLines ([
      "# lemma a", "## meta", "- label: a", "- status : done", "", "- colour: red",
      "- attempts: 1/2", "- uses: [[b]]", "## statement", "x", "", "", "## proof", "\\# y",
      "# definition b", "", "## meta", "- label: b", "- status: todo",
      "- attempts: 0/2"].map String.toList))
    let doc' := String.ofList (joinLines ([
      "# lemma a", "", "## proof", "\\# y \x0d", "", "## statement", "x", "## meta", "- uses: [[b]]",
      "- attempts: 1/2\t", "", "- colour: red", "- status : done", "- label: a", "", "",
      "# definition b", "## meta", "- attempts: 0/2", "- label: b", "- status: todo",
      ""].map String.toList))
    let i : Item := {
      label := "a", kind := .lem, uses := .ofList ["b"], status := .done, attempts := ⟨1, 2⟩
      statement := "x", proof := "# y" }
    let j : Item := { label := "b", kind := .defn, status := .todo, attempts := ⟨0, 2⟩ }
    parse doc = .ok [i, j] ∧
      Rearranged ((Line.ofText doc.toList).map Line.text)
        ((Line.ofText doc'.toList).map Line.text) ∧ parse doc' = .ok [i, j] := by
  intro doc doc' i j
  have h : parse doc = .ok [i, j] := by
    rw [parse_of_toList String.toList_ofList]
    decide +kernel
  let fa := ["- label: a", "- status : done", "", "- colour: red", "- attempts: 1/2",
    "- uses: [[b]]"].map String.toList
  let fa' := ["- uses: [[b]]", "- attempts: 1/2", "", "- colour: red", "- status : done",
    "- label: a", "", ""].map String.toList
  let fb := ["- label: b", "- status: todo", "- attempts: 0/2"].map String.toList
  let fb' := ["- attempts: 0/2", "- label: b", "- status: todo", ""].map String.toList
  let x := ["x"].map String.toList
  let y := ["\\# y"].map String.toList
  let a := "# lemma a".toList
  let b := "# definition b".toList
  have hdoc : (Line.ofText doc.toList).map Line.text =
      sheet a 0 [(.fields, fa), (.statement, x ++ [[], []]), (.proof, y)] ++
        sheet b 1 [(.fields, fb)] := by
    rw [String.toList_ofList]
    decide +kernel
  have hdoc' : (Line.ofText doc'.toList).map Line.text =
      sheet a 1 [(.proof, y ++ [[]]), (.statement, x), (.fields, fa')] ++
        sheet b 0 [(.fields, fb')] := by
    rw [String.toList_ofList]
    decide +kernel
  have ha : PartsRearranged [(.fields, fa), (.statement, x ++ [[], []]), (.proof, y)]
      [(.proof, y ++ [[]]), (.statement, x), (.fields, fa')] := by
    refine ⟨[(.fields, fa'), (.statement, x), (.proof, y ++ [[]])], ?_, by decide +kernel⟩
    refine .cons ⟨rfl, .fields (by decide +kernel) (by decide +kernel)⟩ ?_
    exact .cons ⟨rfl, .gap .statement x 2 0⟩ (.cons ⟨rfl, .gap .proof y 0 1⟩ .nil)
  have hb : PartsRearranged [(.fields, fb)] [(.fields, fb')] :=
    ⟨[(.fields, fb')], .cons ⟨rfl, .fields (by decide +kernel) (by decide +kernel)⟩ .nil, .refl _⟩
  have hfront : Rearranged [] [] := .front (by simp)
  have hr : Rearranged ((Line.ofText doc.toList).map Line.text)
      ((Line.ofText doc'.toList).map Line.text) := by
    rw [hdoc, hdoc']
    exact .record (.record hfront (by decide +kernel) (by decide +kernel) 0 1 ha)
      (by decide +kernel) (by decide +kernel) 1 0 hb
  exact ⟨h, hr, parse_of_rearranged hr h⟩

end ProofTracker.Document
