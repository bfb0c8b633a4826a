import ProofTracker.Proofs.Document.Record

/-! # What is read from lines

Only the texts of lines matter for what is read from them, and empty lines behind the others do not:
lines that agree so far (`SameText`) are cut into records and sections that agree so far again
(`SameText.cutAt`), and a section that agrees with another one says the same (`Part.Alike.of_sameText`).
So they are read as the same items (`readLines_of_sameText`). The heading of a record parts the lines in
front of it from those behind, and each side is read for itself (`readLines_append_cons_iff`). -/

namespace ProofTracker.Document

open Text

variable {l : Line} {ls ms : List Line} {ts : List (List Char)} {r r' : Record} {p q : Part}
  {f f' : Fields} {c c' : Contents} {i : Item} {items is₁ is₂ : List Item}

/-! ### Lines with the same texts -/

/-- The lines have the same texts, up to empty lines at the end. -/
inductive SameText : List Line → List Line → Prop
  | empty {ls ms : List Line} (hl : ∀ l ∈ ls, l.text = []) (hm : ∀ m ∈ ms, m.text = []) :
      SameText ls ms
  | cons {l m : Line} {ls ms : List Line} (h : l.text = m.text) (hs : SameText ls ms) :
      SameText (l :: ls) (m :: ms)

theorem SameText.symm (h : SameText ls ms) : SameText ms ls := by
  induction h with
  | empty hl hm => exact .empty hm hl
  | cons h _ ih => exact .cons h.symm ih

theorem SameText.of_texts_eq (h : ls.map Line.text = ms.map Line.text) : SameText ls ms := by
  induction ls generalizing ms with
  | nil =>
    rw [List.map_eq_nil_iff.mp h.symm]
    exact .empty (by simp) (by simp)
  | cons l ls ih =>
    obtain ⟨m, ms', rfl, hm, hms⟩ := List.map_eq_cons_iff.mp h.symm
    exact .cons hm.symm (ih hms.symm)

theorem SameText.append_empty (ls : List Line) (hm : ∀ m ∈ ms, m.text = []) :
    SameText ls (ls ++ ms) := by
  induction ls with
  | nil => exact .empty (by simp) hm
  | cons l ls ih => exact .cons rfl ih

theorem SameText.forall_empty (h : SameText ls ms) (hl : ∀ l ∈ ls, l.text = []) :
    ∀ m ∈ ms, m.text = [] := by
  induction h with
  | empty _ hm => exact hm
  | cons h _ ih =>
    obtain ⟨hempty, hl⟩ := List.forall_mem_cons.mp hl
    exact List.forall_mem_cons.mpr ⟨h ▸ hempty, ih hl⟩

/-- Both have the same texts up to empty lines. -/
theorem SameText.exists_texts (h : SameText ls ms) : ∃ ts k n,
    ls.map Line.text = ts ++ List.replicate k [] ∧ ms.map Line.text = ts ++ List.replicate n [] := by
  induction h with
  | empty hl hm =>
    refine ⟨[], _, _, List.eq_replicate_iff.mpr ⟨rfl, ?_⟩, List.eq_replicate_iff.mpr ⟨rfl, ?_⟩⟩
    · exact List.forall_mem_map.mpr hl
    · exact List.forall_mem_map.mpr hm
  | cons h _ ih =>
    obtain ⟨ts, k, n, hls, hms⟩ := ih
    exact ⟨_ :: ts, k, n, by rw [List.map_cons, hls]; rfl, by rw [List.map_cons, hms, h]; rfl⟩

/-- Lines with the same texts are cut in the same places. -/
theorem SameText.cutAt {β : Type} (heading? : List Char → Option β) (hempty : heading? [] = none)
    (h : SameText ls ms) : SameText (cutAt heading? ls).1 (cutAt heading? ms).1 ∧
      List.Forall₂ (fun p q => p.2.1 = q.2.1 ∧ SameText p.2.2 q.2.2)
        (cutAt heading? ls).2 (cutAt heading? ms).2 := by
  induction h with
  | empty hl hm =>
    rw [cutAt_of_none fun l h => hl l h ▸ hempty, cutAt_of_none fun m h => hm m h ▸ hempty]
    exact ⟨.empty hl hm, .nil⟩
  | @cons l m ls ms h _ ih =>
    obtain ⟨hbefore, hparts⟩ := ih
    unfold Document.cutAt
    rw [← h]
    cases heading? l.text with
    | none => exact ⟨.cons h hbefore, hparts⟩
    | some b => exact ⟨.empty (by simp) (by simp), .cons ⟨rfl, hbefore⟩ hparts⟩

/-! ### Sections -/

/-- The other section says what this one says. -/
def Part.Alike (p q : Part) : Prop :=
  ∀ label c c', Contents.add label c p = .ok c' → Contents.add label c q = .ok c'

theorem normalText_joinLines_append_replicate (ts : List (List Char)) (n : ℕ) :
    normalText (joinLines (ts ++ List.replicate n [])) = normalText (joinLines ts) := by
  induction n with
  | zero => rw [List.replicate_zero, List.append_nil]
  | succ n ih =>
    rw [List.replicate_succ', ← List.append_assoc]
    by_cases hne : ts ++ List.replicate n [] = []
    · rw [← ih, hne]
      rfl
    · rw [joinLines_concat _ hne, normalText_concat_newline, ih]

theorem SameText.readText_eq (h : SameText ls ms) : readText ls = readText ms := by
  obtain ⟨ts, k, n, hls, hms⟩ := h.exists_texts
  simp only [Document.readText_eq, hls, hms, List.map_append, List.map_replicate, unescape,
    normalText_joinLines_append_replicate]

/-- Empty lines among fields say nothing. -/
theorem foldlM_add_filter (ts : List (List Char)) (f : Fields) :
    (ts.filter (· ≠ [])).foldlM Fields.add f = ts.foldlM Fields.add f := by
  induction ts generalizing f with
  | nil => rfl
  | cons t ts ih =>
    rw [List.foldlM_cons]
    by_cases hempty : t = []
    · have hskip : f.add t = .ok f := by
        rw [hempty]
        rfl
      rw [List.filter_cons_of_neg (by simpa using hempty), hskip, ih]
      rfl
    · rw [List.filter_cons_of_pos (by simpa using hempty), List.foldlM_cons]
      cases f.add t with
      | error e => rfl
      | ok g => exact ih g

theorem SameText.foldlM_add (h : SameText ls ms) (f : Fields) :
    (ls.map Line.text).foldlM Fields.add f = (ms.map Line.text).foldlM Fields.add f := by
  obtain ⟨ts, k, n, hls, hms⟩ := h.exists_texts
  have hempty : ∀ n, (List.replicate n ([] : List Char)).filter (· ≠ []) = [] := by simp
  rw [hls, hms, ← foldlM_add_filter (ts ++ _), ← foldlM_add_filter (ts ++ _), List.filter_append,
    List.filter_append, hempty, hempty]

/-- It is enough that the lines under the heading say the same. -/
theorem Part.Alike.of_opened_eq (ho : q.opened = p.opened)
    (hfields : p.opened = .fields → ∀ f f', (p.body.map Line.text).foldlM Fields.add f = .ok f' →
      (q.body.map Line.text).foldlM Fields.add f = .ok f')
    (htext : p.opened ≠ .fields → readText q.body = readText p.body) : p.Alike q := by
  intro label c c' h
  unfold Contents.add at h ⊢
  rw [if_throw_eq_ok_iff] at h ⊢
  rw [ho]
  refine ⟨h.1, ?_⟩
  replace h := h.2
  cases hs : p.opened with
  | fields =>
    simp only [hs] at h ⊢
    obtain ⟨f, hf, h⟩ := bind_eq_ok_iff.mp h
    rw [foldlM_add_eq_ok_iff] at hf
    exact bind_eq_ok_iff.mpr ⟨f, foldlM_add_eq_ok_iff.mpr (hfields hs _ _ hf), h⟩
  | statement =>
    simp only [hs] at h ⊢
    rwa [htext (by simp [hs])]
  | proof =>
    simp only [hs] at h ⊢
    rwa [htext (by simp [hs])]

theorem Part.Alike.of_sameText (ho : q.opened = p.opened) (h : SameText p.body q.body) :
    p.Alike q :=
  .of_opened_eq ho (fun _ f _ hf => h.foldlM_add f ▸ hf) fun _ => h.readText_eq.symm

/-! ### Records -/

theorem find?_eq_none_iff : ls.find? (·.text ≠ []) = none ↔ ∀ l ∈ ls, l.text = [] := by
  simp

theorem Record.read_eq_ok_iff : r.read = .ok i ↔ (∀ l ∈ r.before, l.text = []) ∧
    ∃ c, r.parts.foldlM (Contents.add (.ofList r.label)) {} = .ok c ∧ r.finish c = .ok i := by
  have hfinish : ∀ c, (r.finish c).mapError (Error.document r.number) = .ok i ↔ r.finish c = .ok i := by
    intro c
    cases r.finish c <;> simp [Except.mapError]
  unfold Record.read
  cases hb : r.before.find? (·.text ≠ []) with
  | some l =>
    have hne : ¬ ∀ l ∈ r.before, l.text = [] := by
      rw [← find?_eq_none_iff, hb]
      simp
    exact iff_of_false (throw_ne_ok _) fun h => hne h.1
  | none =>
    have hempty := find?_eq_none_iff.mp hb
    simp only [bind_eq_ok_iff, hfinish]
    exact (and_iff_right hempty).symm

/-- What a record comes to depends on its heading and its sections. -/
theorem Record.finish_congr (hk : r.kind = r'.kind) (hl : r.label = r'.label) (c : Contents) :
    r.finish c = r'.finish c := by
  unfold Record.finish
  rw [hk, hl]

theorem Record.read_of_forall₂ (hk : r.kind = r'.kind) (hl : r.label = r'.label)
    (hb : (∀ l ∈ r.before, l.text = []) → ∀ l ∈ r'.before, l.text = [])
    (hp : List.Forall₂ Part.Alike r.parts r'.parts) (h : r.read = .ok i) : r'.read = .ok i := by
  rw [Record.read_eq_ok_iff] at h ⊢
  obtain ⟨hempty, c, hc, hi⟩ := h
  refine ⟨hb hempty, c, ?_, by rw [← Record.finish_congr hk hl, hi]⟩
  rw [← hl]
  exact foldlM_of_forall₂ (hp.imp fun _ _ h => h (.ofList r.label)) hc

/-! ### Documents -/

/-- The record that a part of the cut at the headings of records stands for. -/
def Record.ofCut : Line × (Kind × List Char) × List Line → Record
  | (l, (kind, label), body) =>
    let (before, parts) := Document.cutAt Section.ofHeading? body
    ⟨l.number, kind, label, before, parts.map fun (l, s, body) => ⟨l.number, s, body⟩⟩

theorem Record.ofLines_eq (ls : List Line) : Record.ofLines ls =
    ((Document.cutAt ofHeading? ls).1, (Document.cutAt ofHeading? ls).2.map Record.ofCut) := rfl

theorem readRecords_eq_ok_iff {earlier : List String} {rs : List Record} :
    readRecords earlier rs = .ok items ↔ rs.mapM Record.read = .ok items ∧
      (items.map Item.label).Nodup ∧ ∀ i ∈ items, i.label ∉ earlier := by
  induction rs generalizing earlier items with
  | nil =>
    rw [List.mapM_nil, pure_eq_ok_iff]
    constructor
    · rintro ⟨⟩; simp
    · rintro ⟨rfl, -⟩; rfl
  | cons r rs ih =>
    unfold readRecords
    simp only [List.mapM_cons, bind_eq_ok_iff, pure_eq_ok_iff, if_throw_eq_ok_iff, ih]
    constructor
    · rintro ⟨i, hi, hnew, rest, ⟨hrest, hd, hlater⟩, rfl⟩
      refine ⟨⟨i, hi, rest, hrest, rfl⟩, ?_, ?_⟩
      · rw [List.map_cons, List.nodup_cons]
        refine ⟨fun hmem => ?_, hd⟩
        obtain ⟨j, hj, he⟩ := List.mem_map.mp hmem
        exact hlater j hj (he ▸ List.mem_cons_self)
      · exact List.forall_mem_cons.mpr
          ⟨hnew, fun j hj he => hlater j hj (List.mem_cons_of_mem _ he)⟩
    · rintro ⟨⟨i, hi, rest, hrest, rfl⟩, hd, hall⟩
      rw [List.map_cons, List.nodup_cons] at hd
      obtain ⟨hnew, hlater⟩ := List.forall_mem_cons.mp hall
      refine ⟨i, hi, hnew, rest, ⟨hrest, hd.2, fun j hj => ?_⟩, rfl⟩
      rw [List.mem_cons, not_or]
      exact ⟨fun he => hd.1 (he ▸ List.mem_map_of_mem hj), hlater j hj⟩

/-- The items that the lines are read as. -/
def readLines (ls : List Line) : Except Error (List Item) := do
  let (before, records) := Record.ofLines ls
  if let some l := before.find? (·.text ≠ []) then
    throw (.document l.number (.stray (.ofList l.text)))
  readRecords [] records

theorem parse_eq_readLines (doc : String) : parse doc = readLines (Line.ofText doc.toList) := rfl

theorem readLines_eq_ok_iff : readLines ls = .ok items ↔
    (∀ l ∈ (Record.ofLines ls).1, l.text = []) ∧
      (Record.ofLines ls).2.mapM Record.read = .ok items ∧ (items.map Item.label).Nodup := by
  unfold readLines
  generalize Record.ofLines ls = cut
  obtain ⟨before, records⟩ := cut
  dsimp only
  cases hb : before.find? (·.text ≠ []) with
  | some l =>
    have hne : ¬ ∀ l ∈ before, l.text = [] := by
      rw [← find?_eq_none_iff, hb]
      simp
    exact iff_of_false (throw_ne_ok _) fun h => hne h.1
  | none =>
    have hempty := find?_eq_none_iff.mp hb
    have hrecords : readRecords [] records = .ok items ↔ _ := readRecords_eq_ok_iff
    simp only [List.not_mem_nil, not_false_eq_true, implies_true, and_true] at hrecords
    exact hrecords.trans (and_iff_right hempty).symm

/-- **Only the texts of lines matter, and empty lines at the end do not.** -/
theorem readLines_of_sameText (hs : SameText ls ms) (h : readLines ls = .ok items) :
    readLines ms = .ok items := by
  rw [readLines_eq_ok_iff, Record.ofLines_eq] at h ⊢
  obtain ⟨hempty, hitems, hd⟩ := h
  obtain ⟨hbefore, hrecords⟩ := hs.cutAt ofHeading? rfl
  refine ⟨hbefore.forall_empty hempty, mapM_of_forall₂ ?_ hitems, hd⟩
  rw [List.forall₂_map_left_iff, List.forall₂_map_right_iff]
  refine hrecords.imp fun p q hpq i hi => ?_
  obtain ⟨l, ⟨kind, label⟩, body⟩ := p
  obtain ⟨m, ⟨kind', label'⟩, body'⟩ := q
  obtain ⟨hhead, hbody⟩ := hpq
  obtain ⟨hkind, hlabel⟩ := Prod.mk.inj hhead
  obtain ⟨hbefore, hparts⟩ := hbody.cutAt Section.ofHeading? rfl
  refine Record.read_of_forall₂ hkind hlabel hbefore.forall_empty ?_ hi
  unfold Record.ofCut
  rw [List.forall₂_map_left_iff, List.forall₂_map_right_iff]
  exact hparts.imp fun p q hpq => .of_sameText hpq.1.symm hpq.2

theorem readLines_iff_of_sameText (hs : SameText ls ms) :
    readLines ls = .ok items ↔ readLines ms = .ok items :=
  ⟨readLines_of_sameText hs, readLines_of_sameText hs.symm⟩

theorem readLines_of_empty (h : ∀ l ∈ ls, l.text = []) :
    readLines ls = .ok items ↔ items = [] := by
  rw [readLines_iff_of_sameText (.empty h (by simp) : SameText ls [])]
  exact ⟨fun h => (Except.ok.inj h).symm, fun h => h ▸ rfl⟩

/-- **What stands in front of a record's heading is read for itself**, and so is the rest. -/
theorem readLines_append_cons_iff {k : Kind × List Char} (h : ofHeading? l.text = some k) :
    readLines (ls ++ l :: ms) = .ok items ↔ ∃ is₁ is₂, readLines ls = .ok is₁ ∧
      readLines (l :: ms) = .ok is₂ ∧ (∀ i ∈ is₁, ∀ j ∈ is₂, i.label ≠ j.label) ∧
      items = is₁ ++ is₂ := by
  have hfront : (Record.ofLines (ls ++ l :: ms)).1 = (Record.ofLines ls).1 := by
    rw [Record.ofLines_eq, Record.ofLines_eq, cutAt_append_cons_of_some h]
  have hempty : (Record.ofLines (l :: ms)).1 = [] := by
    rw [Record.ofLines_eq, cutAt_cons_of_some h]
  have hrecords : (Record.ofLines (ls ++ l :: ms)).2 =
      (Record.ofLines ls).2 ++ (Record.ofLines (l :: ms)).2 := by
    simp only [Record.ofLines_eq, cutAt_append_cons_of_some h, cutAt_cons_of_some h, List.map_append]
  simp only [readLines_eq_ok_iff, hfront, hempty, hrecords, List.mapM_append, bind_eq_ok_iff,
    pure_eq_ok_iff, List.not_mem_nil, false_imp_iff, implies_true, true_and]
  constructor
  · rintro ⟨hbefore, ⟨is₁, h₁, is₂, h₂, rfl⟩, hd⟩
    rw [List.map_append, List.nodup_append] at hd
    obtain ⟨hd₁, hd₂, hne⟩ := hd
    refine ⟨is₁, is₂, ⟨hbefore, h₁, hd₁⟩, ⟨h₂, hd₂⟩, fun i hi j hj => ?_, rfl⟩
    exact hne _ (List.mem_map_of_mem hi) _ (List.mem_map_of_mem hj)
  · rintro ⟨is₁, is₂, ⟨hbefore, h₁, hd₁⟩, ⟨h₂, hd₂⟩, hne, rfl⟩
    refine ⟨hbefore, ⟨is₁, h₁, is₂, h₂, rfl⟩, ?_⟩
    rw [List.map_append, List.nodup_append]
    refine ⟨hd₁, hd₂, ?_⟩
    simpa using hne

end ProofTracker.Document
