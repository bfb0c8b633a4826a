import ProofTracker.Proofs.Document.Reading

/-! # Fields and sections in another order

A field sets what its key is for and leaves the rest (`Fields.set_eq_ok_iff`), so two fields with
different keys may be read in either order (`Fields.set_comm`), and lines of fields with different
keys in any order (`foldlM_add_of_perm`). In the same way a section gives its own part of what a
record says (`Contents.add_eq_ok_iff`). No section is read twice, so the sections of a record may be
read in any order, except that the list of those that have been read comes out in that order
(`exists_foldlM_add_of_perm`). -/

namespace ProofTracker.Document

open Text

variable {f f₁ f₂ : Fields} {k k' : String} {v v' : List Char} {t : List Char}
  {ts us : List (List Char)} {c c' c₁ c₂ : Contents} {p q : Part} {ps qs : List Part} {label : String}

/-- What a step with the key `k` does to what is kept under `key`: the step changes it if this is its
key, and otherwise nothing. -/
def Sets {κ α : Type} [DecidableEq κ] (key k : κ) (step : α → α → Prop) (old new : α) : Prop :=
  if k = key then step old new else old = new

/-- Steps with different keys do the same in either order. -/
theorem Sets.comm {κ α : Type} [DecidableEq κ] {key k k' : κ} {step step' : α → α → Prop} {a b c : α}
    (hne : k ≠ k') (h : Sets key k step a b) (h' : Sets key k' step' b c) :
    ∃ d, Sets key k' step' a d ∧ Sets key k step d c := by
  unfold Sets at *
  by_cases hk : k = key
  · have hk' : k' ≠ key := fun he => hne (hk.trans he.symm)
    rw [if_neg hk'] at h'
    subst h'
    exact ⟨a, by rw [if_neg hk'], by rwa [if_pos hk] at h ⊢⟩
  · rw [if_neg hk] at h
    subst h
    exact ⟨c, h', by rw [if_neg hk]⟩

/-! ### Fields -/

/-- **A field sets what its key is for**, and an unknown key is for nothing. -/
theorem Fields.set_eq_ok_iff : f.set k v = .ok f₁ ↔
    Sets "label" k (fun _ x => some v = x) f.label f₁.label ∧
    Sets "uses" k (fun _ x => readUses v = .ok x) f.uses f₁.uses ∧
    Sets "file" k (fun _ x => normalLocation (some (.ofList v)) = x) f.location f₁.location ∧
    Sets "status" k (fun _ x => ∃ s, Status.read (.ofList v) = .ok s ∧ some s = x)
      f.status f₁.status ∧
    Sets "attempts" k (fun _ x => ∃ a, readAttempts v = .ok a ∧ some a = x)
      f.attempts f₁.attempts ∧
    Sets "priority" k (fun _ x => count? v = some x) f.priority f₁.priority := by
  obtain ⟨label, uses, location, status, attempts, priority⟩ := f₁
  unfold Fields.set
  split
  · simp only [Sets, pure_eq_ok_iff, Fields.mk.injEq, String.reduceEq, if_true, if_false]
  · simp only [Sets, bind_eq_ok_iff, pure_eq_ok_iff, Fields.mk.injEq, String.reduceEq, if_true,
      if_false]
    grind
  · simp only [Sets, pure_eq_ok_iff, Fields.mk.injEq, String.reduceEq, if_true, if_false]
  · simp only [Sets, String.reduceEq, if_true, if_false]
    cases Status.read (.ofList v) <;> simp [pure_eq_ok_iff]
  · simp only [Sets, bind_eq_ok_iff, pure_eq_ok_iff, Fields.mk.injEq, String.reduceEq, if_true,
      if_false]
    grind
  · simp only [Sets, String.reduceEq, if_true, if_false]
    cases count? v <;> simp [pure_eq_ok_iff]
  · next hl hu hf hs ha hp =>
    cases f
    simp [Sets, if_neg hl, if_neg hu, if_neg hf, if_neg hs, if_neg ha, if_neg hp, pure_eq_ok_iff]

/-- **Fields with different keys may be read in either order.** -/
theorem Fields.set_comm (hne : k ≠ k') (h : f.set k v = .ok f₁) (h' : f₁.set k' v' = .ok f₂) :
    ∃ g, f.set k' v' = .ok g ∧ g.set k v = .ok f₂ := by
  rw [Fields.set_eq_ok_iff] at h h'
  obtain ⟨hl, hu, hf, hs, ha, hp⟩ := h
  obtain ⟨hl', hu', hf', hs', ha', hp'⟩ := h'
  obtain ⟨label, hl⟩ := hl.comm hne hl'
  obtain ⟨uses, hu⟩ := hu.comm hne hu'
  obtain ⟨location, hf⟩ := hf.comm hne hf'
  obtain ⟨status, hs⟩ := hs.comm hne hs'
  obtain ⟨attempts, ha⟩ := ha.comm hne ha'
  obtain ⟨priority, hp⟩ := hp.comm hne hp'
  refine ⟨⟨label, uses, location, status, attempts, priority⟩, ?_⟩
  simp only [Fields.set_eq_ok_iff]
  exact ⟨⟨hl.1, hu.1, hf.1, hs.1, ha.1, hp.1⟩, hl.2, hu.2, hf.2, hs.2, ha.2, hp.2⟩

/-- The key of the field on the line. -/
def fieldKey (t : List Char) : String :=
  trimmed (.ofList ((t.drop 2).takeWhile (· ≠ ':')))

/-- A line that is read is one field, whatever the fields in front of it say. -/
theorem Fields.exists_add_eq_set (h : f.add t = .ok f₁) :
    ∃ v, ∀ g : Fields, g.add t = g.set (fieldKey t) v := by
  unfold Fields.add at h
  split_ifs at h with hempty
  · subst hempty
    exact ⟨[], fun g => rfl⟩
  · split at h
    · next entry =>
      split at h
      · next key value hspan =>
        refine ⟨trim value, fun g => ?_⟩
        have hkey : fieldKey ('-' :: ' ' :: entry) = trimmed (.ofList key) := by
          rw [List.span_eq_takeWhile_dropWhile] at hspan
          rw [← (Prod.mk.inj hspan).1]
          rfl
        unfold Fields.add
        rw [if_neg hempty, hkey]
        simp only [hspan]
      · cases h
    · cases h

/-- **Lines of fields with different keys may be read in any order.** -/
theorem foldlM_add_of_perm (hp : ts.Perm us) (hd : (ts.map fieldKey).Nodup)
    (h : ts.foldlM Fields.add f = .ok f₁) : us.foldlM Fields.add f = .ok f₁ := by
  have hcomm : ∀ {t u : List Char} {f f₁ f₂ : Fields}, fieldKey t ≠ fieldKey u → f.add t = .ok f₁ →
      f₁.add u = .ok f₂ → ∃ g f₂', f.add u = .ok g ∧ g.add t = .ok f₂' ∧ f₂ = f₂' := by
    intro t u f f₁ f₂ hne ht hu
    obtain ⟨v, hv⟩ := Fields.exists_add_eq_set ht
    obtain ⟨w, hw⟩ := Fields.exists_add_eq_set hu
    rw [hv] at ht
    rw [hw] at hu
    obtain ⟨g, hg, hgt⟩ := Fields.set_comm hne ht hu
    exact ⟨g, f₂, by rw [hw, hg], by rw [hv, hgt], rfl⟩
  have hstep : ∀ t {f f' f₁ : Fields}, f = f' → f.add t = .ok f₁ →
      ∃ f₁', f'.add t = .ok f₁' ∧ f₁ = f₁' := by
    rintro t f _ f₁ rfl h
    exact ⟨f₁, h, rfl⟩
  have hd' : ts.Pairwise fun t u => fieldKey t ≠ fieldKey u := List.pairwise_map.mp hd
  obtain ⟨f₂, hf, he⟩ := exists_foldlM_of_perm (R := Eq) (fun _ => rfl) Eq.trans hstep Ne.symm hcomm
    hp hd' h
  rw [hf, he]

/-! ### Sections -/

/-- **A section gives its own part of what the record says.** -/
theorem Contents.add_eq_ok_iff : c.add label p = .ok c₁ ↔
    p.opened ∉ c.seen ∧ p.opened :: c.seen = c₁.seen ∧
    Sets .fields p.opened (fun f g => (p.body.map Line.text).foldlM Fields.add f = .ok g)
      c.fields c₁.fields ∧
    Sets .statement p.opened (fun _ x => readText p.body = x) c.statement c₁.statement ∧
    Sets .proof p.opened (fun _ x => readText p.body = x) c.proof c₁.proof := by
  obtain ⟨seen, fields, statement, proof⟩ := c₁
  unfold Contents.add
  rw [if_throw_eq_ok_iff]
  refine and_congr_right fun _ => ?_
  cases p.opened with
  | fields =>
    simp only [Sets, bind_eq_ok_iff, foldlM_add_eq_ok_iff, pure_eq_ok_iff, Contents.mk.injEq,
      reduceCtorEq, if_true, if_false]
    grind
  | statement =>
    simp only [Sets, pure_eq_ok_iff, Contents.mk.injEq, reduceCtorEq, if_true, if_false]
  | proof =>
    simp only [Sets, pure_eq_ok_iff, Contents.mk.injEq, reduceCtorEq, if_true, if_false]

/-- The contents say the same, whatever the order in which the sections have been read. -/
structure Contents.Alike (c c' : Contents) : Prop where
  seen : ∀ s, s ∈ c.seen ↔ s ∈ c'.seen
  fields : c.fields = c'.fields
  statement : c.statement = c'.statement
  proof : c.proof = c'.proof

theorem Contents.Alike.refl (c : Contents) : c.Alike c := ⟨fun _ => Iff.rfl, rfl, rfl, rfl⟩

theorem Contents.Alike.trans (h : c.Alike c₁) (h' : c₁.Alike c₂) : c.Alike c₂ where
  seen s := (h.seen s).trans (h'.seen s)
  fields := h.fields.trans h'.fields
  statement := h.statement.trans h'.statement
  proof := h.proof.trans h'.proof

theorem Contents.Alike.add (h : c.Alike c') (hadd : c.add label p = .ok c₁) :
    ∃ c₁', c'.add label p = .ok c₁' ∧ c₁.Alike c₁' := by
  rw [Contents.add_eq_ok_iff] at hadd
  obtain ⟨hnew, hseen, hfields, hstatement, hproof⟩ := hadd
  refine ⟨{ c₁ with seen := p.opened :: c'.seen }, ?_, ?_, rfl, rfl, rfl⟩
  · rw [Contents.add_eq_ok_iff, ← h.fields, ← h.statement, ← h.proof, ← h.seen]
    exact ⟨hnew, rfl, hfields, hstatement, hproof⟩
  · intro s
    rw [← hseen, List.mem_cons, List.mem_cons, h.seen]

/-- **Sections may be read in either order.** -/
theorem Contents.add_comm (h : c.add label p = .ok c₁) (h' : c₁.add label q = .ok c₂) :
    ∃ c₁' c₂', c.add label q = .ok c₁' ∧ c₁'.add label p = .ok c₂' ∧ c₂.Alike c₂' := by
  rw [Contents.add_eq_ok_iff] at h h'
  obtain ⟨hnew, hseen, hf, hs, hp⟩ := h
  obtain ⟨hnew', hseen', hf', hs', hp'⟩ := h'
  rw [← hseen, List.mem_cons, not_or] at hnew'
  obtain ⟨hne, hnew'⟩ := hnew'
  obtain ⟨fields, hf⟩ := hf.comm (Ne.symm hne) hf'
  obtain ⟨statement, hs⟩ := hs.comm (Ne.symm hne) hs'
  obtain ⟨proof, hp⟩ := hp.comm (Ne.symm hne) hp'
  refine ⟨⟨q.opened :: c.seen, fields, statement, proof⟩,
    { c₂ with seen := p.opened :: q.opened :: c.seen }, ?_, ?_, ?_, rfl, rfl, rfl⟩
  · exact Contents.add_eq_ok_iff.mpr ⟨hnew', rfl, hf.1, hs.1, hp.1⟩
  · refine Contents.add_eq_ok_iff.mpr ⟨?_, rfl, hf.2, hs.2, hp.2⟩
    rw [List.mem_cons, not_or]
    exact ⟨Ne.symm hne, hnew⟩
  · intro s
    rw [← hseen', ← hseen]
    simp only [List.mem_cons, or_left_comm]

/-- **The sections of a record may be read in any order.** -/
theorem exists_foldlM_add_of_perm (hp : ps.Perm qs)
    (h : ps.foldlM (Contents.add label) c = .ok c₁) :
    ∃ c₂, qs.foldlM (Contents.add label) c = .ok c₂ ∧ c₁.Alike c₂ := by
  have hcomm : ∀ {p q : Part} {c c₁ c₂ : Contents}, True → c.add label p = .ok c₁ →
      c₁.add label q = .ok c₂ → ∃ c₁' c₂', c.add label q = .ok c₁' ∧
        c₁'.add label p = .ok c₂' ∧ c₂.Alike c₂' := fun _ h h' => Contents.add_comm h h'
  have hd : ps.Pairwise fun _ _ => True := List.pairwise_of_forall fun _ _ => trivial
  exact exists_foldlM_of_perm (R := Contents.Alike) Contents.Alike.refl Contents.Alike.trans
    (fun _ _ _ _ hc hadd => hc.add hadd) id hcomm hp hd h

/-- What a record comes to does not depend on the order of its sections. -/
theorem Record.finish_of_alike {r : Record} (h : c.Alike c') : r.finish c = r.finish c' := by
  unfold Record.finish
  simp only [h.seen, h.fields, h.statement, h.proof]

end ProofTracker.Document
