import ProofTracker.Catalog.Check
import ProofTracker.Proofs.Catalog.Order
import ProofTracker.Proofs.Checked

/-! # Sound catalogs

The check of a catalog says nothing iff the catalog is sound (`check_eq_ok_iff`). An item may get
another status without a new check: it must be done only over done items, and one that is done may
cease to be so only if no done item uses it (`Sound.insert`). -/

namespace ProofTracker.Catalog

/-- Every label that an item uses belongs to an item, no item rests on itself, and no done item uses
one that is not done. -/
structure Sound (c : Catalog) : Prop where
  closed : ∀ i ∈ c, ∀ l ∈ i.uses, c.contains l = true
  acyclic : c.Acyclic
  done : ∀ i ∈ c, i.status = .done → ∀ l ∈ i.uses, c.isDone l = true

variable {c : Catalog} {i j : Item} {l : String}

/-! ### The check -/

theorem dangling?_eq_none_iff :
    c.dangling? = none ↔ ∀ i ∈ c, ∀ l ∈ i.uses, c.contains l = true := by
  unfold dangling?
  simp only [List.findSome?_eq_none_iff, List.find?_eq_none, Bool.not_eq_true', Bool.not_eq_false]
  rfl

theorem premature?_eq_none_iff :
    c.premature? = none ↔ ∀ i ∈ c, i.status = .done → ∀ l ∈ i.uses, c.isDone l = true := by
  unfold premature?
  simp only [List.findSome?_eq_none_iff, List.mem_filter, decide_eq_true_eq, Option.map_eq_none_iff,
    List.find?_eq_none, Bool.not_eq_true', Bool.not_eq_false, and_imp]
  rfl

/-- **The check passes a catalog iff it is sound.** -/
theorem check_eq_ok_iff : c.check = .ok () ↔ c.Sound := by
  have hcheck : c.check = .ok () ↔
      c.dangling? = none ∧ (∃ order, c.linearOrder = .ok order) ∧ c.premature? = none := by
    unfold check
    cases c.dangling? with
    | some l => simp [bind_eq_ok_iff, throw_ne_ok]
    | none =>
      cases c.premature? with
      | some p => simp [bind_eq_ok_iff, throw_ne_ok]
      | none => simp only [bind_eq_ok_iff, pure_eq_ok_iff, and_true, true_and]
  rw [hcheck, dangling?_eq_none_iff, exists_linearOrder_iff, premature?_eq_none_iff]
  exact ⟨fun ⟨h1, h2, h3⟩ => ⟨h1, h2, h3⟩, fun h => ⟨h.closed, h.acyclic, h.done⟩⟩

/-- A complaint about a cycle is one about the linear order. -/
theorem linearOrder_of_check {ls : List String} (h : c.check = .error (.cycle ls)) :
    c.linearOrder = .error (.cycle ls) := by
  unfold check at h
  cases hd : c.dangling? with
  | some l =>
    rw [hd] at h
    cases h
  | none =>
    rw [hd] at h
    rcases bind_eq_error_iff.mp h with h | ⟨order, -, h⟩
    · exact h
    · cases hp : c.premature? with
      | none => rw [hp] at h; cases h
      | some p => rw [hp] at h; cases h

/-- Nothing uses a label without an item. -/
theorem Sound.not_uses (hc : c.Sound) (hl : c.contains l = false) (a : String) : ¬ c.Uses a l := by
  rintro ⟨i, hi, -, hu⟩
  rw [hc.closed i hi l hu] at hl
  cases hl

theorem sound_empty : Sound ∅ where
  closed _ hi := absurd hi SortedBy.notMem_empty
  acyclic l hl := by
    obtain ⟨i, hi, -⟩ := exists_mem_of_restsOn hl
    exact SortedBy.notMem_empty hi
  done _ hi := absurd hi SortedBy.notMem_empty

/-! ### Items with another status -/

theorem isDone_iff : c.isDone l = true ↔ ∃ i, c.get? l = some i ∧ i.status = .done := by
  unfold isDone
  simp only [Option.any_eq_true, decide_eq_true_eq]

theorem sound_iff_get? : c.Sound ↔
    (∀ i ∈ c, ∀ l ∈ i.uses, ∃ j, c.get? l = some j) ∧ (∀ l, ¬ Relation.TransGen c.Uses l l) ∧
      ∀ i ∈ c, i.status = .done → ∀ l ∈ i.uses, ∃ j, c.get? l = some j ∧ j.status = .done := by
  simp only [← isDone_iff, ← Option.isSome_iff_exists, ← SortedBy.contains_eq_isSome]
  exact ⟨fun h => ⟨h.closed, h.acyclic, h.done⟩, fun ⟨h1, h2, h3⟩ => ⟨h1, h2, h3⟩⟩

theorem isDone_label_iff (hi : i ∈ c) : c.isDone i.label = true ↔ i.status = .done := by
  unfold isDone
  rw [SortedBy.get?_of_mem hi, Option.any_some, decide_eq_true_eq]

theorem isDone_insert_self (c : Catalog) (i : Item) :
    isDone (c.insert i) i.label = decide (i.status = .done) := by
  unfold isDone
  rw [SortedBy.get?_insert_self, Option.any_some]

theorem isDone_insert_of_ne (h : i.label ≠ l) : isDone (c.insert i) l = c.isDone l := by
  unfold isDone
  rw [SortedBy.get?_insert_of_ne h]

theorem contains_insert_of_mem (hi : i ∈ c) (hl : j.label = i.label) :
    SortedBy.contains (c.insert j) l = c.contains l := by
  rw [SortedBy.contains_insert, hl]
  by_cases h : i.label = l
  · rw [← h, SortedBy.contains_of_mem hi, Bool.or_true]
  · rw [decide_eq_false h, Bool.false_or]

/-- If items with certain statuses use only done items, then this stays so when an item takes the place
of one with the same label and uses. -/
theorem isDone_of_mem_insert (p : Status → Prop)
    (hc : ∀ k ∈ c, p k.status → ∀ l ∈ k.uses, c.isDone l = true)
    (hi : i ∈ c) (hl : j.label = i.label) (hu : j.uses = i.uses) (hself : i.label ∉ i.uses)
    (hj : p j.status → ∀ l ∈ i.uses, c.isDone l = true)
    (hreopen : i.status = .done → j.status ≠ .done →
      ∀ k ∈ c, i.label ∈ k.uses → ¬ p k.status) :
    ∀ k ∈ SortedBy.insert c j, p k.status → ∀ l ∈ k.uses, isDone (c.insert j) l = true := by
  intro k hk hpk l hkl
  rcases SortedBy.mem_insert.mp hk with rfl | ⟨hk, -⟩
  · rw [hu] at hkl
    -- The item does not use itself, so the statuses of what it uses are the old ones.
    have hne : k.label ≠ l := fun h => hself (by rwa [← hl, h])
    rw [isDone_insert_of_ne hne]
    exact hj hpk l hkl
  · have hold := hc k hk hpk l hkl
    by_cases h : j.label = l
    · have hjd : j.status = .done := by
        have hid : i.status = .done := by
          rwa [← h, hl, isDone_label_iff hi] at hold
        by_contra hjd
        exact hreopen hid hjd k hk (by rwa [← hl, h]) hpk
      rw [← h, isDone_insert_self, hjd]
      rfl
    · rwa [isDone_insert_of_ne h]

/-- What must hold for an item to take the place of one with the same label and uses. -/
theorem Sound.insert (hc : c.Sound) (hi : i ∈ c) (hl : j.label = i.label) (hu : j.uses = i.uses)
    (hdone : j.status = .done → ∀ l ∈ i.uses, c.isDone l = true)
    (hreopen : i.status = .done → j.status ≠ .done → ∀ k ∈ c, i.label ∈ k.uses → k.status ≠ .done) :
    Sound (c.insert j) where
  closed := by
    intro k hk l hkl
    rw [contains_insert_of_mem hi hl]
    rcases SortedBy.mem_insert.mp hk with rfl | ⟨hk, -⟩
    · exact hc.closed i hi l (hu ▸ hkl)
    · exact hc.closed k hk l hkl
  acyclic := (acyclic_insert_of_uses_eq hi hl hu).mpr hc.acyclic
  done := isDone_of_mem_insert (· = .done) hc.done hi hl hu (hc.acyclic.notMem_uses hi) hdone hreopen

end ProofTracker.Catalog
