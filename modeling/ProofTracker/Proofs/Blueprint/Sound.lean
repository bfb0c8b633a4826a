import ProofTracker.Proofs.Blueprint.Put
import ProofTracker.Proofs.Lifecycle

/-! # Sound blueprints

A blueprint is sound if its catalog is, its order lists the labels of its items, each once, and its
items are admissible. Every successful change of a sound blueprint leads to a sound one: a batch is
checked as a whole (`Sound.put`), and a change of one item's progress keeps the label, the uses, the
texts and the budget of this item (`Sound.advance`, `Sound.revert`). -/

namespace ProofTracker.Blueprint

/-- What holds of a blueprint at any time. -/
structure Sound (b : Blueprint) : Prop where
  key_eq : ∀ l i, b.items.get? l = some i → i.label = l
  order_nodup : b.order.Nodup
  mem_order : ∀ l, l ∈ b.order ↔ b.items.contains l = true
  admissible : ∀ i ∈ b.items, i.Admissible
  catalog : b.items.Sound

variable {b b' : Blueprint} {batch : List Item} {i j : Item} {l : String} {t : Transition}

theorem sound_empty : Sound ∅ where
  key_eq _ _ := SortedBy.key_eq_of_get?_eq_some
  order_nodup := .nil
  mem_order l := by
    show l ∈ [] ↔ SortedBy.contains ∅ l = true
    simp
  admissible _ hi := absurd hi SortedBy.notMem_empty
  catalog := Catalog.sound_empty

theorem Sound.put (hb : b.Sound) (h : b.put batch = .ok b') : b'.Sound := by
  obtain ⟨ha, hc, rfl⟩ := put_eq_ok_iff.mp h
  refine ⟨fun _ _ => SortedBy.key_eq_of_get?_eq_some, ?_, ?_, ?_, hc⟩
  · -- A new label is not in the order, since the order holds known labels only.
    refine nodup_place hb.order_nodup (nodup_eraseDups _) fun l hl ho => ?_
    rw [hb.mem_order, (mem_newLabels.mp hl).2] at ho
    cases ho
  · intro l
    rw [mem_place, hb.mem_order, mem_newLabels, contains_merge]
    cases b.items.contains l <;> simp
  · intro i hi
    rcases mem_merge hi with ⟨j, hj, rfl⟩ | hi
    · exact ha j hj
    · exact hb.admissible i hi

/-! ### Changes of progress -/

theorem Sound.withItem (hb : b.Sound) (hi : i ∈ b.items) (hl : j.label = i.label)
    (ha : j.Admissible) (hc : Catalog.Sound (b.items.insert j)) :
    Sound { b with items := b.items.insert j } where
  key_eq _ _ := SortedBy.key_eq_of_get?_eq_some
  order_nodup := hb.order_nodup
  mem_order l := by
    rw [Catalog.contains_insert_of_mem hi hl]
    exact hb.mem_order l
  admissible k hk := by
    rcases SortedBy.mem_insert.mp hk with rfl | ⟨hk, -⟩
    · exact ha
    · exact hb.admissible k hk
  catalog := hc

/-- Attempts are counted within the budget. -/
theorem current_record_le (a : Attempts) (delta : UInt32) :
    (a.record delta).current ≤ (a.record delta).budget := by
  rw [UInt32.le_iff_toNat_le, Attempts.toNat_current_record, Attempts.budget_record]
  exact Nat.min_le_right _ _

theorem exists_items_of_advance {requested : Status} {delta : UInt32}
    (h : b.advance l requested delta = .ok (b', t)) :
    ∃ c, b.items.advance l requested delta = .ok (c, t) ∧ b' = { b with items := c } := by
  unfold Blueprint.advance at h
  obtain ⟨⟨c, t'⟩, hadv, h⟩ := bind_eq_ok_iff.mp h
  cases h
  exact ⟨c, hadv, rfl⟩

theorem advance_of_items {c : Catalog} {requested : Status} {delta : UInt32}
    (h : b.items.advance l requested delta = .ok (c, t)) :
    b.advance l requested delta = .ok ({ b with items := c }, t) := by
  unfold Blueprint.advance
  rw [h]
  rfl

/-- The answer to a move tells the status that the item has afterwards. -/
theorem applied_of_advance {requested : Status} {delta : UInt32}
    (h : b.advance l requested delta = .ok (b', t)) (hj : b'.items.get? l = some j) :
    t.applied = j.status := by
  obtain ⟨c, hadv, rfl⟩ := exists_items_of_advance h
  obtain ⟨i, hi, -, -, -, rfl⟩ := Catalog.advance_eq_ok_iff.mp hadv
  have hkey := SortedBy.key_eq_of_get?_eq_some hi
  rw [SortedBy.get?_insert, if_pos hkey] at hj
  rw [← Option.some.inj hj]

theorem exists_items_of_revert (h : b.revert l = .ok (b', t)) :
    ∃ c, b.items.revert l = .ok (c, t) ∧ b' = { b with items := c } := by
  unfold Blueprint.revert at h
  obtain ⟨⟨c, t'⟩, hrev, h⟩ := bind_eq_ok_iff.mp h
  cases h
  exact ⟨c, hrev, rfl⟩

theorem Sound.advance (hb : b.Sound) {requested : Status} {delta : UInt32}
    (h : b.advance l requested delta = .ok (b', t)) : b'.Sound := by
  obtain ⟨c, hadv, rfl⟩ := exists_items_of_advance h
  have hc := hb.catalog.advance hadv
  obtain ⟨i, hg, -, -, rfl, rfl⟩ := Catalog.advance_eq_ok_iff.mp hadv
  have hi := SortedBy.mem_of_get?_eq_some hg
  exact hb.withItem hi rfl { hb.admissible i hi with budget := current_record_le _ _ } hc

theorem Sound.revert (hb : b.Sound) (h : b.revert l = .ok (b', t)) : b'.Sound := by
  obtain ⟨c, hrev, rfl⟩ := exists_items_of_revert h
  have hc := hb.catalog.revert hrev
  obtain ⟨i, hg, -, -, rfl, rfl⟩ := Catalog.revert_eq_ok_iff.mp hrev
  have hi := SortedBy.mem_of_get?_eq_some hg
  exact hb.withItem hi rfl { hb.admissible i hi with } hc

/-! ### Batches -/

theorem Sound.upsertBatch (hb : b.Sound) (h : b.upsertBatch batch = .ok b') : b'.Sound := by
  obtain ⟨is, -, h⟩ := bind_eq_ok_iff.mp h
  exact hb.put h

theorem exists_batch_of_split {steps : List Step} {budget : UInt32} {labels : List String}
    (h : b.split l steps budget = .ok (b', labels)) :
    ∃ batch, b.items.split l steps budget = .ok batch ∧ b.put batch = .ok b' := by
  unfold Blueprint.split at h
  obtain ⟨is, hplan, h⟩ := bind_eq_ok_iff.mp h
  obtain ⟨b'', hput, h⟩ := bind_eq_ok_iff.mp h
  cases h
  exact ⟨is, hplan, hput⟩

theorem Sound.split (hb : b.Sound) {steps : List Step} {budget : UInt32} {labels : List String}
    (h : b.split l steps budget = .ok (b', labels)) : b'.Sound := by
  obtain ⟨is, -, hput⟩ := exists_batch_of_split h
  exact hb.put hput

end ProofTracker.Blueprint
