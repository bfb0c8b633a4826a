import ProofTracker.Proofs.Catalog.Linear

/-! # Items that cannot be placed

Items without a linear order leave some over that each use one of them. Dropping those that none of
them uses keeps this property (`blocked_used`), so something is left in the end (`peel_ne_nil`). An
item on a cycle is used by another one on it, so it is never dropped (`mem_peel`). Hence the
complaint about a catalog names labels in ascending order, and all that lie on cycles
(`linearOrder_correct`). -/

namespace ProofTracker.Catalog

variable {c : Catalog} {i j : Item} {is order stuck : List Item} {e : Error}

/-! ### Dropping items that are not used -/

theorem used_sublist (stuck : List Item) : (used stuck).Sublist stuck := by
  unfold used
  exact List.filter_sublist

/-- What an item among the used ones uses is used as well. -/
theorem blocked_used (hb : ∀ i ∈ stuck, Blocked stuck i) :
    ∀ i ∈ used stuck, Blocked (used stuck) i := by
  intro i hi
  have hi' := (used_sublist stuck).subset hi
  obtain ⟨j, hj, hu⟩ := hb i hi'
  exact ⟨j, mem_used.mpr ⟨hj, i, hi', hu⟩, hu⟩

theorem used_ne_nil (hne : stuck ≠ []) (hb : ∀ i ∈ stuck, Blocked stuck i) : used stuck ≠ [] := by
  obtain ⟨i, hi⟩ := List.exists_mem_of_ne_nil stuck hne
  obtain ⟨j, hj, hu⟩ := hb i hi
  exact List.ne_nil_of_mem (mem_used.mpr ⟨hj, i, hi, hu⟩)

theorem peel_sublist (stuck : List Item) : (peel stuck).Sublist stuck := by
  induction stuck using peel.induct with
  | case1 stuck hlt ih =>
    rw [peel, if_pos hlt]
    exact ih.trans (used_sublist stuck)
  | case2 stuck hlt =>
    rw [peel, if_neg hlt]

theorem peel_ne_nil (hne : stuck ≠ []) (hb : ∀ i ∈ stuck, Blocked stuck i) : peel stuck ≠ [] := by
  induction stuck using peel.induct with
  | case1 stuck hlt ih =>
    rw [peel, if_pos hlt]
    exact ih (used_ne_nil hne hb) (blocked_used hb)
  | case2 stuck hlt =>
    rw [peel, if_neg hlt]
    exact hne

/-- Items each of which is used by another one of them are never dropped. -/
theorem mem_peel {loop : Item → Prop} (hloop : ∀ i, loop i → ∃ j, loop j ∧ i.label ∈ j.uses)
    (hs : ∀ i, loop i → i ∈ stuck) (hi : loop i) : i ∈ peel stuck := by
  induction stuck using peel.induct with
  | case1 stuck hlt ih =>
    rw [peel, if_pos hlt]
    refine ih fun k hk => ?_
    obtain ⟨j, hj, hu⟩ := hloop k hk
    exact mem_used.mpr ⟨hs k hk, j, hs j hj, hu⟩
  | case2 stuck hlt =>
    rw [peel, if_neg hlt]
    exact hs i hi

/-! ### What is left of a catalog -/

theorem Placing.sublist (h : Placing is order stuck) : stuck.Sublist is := by
  induction h with
  | stuck _ => exact .refl _
  | next _ _ _ ih => exact ih.trans (List.Sublist.append_left (List.sublist_cons_self _ _) _)

theorem linearOrder_eq_error_iff : c.linearOrder = .error e ↔
    (place c.waiting).2 ≠ [] ∧ e = .cycle ((peel (place c.waiting).2).map Item.label) := by
  unfold linearOrder
  obtain ⟨placed, stuck⟩ := place c.waiting
  cases stuck <;> simp [eq_comm]

/-- An item on a cycle can neither be placed nor dropped. -/
theorem mem_peel_of_restsOn_self (hi : i ∈ c) (hrest : c.RestsOn i.label i.label) :
    i ∈ peel (place c.waiting).2 := by
  let loop (i : Item) : Prop := i ∈ c ∧ c.RestsOn i.label i.label
  have hs : ∀ i, loop i → i ∈ (place c.waiting).2 := fun i hi =>
    mem_stuck_of_restsOn_self hi.1 hi.2
  refine mem_peel (fun i hi => ?_) hs ⟨hi, hrest⟩
  obtain ⟨j, hj, hjj, hu⟩ := exists_user_of_restsOn_self hi.2
  exact ⟨j, ⟨hj, hjj⟩, hu⟩

/-- **A catalog has a linear order iff no known label leads back to itself.** The order has each
item once, behind all known ones that it rests on. Where there is none, the complaint names some
labels in ascending order, those on cycles among them. -/
theorem linearOrder_correct (c : Catalog) :
    ((∃ order, c.linearOrder = .ok order) ↔ ∀ l, ¬ Relation.TransGen c.KnownUses l l) ∧
    (∀ order, c.linearOrder = .ok order →
      order.Nodup ∧ (∀ i, i ∈ order ↔ i ∈ c) ∧
      ∀ front i rest, order = front ++ i :: rest →
        ∀ j ∈ c, Relation.TransGen c.KnownUses i.label j.label → j ∈ front) ∧
    (∀ e, c.linearOrder = .error e → ∃ ls, e = .cycle ls ∧ ls ≠ [] ∧ ls.Pairwise (· < ·) ∧
      ∀ l, Relation.TransGen c.KnownUses l l → l ∈ ls) := by
  refine ⟨exists_linearOrder_iff.trans acyclic_iff_knownUses, fun order ho => ?_, fun e he => ?_⟩
  · have hperm : order.Perm c.toList := by
      have hp := (placing_of_linearOrder ho).perm
      rwa [List.append_nil] at hp
    have hmem : ∀ i, i ∈ order ↔ i ∈ c := fun i => hperm.mem_iff
    refine ⟨hperm.nodup_iff.mpr (.of_map _ c.nodup_labels), hmem, ?_⟩
    intro front i rest hsplit j hj hrest
    have hlabels : order.map Item.label =
        front.map Item.label ++ i.label :: rest.map Item.label := by
      rw [hsplit, List.map_append, List.map_cons]
    obtain ⟨k, hk, hkj⟩ := List.mem_map.mp
      ((linear_of_linearOrder ho).mem_front hlabels hrest)
    have hkc : k ∈ c := (hmem k).mp (by rw [hsplit]; exact List.mem_append_left _ hk)
    rwa [SortedBy.eq_of_key_eq hkc hj hkj] at hk
  · obtain ⟨hne, rfl⟩ := linearOrder_eq_error_iff.mp he
    have hp := c.placing_waiting
    refine ⟨_, rfl, ?_, ?_, ?_⟩
    · rw [ne_eq, List.map_eq_nil_iff]
      exact peel_ne_nil hne hp.blocked
    · exact List.pairwise_map.mpr (c.sorted.sublist ((peel_sublist _).trans hp.sublist))
    · intro l hl
      have hrest := transGen_knownUses_self_iff.mp hl
      obtain ⟨i, hi, rfl⟩ := exists_mem_of_restsOn hrest
      exact List.mem_map.mpr ⟨i, mem_peel_of_restsOn_self hi hrest, rfl⟩

end ProofTracker.Catalog
