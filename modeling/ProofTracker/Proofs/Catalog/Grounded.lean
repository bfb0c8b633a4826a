import ProofTracker.Proofs.Lifecycle

/-! # Grounded catalogs

A catalog is grounded if all that has been started uses done items only. A start asks for that, and
what has been started before may get any status, since nothing that has been started uses it as long
as it is not done (`Grounded.advance`). A revert asks for the items that use the reopened one only
(`Grounded.revert`), and yet nothing that rests on it has been started, however far away it is
(`Grounded.exists_todo_of_restsOn`). -/

namespace ProofTracker.Catalog

/-- All that is underway, done or given up uses done items only. -/
def Grounded (c : Catalog) : Prop := ∀ i ∈ c, i.status ≠ .todo → ∀ l ∈ i.uses, c.isDone l = true

variable {c c' : Catalog} {i : Item} {l m : String} {t : Transition}

theorem Grounded.advance (hc : c.Sound) (hg : c.Grounded) {requested : Status} {delta : UInt32}
    (h : c.advance l requested delta = .ok (c', t)) : c'.Grounded := by
  obtain ⟨i, hget, hm, hu, rfl, rfl⟩ := advance_eq_ok_iff.mp h
  have hi := SortedBy.mem_of_get?_eq_some hget
  refine isDone_of_mem_insert (· ≠ .todo) hg hi rfl rfl (hc.acyclic.notMem_uses hi) (fun _ => ?_) ?_
  · cases hs : i.status with
    | todo =>
      -- All that can be asked for is a start, which needs the uses to be done.
      rw [hs] at hm
      obtain rfl := Status.eq_underway_of_mayBecome hm
      exact usesDone_iff.mp (hu rfl)
    | underway | done | hard => exact hg i hi (by simp [hs])
  · intro hd
    exact absurd hd (Status.ne_done_of_mayBecome hm)

theorem Grounded.revert (hc : c.Sound) (hg : c.Grounded) (h : c.revert l = .ok (c', t)) :
    c'.Grounded := by
  obtain ⟨i, hget, -, hs, rfl, rfl⟩ := revert_eq_ok_iff.mp h
  obtain ⟨hi, rfl⟩ := SortedBy.get?_eq_some_iff.mp hget
  refine isDone_of_mem_insert (· ≠ .todo) hg hi rfl rfl (hc.acyclic.notMem_uses hi) (absurd rfl) ?_
  intro _ _ k hk hu hstarted
  exact hstarted (hs k hk hu)

/-! ### What rests on an item that is not done -/

theorem Grounded.exists_todo_of_uses (hg : c.Grounded) (h : c.Uses m l)
    (hl : c.isDone l = false) : ∃ i, c.get? m = some i ∧ i.status = .todo := by
  obtain ⟨i, hi, hu⟩ := uses_iff_get?.mp h
  refine ⟨i, hi, ?_⟩
  by_contra hs
  have hd := hg i (SortedBy.mem_of_get?_eq_some hi) hs l hu
  rw [hl] at hd
  cases hd

/-- Nothing that rests on an item that is not done has been started. -/
theorem Grounded.exists_todo_of_restsOn (hg : c.Grounded) (h : c.RestsOn m l)
    (hl : c.isDone l = false) : ∃ i, c.get? m = some i ∧ i.status = .todo := by
  induction h using Relation.TransGen.head_induction_on with
  | single hu => exact hg.exists_todo_of_uses hu hl
  | @head m k hu _ ih =>
    obtain ⟨i, hi, htodo⟩ := ih
    have hk : c.isDone k = false := by
      unfold isDone
      rw [hi, Option.any_some, htodo]
      rfl
    exact hg.exists_todo_of_uses hu hk

theorem isDone_of_revert (h : c.revert l = .ok (c', t)) : c'.isDone l = false := by
  obtain ⟨i, hget, -, -, rfl, rfl⟩ := revert_eq_ok_iff.mp h
  obtain ⟨-, rfl⟩ := SortedBy.get?_eq_some_iff.mp hget
  exact isDone_insert_self c { i with status := .todo }

end ProofTracker.Catalog
