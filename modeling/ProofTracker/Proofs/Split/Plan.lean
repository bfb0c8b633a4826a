import ProofTracker.Proofs.Catalog.Reach
import ProofTracker.Proofs.Checked
import ProofTracker.Proofs.Split.Labels

/-! # When a split is planned

A split is planned iff the target is there and not done, there are steps, nothing that the target
rests on is underway, and labels are found for the steps (`split_eq_ok_iff`). -/

namespace ProofTracker.Catalog

variable {c : Catalog} {target : String} {steps : List Step} {n : UInt32} {batch : List Item}
  {e : Error}

theorem ancestorsUnderway_isEmpty_iff :
    ((c.ancestors target).toList.filter fun l => (c.get? l).any (·.status = .underway)).isEmpty =
      true ↔ ∀ i ∈ c, c.RestsOn target i.label → i.status ≠ .underway := by
  simp only [List.isEmpty_iff, List.filter_eq_nil_iff, SortedBy.mem_toList, mem_ancestors,
    Option.any_eq_true, decide_eq_true_eq, not_exists, not_and, SortedBy.get?_eq_some_iff]
  constructor
  · exact fun h i hi hrest => h i.label hrest i ⟨hi, rfl⟩
  · rintro h l hrest i ⟨hi, rfl⟩
    exact h i hi hrest

theorem split_eq_ok_iff : c.split target steps n = .ok batch ↔
    ∃ t, c.get? target = some t ∧ steps ≠ [] ∧ t.status ≠ .done ∧
      (∀ i ∈ c, c.RestsOn target i.label → i.status ≠ .underway) ∧
      ∃ labels, c.stepLabels target steps = .ok labels ∧
        batch = chain t n t.uses (labels.zip steps) := by
  unfold split
  cases c.get? target with
  | none => simp [throw_ne_ok]
  | some t =>
    have hempty : steps.isEmpty = true ↔ steps = [] := List.isEmpty_iff
    cases c.stepLabels target steps with
    | error r =>
      simp only [if_throw_eq_ok_iff, unless_throw_eq_ok_iff, throw_ne_ok, and_false, reduceCtorEq,
        false_and, exists_false]
    | ok labels =>
      simp only [if_throw_eq_ok_iff, unless_throw_eq_ok_iff, ancestorsUnderway_isEmpty_iff, hempty,
        pure_eq_ok_iff, Option.some.injEq, Except.ok.injEq, exists_eq_left', ne_eq]
      rw [eq_comm (a := batch)]

/-- What is said when no split is planned. -/
theorem split_eq_error (h : c.split target steps n = .error e) :
    e = .notFound target ∧ c.get? target = none ∨ e = .emptySplit target ∨
    ∃ s r, e = .transition target s .todo r ∧
      (r = .splitDone ∨ (∃ ls, r = .ancestorsUnderway ls) ∨
        ∃ l, r = .badStepLabel l ∨ r = .stepLabelTaken l) := by
  unfold split at h
  cases hg : c.get? target with
  | none =>
    rw [hg] at h
    exact Or.inl ⟨(Except.error.inj h).symm, rfl⟩
  | some t =>
    rw [hg] at h
    simp only [if_throw_eq_error_iff, unless_throw_eq_error_iff] at h
    rcases h with ⟨-, rfl⟩ | ⟨-, ⟨-, rfl⟩ | ⟨-, ⟨-, rfl⟩ | ⟨-, h⟩⟩⟩
    · exact Or.inr (Or.inl rfl)
    · exact Or.inr (Or.inr ⟨_, _, rfl, Or.inl rfl⟩)
    · exact Or.inr (Or.inr ⟨_, _, rfl, Or.inr (Or.inl ⟨_, rfl⟩)⟩)
    · cases hl : c.stepLabels target steps with
      | error r =>
        rw [hl] at h
        have hr := stepLabels_eq_error hl
        exact Or.inr (Or.inr ⟨_, r, (Except.error.inj h).symm, Or.inr (Or.inr hr)⟩)
      | ok labels =>
        rw [hl] at h
        cases h

end ProofTracker.Catalog
