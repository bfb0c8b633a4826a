import ProofTracker.Lifecycle
import ProofTracker.Proofs.Catalog.Sound

/-! # Items that are moved and reopened

A move succeeds iff the item is there, may get the status and has what that needs, and it changes
the status and the attempts of this item alone (`advance_eq_ok_iff`); likewise for reopening a done
item (`revert_eq_ok_iff`). Neither is checked as a whole, and a sound catalog stays sound all the
same: what uses a moved item was not done before (`Sound.advance`), and what uses a reopened item
has not been started (`Sound.revert`). -/

namespace ProofTracker.Catalog

variable {c c' : Catalog} {i j : Item} {a : Attempts} {l : String} {t : Transition}

/-! ### Moving an item -/

theorem usesDone_iff : c.usesDone i = true ↔ ∀ l ∈ i.uses, c.isDone l = true := List.all_eq_true

/-- Everything that a successful move says. -/
theorem advance_eq_ok_iff {requested : Status} {delta : UInt32} :
    c.advance l requested delta = .ok (c', t) ↔ ∃ i, c.get? l = some i ∧
      i.status.mayBecome requested ∧ (requested.needsUses → c.usesDone i) ∧
      t = ⟨l, i.status, requested, (i.attempts.record delta).settle requested,
        i.attempts.record delta⟩ ∧
      c' = c.insert { i with status := t.applied, attempts := t.attempts } := by
  unfold advance
  cases c.get? l with
  | none => simp [throw_ne_ok]
  | some i =>
    have hneeds : ¬ (requested.needsUses && !c.usesDone i) = true ↔
        (requested.needsUses → c.usesDone i) := by simp
    simp only [unless_throw_eq_ok_iff, if_throw_eq_ok_iff, pure_eq_ok_iff, hneeds, Prod.mk.injEq,
      Option.some.injEq, exists_eq_left']
    constructor
    · rintro ⟨hm, hu, rfl, rfl⟩; exact ⟨hm, hu, rfl, rfl⟩
    · rintro ⟨hm, hu, rfl, rfl⟩; exact ⟨hm, hu, rfl, rfl⟩

theorem Status.ne_done_of_mayBecome {s requested : Status} (h : s.mayBecome requested) :
    s ≠ .done := by
  rintro rfl
  cases h

theorem Status.eq_underway_of_mayBecome {requested : Status}
    (h : Status.mayBecome .todo requested) : requested = .underway := by
  cases requested with
  | underway => rfl
  | todo | done | hard => cases h

theorem eq_done_of_settle {a : Attempts} {requested : Status} (h : a.settle requested = .done) :
    requested = .done := by
  unfold Attempts.settle at h
  split_ifs at h
  exact h

theorem settle_cases (a : Attempts) (requested : Status) : a.settle requested = requested ∨
    a.settle requested = .hard ∧ a.exhausted ∧ requested ≠ .done := by
  unfold Attempts.settle
  split_ifs with h
  · exact Or.inr ⟨rfl, h⟩
  · exact Or.inl rfl

theorem settle_done (a : Attempts) : a.settle .done = .done := by
  unfold Attempts.settle
  exact if_neg fun h => h.2 rfl

theorem exhausted_iff : a.exhausted = true ↔ a.budget ≤ a.current := decide_eq_true_iff

/-- Counting no further attempt changes nothing. -/
theorem record_zero (h : a.current ≤ a.budget) : a.record 0 = a := by
  rw [UInt32.le_iff_toNat_le] at h
  have hcur : (a.record 0).current = a.current := by
    rw [← UInt32.toNat_inj, Attempts.toNat_current_record]
    show min (a.current.toNat + 0) a.budget.toNat = a.current.toNat
    omega
  show Attempts.mk (a.record 0).current a.budget = a
  rw [hcur]

/-- An item can be started if it has an attempt left, and is hard otherwise. -/
theorem settle_underway (a : Attempts) :
    a.settle .underway = if a.current < a.budget then .underway else .hard := by
  have hex : a.exhausted = true ↔ ¬ a.current < a.budget := by
    rw [exhausted_iff, UInt32.not_lt]
  unfold Attempts.settle
  by_cases h : a.current < a.budget <;> simp [hex, h]

theorem lt_of_settle_eq_underway {requested : Status}
    (h : a.settle requested = .underway) : a.current < a.budget := by
  unfold Attempts.settle at h
  split_ifs at h with hex
  -- The status is the one asked for, so the attempts are not used up.
  have hne : a.exhausted ≠ true := fun he => hex ⟨he, by rw [h]; decide⟩
  rwa [Ne, exhausted_iff, UInt32.not_le] at hne

theorem Sound.advance (hc : c.Sound) {requested : Status} {delta : UInt32}
    (h : c.advance l requested delta = .ok (c', t)) : c'.Sound := by
  obtain ⟨i, hi, hm, hu, rfl, rfl⟩ := advance_eq_ok_iff.mp h
  refine hc.insert (SortedBy.mem_of_get?_eq_some hi) rfl rfl ?_ ?_
  · intro hd
    exact usesDone_iff.mp (hu (eq_done_of_settle hd ▸ rfl))
  · intro hd
    exact absurd hd (Status.ne_done_of_mayBecome hm)

/-! ### Reopening an item -/

theorem revert_eq_ok_iff :
    c.revert l = .ok (c', t) ↔ ∃ i, c.get? l = some i ∧ i.status = .done ∧
      (∀ j ∈ c, l ∈ j.uses → j.status = .todo) ∧ t = ⟨l, .done, .todo, .todo, i.attempts⟩ ∧
      c' = c.insert { i with status := .todo } := by
  unfold revert
  cases c.get? l with
  | none => simp [throw_ne_ok]
  | some i =>
    have hstarted : ((c.dependents l).filter (·.status ≠ .todo)).isEmpty = true ↔
        ∀ j ∈ c, l ∈ j.uses → j.status = .todo := by
      simp [mem_dependents]
    simp only [unless_throw_eq_ok_iff, pure_eq_ok_iff, hstarted, Prod.mk.injEq,
      Option.some.injEq, exists_eq_left']
    constructor
    · rintro ⟨hd, hs, rfl, rfl⟩; exact ⟨hd, hs, rfl, rfl⟩
    · rintro ⟨hd, hs, rfl, rfl⟩; exact ⟨hd, hs, rfl, rfl⟩

theorem Sound.revert (hc : c.Sound) (h : c.revert l = .ok (c', t)) : c'.Sound := by
  obtain ⟨i, hg, -, hs, rfl, rfl⟩ := revert_eq_ok_iff.mp h
  obtain ⟨hi, rfl⟩ := SortedBy.get?_eq_some_iff.mp hg
  refine hc.insert hi rfl rfl (fun hd => by cases hd) ?_
  intro _ _ k hk hu hd
  rw [hs k hk hu] at hd
  cases hd

end ProofTracker.Catalog
