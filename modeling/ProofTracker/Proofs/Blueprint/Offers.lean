import ProofTracker.Proofs.Blueprint.History
import ProofTracker.Proofs.Catalog.Eligible

/-! # What is offered after a change

When an item has been finished, those that waited for it alone are offered as well (`Awaits`), and all
that was offered before still is (`mem_offers_of_finish`). When a done item is reopened, what uses it is
no longer offered, and the item itself is: all that it uses is still done, as it does not use itself
(`mem_offers_of_reopen`). Items that use neither are offered as before, since only the status of one
label has changed. So it is known for a reachable blueprint how the offers change
(`Reachable.eligible_after`). -/

namespace ProofTracker

namespace Catalog

variable {c c' : Catalog} {i j : Item} {a : Attempts} {l m : String}

/-! ### The offers -/

/-- No two offers have the same priority and label. -/
theorem pairwise_eligible_lt (c : Catalog) : c.eligible.Pairwise fun i j =>
    i.priority < j.priority ∨ i.priority = j.priority ∧ i.label < j.label := by
  have hd : (c.eligible.map Item.label).Nodup := by
    refine (((List.mergeSort_perm _ _).map Item.label).nodup_iff).mpr ?_
    exact c.nodup_labels.sublist (List.filter_sublist.map _)
  refine (c.pairwise_eligible.and (List.pairwise_map.mp hd)).imp ?_
  rintro i j ⟨hle, hne⟩
  refine (offeredBefore_iff.mp hle).imp_right (And.imp_right fun hle => ?_)
  exact String.not_le.mp fun hge => hne (String.le_antisymm hle hge)

theorem mem_offers : m ∈ c.eligible.map Item.label ↔
    ∃ i, c.get? m = some i ∧ i.status = .todo ∧ ∀ k ∈ i.uses, c.isDone k = true := by
  simp only [List.mem_map, mem_eligible, usesDone_iff]
  constructor
  · rintro ⟨i, ⟨hi, htodo, huses⟩, rfl⟩
    exact ⟨i, SortedBy.get?_of_mem hi, htodo, huses⟩
  · rintro ⟨i, hi, htodo, huses⟩
    obtain ⟨hmem, hl⟩ := SortedBy.get?_eq_some_iff.mp hi
    exact ⟨i, ⟨hmem, htodo, huses⟩, hl⟩

/-- What is not to be done is not offered. -/
theorem notMem_offers (hi : c.get? l = some i) (hs : i.status ≠ .todo) :
    l ∉ c.eligible.map Item.label := by
  rw [mem_offers]
  rintro ⟨j, hj, htodo, -⟩
  obtain rfl := Option.some.inj (hi.symm.trans hj)
  exact hs htodo

/-- The item with the label `m` is to be done, and of what it uses only `l` may be not done. -/
def Awaits (c : Catalog) (m l : String) : Prop :=
  ∃ j, c.get? m = some j ∧ j.status = .todo ∧ l ∈ j.uses ∧
    ∀ k ∈ j.uses, k ≠ l → ∃ x, c.get? k = some x ∧ x.status = .done

theorem Awaits.notMem_offers (h : c.Awaits m l) (hl : c.isDone l = false) :
    m ∉ c.eligible.map Item.label := by
  obtain ⟨j, hj, -, hu, -⟩ := h
  rw [mem_offers]
  rintro ⟨j', hj', -, huses⟩
  obtain rfl := Option.some.inj (hj.symm.trans hj')
  rw [huses l hu] at hl
  cases hl

/-! ### An item with another status -/

/-- When an item is put in place of another one, what else is offered are the items to be done all of
whose uses are done afterwards. -/
theorem mem_offers_insert_of_ne (h : m ≠ j.label) :
    m ∈ (eligible (c.insert j)).map Item.label ↔ ∃ i, c.get? m = some i ∧ i.status = .todo ∧
      ∀ k ∈ i.uses, k = j.label ∧ j.status = .done ∨ k ≠ j.label ∧ c.isDone k = true := by
  have hdone : ∀ k, isDone (c.insert j) k = true ↔
      k = j.label ∧ j.status = .done ∨ k ≠ j.label ∧ c.isDone k = true := by
    intro k
    by_cases hk : k = j.label
    · rw [hk, isDone_insert_self]
      simp
    · rw [isDone_insert_of_ne (Ne.symm hk)]
      simp [hk]
  simp only [mem_offers, SortedBy.get?_insert_of_ne (Ne.symm h), hdone]

/-- **Finishing an item** adds those to the offers that waited for it alone. -/
theorem mem_offers_of_finish (hi : c.get? j.label = some i) (hs : i.status ≠ .todo)
    (hj : j.status = .done) : m ∈ (eligible (c.insert j)).map Item.label ↔
      m ∈ c.eligible.map Item.label ∨ c.Awaits m j.label := by
  by_cases hm : m = j.label
  · have hnew : j.label ∉ (eligible (c.insert j)).map Item.label :=
      notMem_offers (SortedBy.get?_insert_self c j) (by simp [hj])
    have hawaits : ¬ c.Awaits j.label j.label := by
      rintro ⟨k, hk, htodo, -⟩
      obtain rfl := Option.some.inj (hi.symm.trans hk)
      exact hs htodo
    simp only [hm, hnew, notMem_offers hi hs, hawaits, or_self]
  · rw [mem_offers_insert_of_ne hm, mem_offers]
    constructor
    · rintro ⟨k, hk, htodo, huses⟩
      have hothers : ∀ l ∈ k.uses, l ≠ j.label → c.isDone l = true := fun l hl hne =>
        ((huses l hl).resolve_left fun h => hne h.1).2
      by_cases hu : j.label ∈ k.uses
      · exact Or.inr ⟨k, hk, htodo, hu, fun l hl hne => isDone_iff.mp (hothers l hl hne)⟩
      · exact Or.inl ⟨k, hk, htodo, fun l hl => hothers l hl (by rintro rfl; exact hu hl)⟩
    · have hdone : ∀ k : Item, (∀ l ∈ k.uses, l ≠ j.label → c.isDone l = true) →
          ∀ l ∈ k.uses, l = j.label ∧ j.status = .done ∨ l ≠ j.label ∧ c.isDone l = true := by
        intro k hothers l hl
        by_cases hlj : l = j.label
        · exact Or.inl ⟨hlj, hj⟩
        · exact Or.inr ⟨hlj, hothers l hl hlj⟩
      rintro (⟨k, hk, htodo, huses⟩ | ⟨k, hk, htodo, -, hothers⟩)
      · exact ⟨k, hk, htodo, hdone k fun l hl _ => huses l hl⟩
      · exact ⟨k, hk, htodo, hdone k fun l hl hne => isDone_iff.mpr (hothers l hl hne)⟩

/-- **Reopening an item** puts it among the offers, in place of all that uses it. -/
theorem mem_offers_of_reopen (hc : c.Sound) (hi : c.get? j.label = some i) (hs : i.status = .done)
    (hu : j.uses = i.uses) (hj : j.status = .todo) :
    m ∈ (eligible (c.insert j)).map Item.label ↔
      m = j.label ∨ m ∈ c.eligible.map Item.label ∧ ¬ c.Uses m j.label := by
  by_cases hm : m = j.label
  · simp only [hm, true_or, iff_true]
    obtain ⟨hmem, hl⟩ := SortedBy.get?_eq_some_iff.mp hi
    refine mem_offers.mpr ⟨j, SortedBy.get?_insert_self c j, hj, fun k hk => ?_⟩
    -- The item does not use itself, so what it uses is as done as it was.
    have hne : j.label ≠ k := by
      rintro rfl
      rw [hu, ← hl] at hk
      exact hc.acyclic.notMem_uses hmem hk
    rw [isDone_insert_of_ne hne]
    exact hc.done i hmem hs k (hu ▸ hk)
  · rw [mem_offers_insert_of_ne hm, mem_offers]
    simp only [hm, false_or]
    constructor
    · rintro ⟨k, hk, htodo, huses⟩
      have hothers : ∀ l ∈ k.uses, l ≠ j.label ∧ c.isDone l = true := fun l hl =>
        (huses l hl).resolve_left fun h => by
          rw [hj] at h
          cases h.2
      refine ⟨⟨k, hk, htodo, fun l hl => (hothers l hl).2⟩, fun hmj => ?_⟩
      obtain ⟨k', hk', hkj⟩ := uses_iff_get?.mp hmj
      obtain rfl := Option.some.inj (hk.symm.trans hk')
      exact (hothers _ hkj).1 rfl
    · rintro ⟨⟨k, hk, htodo, huses⟩, hmj⟩
      refine ⟨k, hk, htodo, fun l hl => Or.inr ⟨?_, huses l hl⟩⟩
      rintro rfl
      exact hmj (uses_iff_get?.mpr ⟨k, hk, hl⟩)

theorem offers_of_advance {delta : UInt32} {t : Transition}
    (h : c.advance l .done delta = .ok (c', t)) :
    (∀ m, m ∈ c'.eligible.map Item.label ↔ m ∈ c.eligible.map Item.label ∨ c.Awaits m l) ∧
      ∀ m, c.Awaits m l → m ∉ c.eligible.map Item.label := by
  obtain ⟨i, hi, hm, -, ht, rfl⟩ := advance_eq_ok_iff.mp h
  obtain ⟨hmem, rfl⟩ := SortedBy.get?_eq_some_iff.mp hi
  have htodo : i.status ≠ .todo := fun hs => by
    rw [hs] at hm
    cases hm
  have hdone : t.applied = .done := by rw [ht, settle_done]
  refine ⟨fun m => mem_offers_of_finish hi htodo hdone, fun m hawaits => ?_⟩
  refine hawaits.notMem_offers (Bool.eq_false_iff.mpr fun hd => ?_)
  exact Status.ne_done_of_mayBecome hm ((isDone_label_iff hmem).mp hd)

theorem offers_of_revert {t : Transition} (hc : c.Sound) (h : c.revert l = .ok (c', t)) :
    (∀ m, m ∈ c'.eligible.map Item.label ↔
      m = l ∨ m ∈ c.eligible.map Item.label ∧ ¬ c.Uses m l) ∧
      l ∉ c.eligible.map Item.label := by
  obtain ⟨i, hi, hd, -, -, rfl⟩ := revert_eq_ok_iff.mp h
  obtain ⟨-, rfl⟩ := SortedBy.get?_eq_some_iff.mp hi
  exact ⟨fun m => mem_offers_of_reopen hc hi hd rfl rfl, notMem_offers hi (by simp [hd])⟩

end Catalog

namespace Blueprint

open Catalog

variable {b : Blueprint}

/-- **How the offers change.** When an item is finished, the items to be done that use it and else only
done ones are offered as well, and none of these was offered before. When a done item is reopened, it
is offered, which it was not before, and the items that use it are not offered any more. The offers
ascend by priority and label. -/
theorem Reachable.eligible_after (h : b.Reachable) (l : String) :
    (∀ delta b' t, b.advance l .done delta = .ok (b', t) →
      (∀ m, m ∈ b'.items.eligible.map Item.label ↔
        m ∈ b.items.eligible.map Item.label ∨ b.items.Awaits m l) ∧
      (∀ m, b.items.Awaits m l → m ∉ b.items.eligible.map Item.label) ∧
      b'.items.eligible.Pairwise fun i j =>
        i.priority < j.priority ∨ i.priority = j.priority ∧ i.label < j.label) ∧
    (∀ b' t, b.revert l = .ok (b', t) →
      (∀ m, m ∈ b'.items.eligible.map Item.label ↔
        m = l ∨ m ∈ b.items.eligible.map Item.label ∧ ¬ b.items.Uses m l) ∧
      l ∉ b.items.eligible.map Item.label ∧
      b'.items.eligible.Pairwise fun i j =>
        i.priority < j.priority ∨ i.priority = j.priority ∧ i.label < j.label) := by
  constructor
  · intro delta b' t hadv
    obtain ⟨c, hc, rfl⟩ := exists_items_of_advance hadv
    obtain ⟨hmem, hnew⟩ := offers_of_advance hc
    exact ⟨hmem, hnew, c.pairwise_eligible_lt⟩
  · intro b' t hrev
    obtain ⟨c, hc, rfl⟩ := exists_items_of_revert hrev
    obtain ⟨hmem, hnew⟩ := offers_of_revert h.sound.catalog hc
    exact ⟨hmem, hnew, c.pairwise_eligible_lt⟩

/-- Three items use the one that is finished: one alone, one with a done item, and one with an item that
is not done. Then the finished item is reopened. -/
theorem Reachable.eligible_after_shared :
    let item (l : String) (uses : LabelSet) : Item :=
      { label := l, kind := .lem, uses, attempts := ⟨0, 3⟩ }
    let b := (∅ : Blueprint).run [.upsertBatch [item "a" ∅, item "d" ∅, item "f" ∅,
        item "b" {"a"}, item "c" (.ofList ["a", "d"]), item "e" (.ofList ["a", "f"])],
      .advance "d" .underway 0, .advance "d" .done 0, .advance "a" .underway 1]
    let b₁ := b.after (.advance "a" .done 1)
    let b₂ := b₁.after (.revert "a")
    b.Reachable ∧ b.advance "a" .done 1 = .ok (b₁, ⟨"a", .underway, .done, .done, ⟨2, 3⟩⟩) ∧
    b₁.revert "a" = .ok (b₂, ⟨"a", .done, .todo, .todo, ⟨2, 3⟩⟩) ∧
    (b.items.Awaits "c" "a" ∧ "c" ∉ b.items.eligible.map Item.label ∧
      "c" ∈ b₁.items.eligible.map Item.label) ∧
    "e" ∉ b₁.items.eligible.map Item.label ∧
    "c" ∉ b₂.items.eligible.map Item.label ∧ "a" ∈ b₂.items.eligible.map Item.label := by
  intro item b b₁ b₂
  have hb : b.Reachable := Reachable.empty.run _
  have hadv : b.advance "a" .done 1 = .ok (b₁, ⟨"a", .underway, .done, .done, ⟨2, 3⟩⟩) := by
    decide +kernel
  have hrev : b₁.revert "a" = .ok (b₂, ⟨"a", .done, .todo, .todo, ⟨2, 3⟩⟩) := by decide +kernel
  have hc : b.items.get? "c" = some (item "c" (.ofList ["a", "d"])) := by decide +kernel
  have he : b.items.get? "e" = some (item "e" (.ofList ["a", "f"])) := by decide +kernel
  have hd : b.items.isDone "d" = true := by decide +kernel
  have hf : ¬ b.items.isDone "f" = true := by decide +kernel
  have hc₁ : b₁.items.Uses "c" "a" :=
    uses_iff_get?.mpr ⟨item "c" (.ofList ["a", "d"]), by decide +kernel, List.mem_cons_self⟩
  have hfmem : "f" ∈ (item "e" (.ofList ["a", "f"])).uses :=
    List.mem_cons_of_mem _ List.mem_cons_self
  have hawaits : b.items.Awaits "c" "a" := by
    refine ⟨_, hc, rfl, List.mem_cons_self, fun k hk hne => ?_⟩
    obtain rfl : k = "d" := by
      have hk : k ∈ ["a", "d"] := hk
      simpa [hne] using hk
    exact isDone_iff.mp hd
  obtain ⟨hfinish, hnew, -⟩ := (hb.eligible_after "a").1 1 b₁ _ hadv
  obtain ⟨hreopen, -⟩ := ((hb.after _).eligible_after "a").2 b₂ _ hrev
  refine ⟨hb, hadv, hrev, ⟨hawaits, hnew "c" hawaits, (hfinish "c").mpr (Or.inr hawaits)⟩,
    fun hmem => ?_, fun hmem => ?_, (hreopen "a").mpr (Or.inl rfl)⟩
  · rcases (hfinish "e").mp hmem with hold | ⟨j, hj, -, -, hothers⟩
    · obtain ⟨j, hj, -, huses⟩ := mem_offers.mp hold
      obtain rfl := Option.some.inj (he.symm.trans hj)
      exact hf (huses "f" hfmem)
    · obtain rfl := Option.some.inj (he.symm.trans hj)
      exact hf (isDone_iff.mpr (hothers "f" hfmem (by decide)))
  · rcases (hreopen "c").mp hmem with hca | ⟨-, hno⟩
    · exact absurd hca (by decide)
    · exact hno hc₁

end Blueprint

end ProofTracker
