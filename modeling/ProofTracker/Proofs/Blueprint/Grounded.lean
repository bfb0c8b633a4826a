import ProofTracker.Proofs.Blueprint.History
import ProofTracker.Proofs.Catalog.Grounded

/-! # Grounded blueprints

A grounded blueprint stays grounded as long as stored items are not replaced by hand: items are added
or go through their lives (`Proceeds`). The items that a batch or a chain puts in are to be done, and
what they take the place of was not done, so nothing that has been started uses it
(`grounded_of_put`). After a revert all that rests on the item is to be done, although only what uses
it directly has been looked at (`Reachable.grounded_of_proceeds`). -/

namespace ProofTracker.Blueprint

open Catalog

variable {b b' : Blueprint} {batch is : List Item} {l : String} {t : Transition}

/-- A successful call that adds new items, or moves, starts, reopens or splits an item. -/
inductive Proceeds : Blueprint → Blueprint → Prop
  | add {b b' : Blueprint} {batch : List Item}
      (hnew : ∀ i ∈ batch, b.items.contains i.label = false)
      (h : b.upsertBatch batch = .ok b') : Proceeds b b'
  | advance {b b' : Blueprint} {l : String} {requested : Status} {delta : UInt32} {t : Transition}
      (h : b.advance l requested delta = .ok (b', t)) : Proceeds b b'
  | claim {b b' : Blueprint} {i : Item} {offers : List Item} {t : Transition}
      (he : b.items.eligible = i :: offers)
      (h : b.advance i.label .underway 0 = .ok (b', t)) : Proceeds b b'
  | revert {b b' : Blueprint} {l : String} {t : Transition}
      (h : b.revert l = .ok (b', t)) : Proceeds b b'
  | split {b b' : Blueprint} {target : String} {steps : List Step} {n : UInt32}
      {labels : List String} (h : b.split target steps n = .ok (b', labels)) : Proceeds b b'

theorem grounded_of_put (hg : b.items.Grounded) (h : b.put is = .ok b')
    (htodo : ∀ i ∈ is, i.status = .todo)
    (hold : ∀ i ∈ is, ∀ j, b.items.get? i.label = some j → j.status ≠ .done) :
    b'.items.Grounded := by
  obtain ⟨-, -, rfl⟩ := put_eq_ok_iff.mp h
  intro k hk hs l hl
  rcases mem_merge hk with ⟨i, hi, rfl⟩ | hk
  · exact absurd (htodo i hi) hs
  · obtain ⟨m, hm, hd⟩ := isDone_iff.mp (hg k hk hs l hl)
    rcases get?_merge_cases b is l with ⟨i, hi, rfl, -⟩ | ⟨-, hget⟩
    · exact absurd hd (hold i hi m hm)
    · exact isDone_iff.mpr ⟨m, hget.trans hm, hd⟩

theorem grounded_of_upsertBatch (hg : b.items.Grounded)
    (hnew : ∀ i ∈ batch, b.items.contains i.label = false)
    (h : b.upsertBatch batch = .ok b') : b'.items.Grounded := by
  obtain ⟨is, hput, his⟩ := exists_put_of_upsertBatch h
  have hnone : ∀ j ∈ is, b.items.get? j.label = none := by
    intro j hj
    obtain ⟨i, hi, hl⟩ := (his j hj).1
    rw [← hl]
    exact SortedBy.contains_eq_false_iff.mp (hnew i hi)
  refine grounded_of_put hg hput (fun j hj => ?_) fun j hj k hk => ?_
  · rcases (his j hj).2 with ⟨stored, hstored, -⟩ | ⟨-, htodo⟩
    · rw [hnone j hj] at hstored
      cases hstored
    · exact htodo
  · rw [hnone j hj] at hk
    cases hk

theorem grounded_of_split (hg : b.items.Grounded) {target : String} {steps : List Step}
    {n : UInt32} {labels : List String} (h : b.split target steps n = .ok (b', labels)) :
    b'.items.Grounded := by
  obtain ⟨is, hput, his⟩ := exists_put_of_split h
  refine grounded_of_put hg hput (fun j hj => (his j hj).1) fun j hj k hk => ?_
  rcases (his j hj).2 with ⟨htarget, t, ht, htd, -⟩ | hnone
  · rw [htarget, ht] at hk
    obtain rfl := Option.some.inj hk
    exact htd
  · rw [hnone] at hk
    cases hk

theorem Proceeds.sound (h : Proceeds b b') (hb : b.Sound) : b'.Sound := by
  cases h with
  | add _ h => exact hb.upsertBatch h
  | advance h => exact hb.advance h
  | claim _ h => exact hb.advance h
  | revert h => exact hb.revert h
  | split h => exact hb.split h

theorem Proceeds.grounded (h : Proceeds b b') (hb : b.Sound) (hg : b.items.Grounded) :
    b'.items.Grounded := by
  cases h with
  | add hnew h => exact grounded_of_upsertBatch hg hnew h
  | advance h =>
    obtain ⟨c, hadv, rfl⟩ := exists_items_of_advance h
    exact hg.advance hb.catalog hadv
  | claim _ h =>
    obtain ⟨c, hadv, rfl⟩ := exists_items_of_advance h
    exact hg.advance hb.catalog hadv
  | revert h =>
    obtain ⟨c, hrev, rfl⟩ := exists_items_of_revert h
    exact hg.revert hb.catalog hrev
  | split h => exact grounded_of_split hg h

/-- **A grounded blueprint stays grounded**, and a revert on the way leaves all that rests on the
reopened item to be done. -/
theorem Reachable.grounded_of_proceeds (h : b.Reachable) (hg : b.items.Grounded)
    (hrun : Relation.ReflTransGen Proceeds b b') :
    b'.items.Grounded ∧
    ∀ l b'' t, b'.revert l = .ok (b'', t) → ∀ m,
      (m ∈ b''.items.descendants l ↔ b''.items.RestsOn m l) ∧
      (m ∈ b''.items.descendants l → ∃ i, b''.items.get? m = some i ∧ i.status = .todo) := by
  have hinv : b'.Sound ∧ b'.items.Grounded := by
    induction hrun with
    | refl => exact ⟨h.sound, hg⟩
    | tail _ hstep ih => exact ⟨hstep.sound ih.1, hstep.grounded ih.1 ih.2⟩
  obtain ⟨hb, hg'⟩ := hinv
  refine ⟨hg', fun l b'' t hrev m => ⟨mem_descendants, fun hm => ?_⟩⟩
  obtain ⟨c, hc, rfl⟩ := exists_items_of_revert hrev
  exact (hg'.revert hb.catalog hc).exists_todo_of_restsOn (mem_descendants.mp hm)
    (isDone_of_revert hc)

/-- The middle one of three items over a done one is started and put back, another one is added on top,
and then the done one is reverted. -/
theorem Reachable.grounded_of_proceeds_chain :
    let item (l : String) (uses : LabelSet) : Item :=
      { label := l, kind := .lem, uses, attempts := ⟨0, 3⟩ }
    let b := (∅ : Blueprint).run [.upsertBatch [item "a" ∅, item "b" {"a"}, item "c" {"b"}],
      .advance "a" .underway 1, .advance "a" .done 1]
    let b₁ := b.after (.advance "b" .underway 0)
    let b₂ := b₁.after (.upsert (item "d" {"c"}))
    let b₃ := b₂.after (.advance "b" .todo 1)
    let b₄ := b₃.after (.revert "a")
    b.Reachable ∧ b.items.Grounded ∧ b₁.items.Grounded ∧
    (b₁.items.get? "b").map (·.status) = some .underway ∧
    b₄.items.descendants "a" = .ofList ["b", "c", "d"] ∧
    ∃ i, b₄.items.get? "d" = some i ∧ i.status = .todo := by
  intro item b b₁ b₂ b₃ b₄
  have hb : b.Reachable := Reachable.empty.run _
  have hg : b.items.Grounded := by
    have hall : ∀ i ∈ b.items.toList, i.status ≠ .todo →
        ∀ l ∈ i.uses.toList, b.items.isDone l = true := by decide +kernel
    exact hall
  have hclaim : Proceeds b b₁ := by
    have he : b.items.eligible = [item "b" {"a"}] := by decide +kernel
    have hok : b.advance "b" .underway 0 =
        .ok (b₁, ⟨"b", .todo, .underway, .underway, ⟨0, 3⟩⟩) := by decide +kernel
    exact .claim he hok
  have hadd : Proceeds b₁ b₂ := by
    have hnew : ∀ i ∈ [item "d" {"c"}], b₁.items.contains i.label = false := by decide +kernel
    have hok : b₁.upsertBatch [item "d" {"c"}] = .ok b₂ := by decide +kernel
    exact .add hnew hok
  have hback : Proceeds b₂ b₃ := by
    have hok : b₂.advance "b" .todo 1 =
        .ok (b₃, ⟨"b", .underway, .todo, .todo, ⟨1, 3⟩⟩) := by decide +kernel
    exact .advance hok
  have hrev : b₃.revert "a" = .ok (b₄, ⟨"a", .done, .todo, .todo, ⟨2, 3⟩⟩) := by decide +kernel
  have hrun : Relation.ReflTransGen Proceeds b b₁ := .single hclaim
  obtain ⟨-, hreverted⟩ := hb.grounded_of_proceeds hg ((hrun.tail hadd).tail hback)
  have hdesc : b₄.items.descendants "a" = .ofList ["b", "c", "d"] := by decide +kernel
  refine ⟨hb, hg, (hb.grounded_of_proceeds hg hrun).1, by decide +kernel, hdesc, ?_⟩
  refine (hreverted "a" b₄ _ hrev "d").2 ?_
  rw [hdesc, ← SortedBy.mem_toList]
  decide +kernel

end ProofTracker.Blueprint
