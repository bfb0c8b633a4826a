import ProofTracker.Proofs.Blueprint.Split

/-! # What a call does to the progress of items

A call changes the status and the attempts of a stored item only if it moves, reopens or splits this
very item (`exists_progress`): whatever comes with a batch, a stored item keeps its own progress, and
the labels of the steps of a split are new. What a call adds is to be done (`status_of_new`). Neither
asks more of the blueprint than that items stand under their labels. -/

namespace ProofTracker.Blueprint

open Catalog

variable {b b' : Blueprint} {k : Call} {i j : Item} {l : String} {batch is : List Item}

/-! ### One call -/

/-- What a call does to the progress of a stored item with the label `l`. -/
inductive Progress (l : String) : Call → Item → Item → Prop
  | kept {k : Call} {i j : Item} (status : j.status = i.status)
      (attempts : j.attempts = i.attempts) : Progress l k i j
  | moved {i j : Item} {requested : Status} {delta : UInt32}
      (legal : i.status.mayBecome requested)
      (status : j.status = (i.attempts.record delta).settle requested)
      (attempts : j.attempts = i.attempts.record delta) :
      Progress l (.advance l requested delta) i j
  | reopened {i j : Item} (done : i.status = .done) (status : j.status = .todo)
      (attempts : j.attempts = i.attempts) : Progress l (.revert l) i j
  | restarted {i j : Item} {steps : List Step} {n : UInt32} (undone : i.status ≠ .done)
      (status : j.status = .todo) (attempts : j.attempts = .fresh i.attempts.budget) :
      Progress l (.split l steps n) i j

theorem Progress.refl (l : String) (k : Call) (i : Item) : Progress l k i i := .kept rfl rfl

/-- An item keeps its progress, or is new and to be done. -/
theorem keepProgress_eq_ok_iff : b.keepProgress i = .ok j ↔
    (∃ stored, b.items.get? i.label = some stored ∧
      j = { i with status := stored.status, attempts := stored.attempts }) ∨
    b.items.get? i.label = none ∧ i.status = .todo ∧ j = i := by
  unfold keepProgress
  cases b.items.get? i.label with
  | some stored => simp [eq_comm]
  | none => by_cases h : i.status = .todo <;> simp [h, eq_comm]

/-- The items that a batch puts in have its labels. They keep their progress, or are new and to be
done. -/
theorem exists_put_of_upsertBatch (h : b.upsertBatch batch = .ok b') :
    ∃ is, b.put is = .ok b' ∧ ∀ j ∈ is, (∃ i ∈ batch, i.label = j.label) ∧
      ((∃ stored, b.items.get? j.label = some stored ∧ j.status = stored.status ∧
          j.attempts = stored.attempts) ∨
        b.items.get? j.label = none ∧ j.status = .todo) := by
  obtain ⟨is, his, hput⟩ := bind_eq_ok_iff.mp h
  refine ⟨is, hput, fun j hj => ?_⟩
  obtain ⟨i, hi, hij⟩ := exists_of_mem_mapM his hj
  rcases keepProgress_eq_ok_iff.mp hij with ⟨stored, hstored, rfl⟩ | ⟨hnone, htodo, rfl⟩
  · exact ⟨⟨i, hi, rfl⟩, Or.inl ⟨stored, hstored, rfl, rfl⟩⟩
  · exact ⟨⟨j, hi, rfl⟩, Or.inr ⟨hnone, htodo⟩⟩

/-- The items that a split puts in are to be done. One takes the place of the target, the others are
new. -/
theorem exists_put_of_split {target : String} {steps : List Step} {n : UInt32} {labels : List String}
    (h : b.split target steps n = .ok (b', labels)) :
    ∃ is, b.put is = .ok b' ∧ ∀ j ∈ is, j.status = .todo ∧
      ((j.label = target ∧ ∃ t, b.items.get? target = some t ∧ t.status ≠ .done ∧
          j.attempts = .fresh t.attempts.budget) ∨
        b.items.get? j.label = none) := by
  obtain ⟨is, hplan, hput⟩ := exists_batch_of_split h
  obtain ⟨t, ht, -, htd, -, ls, hls, rfl⟩ := Catalog.split_eq_ok_iff.mp hplan
  refine ⟨_, hput, fun j hj => ?_⟩
  rcases mem_chain hj with ⟨u, rfl⟩ | ⟨p, hp, u, rfl⟩
  · have hkey : t.label = target := SortedBy.key_eq_of_get?_eq_some ht
    exact ⟨rfl, Or.inl ⟨hkey, t, ht, htd, rfl⟩⟩
  · -- The label of a step is new.
    have hnew := (labelled_of_stepLabels hls).new p.1 (List.of_mem_zip hp).1
    exact ⟨rfl, Or.inr (SortedBy.contains_eq_false_iff.mp hnew)⟩

/-- What a batch of items with the progress they have to have makes of an item. -/
theorem progress_of_put (h : b.put is = .ok b') (hi : b.items.get? l = some i)
    (his : ∀ j ∈ is, j.label = l → Progress l k i j.normalize) :
    ∃ j, b'.items.get? l = some j ∧ Progress l k i j := by
  obtain ⟨-, -, rfl⟩ := put_eq_ok_iff.mp h
  rcases get?_merge_cases b is l with ⟨j, hj, hl, hget⟩ | ⟨-, hget⟩
  · exact ⟨_, hget, his j hj hl⟩
  · exact ⟨i, hget.trans hi, .refl l k i⟩

theorem status_of_put (h : b.put is = .ok b') (hl : b.items.get? l = none)
    (his : ∀ j ∈ is, j.label = l → j.status = .todo) (hj : b'.items.get? l = some j) :
    j.status = .todo := by
  obtain ⟨-, -, rfl⟩ := put_eq_ok_iff.mp h
  rcases get?_merge_cases b is l with ⟨i, hi, hil, hget⟩ | ⟨-, hget⟩
  · obtain rfl := Option.some.inj (hget.symm.trans hj)
    exact his i hi hil
  · rw [hget.trans hl] at hj
    cases hj

theorem progress_of_upsertBatch (h : b.upsertBatch batch = .ok b')
    (hi : b.items.get? l = some i) : ∃ j, b'.items.get? l = some j ∧ Progress l k i j := by
  obtain ⟨is, hput, his⟩ := exists_put_of_upsertBatch h
  refine progress_of_put hput hi fun j hj hl => ?_
  rcases (his j hj).2 with ⟨stored, hstored, hs, ha⟩ | ⟨hnone, -⟩
  · rw [hl, hi] at hstored
    obtain rfl := Option.some.inj hstored
    exact .kept hs ha
  · rw [hl, hi] at hnone
    cases hnone

theorem status_of_upsertBatch (h : b.upsertBatch batch = .ok b') (hl : b.items.get? l = none)
    (hj : b'.items.get? l = some j) : j.status = .todo := by
  obtain ⟨is, hput, his⟩ := exists_put_of_upsertBatch h
  refine status_of_put hput hl (fun i hi hil => ?_) hj
  rcases (his i hi).2 with ⟨stored, hstored, -⟩ | ⟨-, htodo⟩
  · rw [hil, hl] at hstored
    cases hstored
  · exact htodo

/-- Only the target of a split has an item of the chain in its place. -/
theorem progress_of_split {target : String} {steps : List Step} {n : UInt32} {labels : List String}
    (h : b.split target steps n = .ok (b', labels)) (hi : b.items.get? l = some i) :
    ∃ j, b'.items.get? l = some j ∧ Progress l (.split target steps n) i j := by
  obtain ⟨is, hput, his⟩ := exists_put_of_split h
  refine progress_of_put hput hi fun j hj hl => ?_
  obtain ⟨hs, ⟨htarget, t, ht, htd, ha⟩ | hnone⟩ := his j hj
  · obtain rfl : target = l := htarget.symm.trans hl
    obtain rfl : t = i := Option.some.inj (ht.symm.trans hi)
    exact .restarted htd hs ha
  · rw [hl, hi] at hnone
    cases hnone

theorem status_of_split {target : String} {steps : List Step} {n : UInt32} {labels : List String}
    (h : b.split target steps n = .ok (b', labels)) (hl : b.items.get? l = none)
    (hj : b'.items.get? l = some j) : j.status = .todo := by
  obtain ⟨is, hput, his⟩ := exists_put_of_split h
  exact status_of_put hput hl (fun i hi _ => (his i hi).1) hj

/-- An item that is put in place of a stored one leaves the others alone. -/
theorem progress_of_insert {m : String} {x x' : Item} (hx : b.items.get? m = some x)
    (hx' : x'.label = x.label) (hm : m = l → Progress l k x x') (hi : b.items.get? l = some i) :
    ∃ j, SortedBy.get? (b.items.insert x') l = some j ∧ Progress l k i j := by
  have hkey : x'.label = m := hx'.trans (SortedBy.key_eq_of_get?_eq_some hx)
  by_cases hml : m = l
  · obtain rfl : x = i := Option.some.inj (hx.symm.trans (hml ▸ hi))
    refine ⟨x', ?_, hm hml⟩
    rw [SortedBy.get?_insert, if_pos (hkey.trans hml)]
  · refine ⟨i, ?_, .refl l k i⟩
    rw [SortedBy.get?_insert_of_ne (hkey ▸ hml), hi]

theorem ne_some_of_insert {m : String} {x x' : Item} (hx : b.items.get? m = some x)
    (hx' : x'.label = x.label) (hl : b.items.get? l = none) :
    SortedBy.get? (b.items.insert x') l ≠ some j := by
  intro hj
  have hc := SortedBy.contains_of_get?_eq_some hj
  rw [contains_insert_of_mem (SortedBy.mem_of_get?_eq_some hx) hx',
    SortedBy.contains_eq_false_iff.mpr hl] at hc
  cases hc

/-- **What a successful call does to a stored item.** -/
theorem exists_progress (h : k.carryOut b = .ok b') (hi : b.items.get? l = some i) :
    ∃ j, b'.items.get? l = some j ∧ Progress l k i j := by
  cases k with
  | upsert x => exact progress_of_upsertBatch h hi
  | upsertBatch batch => exact progress_of_upsertBatch h hi
  | advance m s n =>
    obtain ⟨t, h⟩ := map_fst_eq_ok_iff.mp h
    obtain ⟨c, hadv, rfl⟩ := exists_items_of_advance h
    obtain ⟨x, hx, hm, -, rfl, rfl⟩ := Catalog.advance_eq_ok_iff.mp hadv
    exact progress_of_insert hx rfl (by rintro rfl; exact .moved hm rfl rfl) hi
  | revert m =>
    obtain ⟨t, h⟩ := map_fst_eq_ok_iff.mp h
    obtain ⟨c, hrev, rfl⟩ := exists_items_of_revert h
    obtain ⟨x, hx, hd, -, rfl, rfl⟩ := Catalog.revert_eq_ok_iff.mp hrev
    exact progress_of_insert hx rfl (by rintro rfl; exact .reopened hd rfl rfl) hi
  | split m steps n =>
    obtain ⟨labels, h⟩ := map_fst_eq_ok_iff.mp h
    exact progress_of_split h hi

/-- **What a successful call adds is to be done.** -/
theorem status_of_new (h : k.carryOut b = .ok b') (hl : b.items.get? l = none)
    (hj : b'.items.get? l = some j) : j.status = .todo := by
  cases k with
  | upsert x => exact status_of_upsertBatch h hl hj
  | upsertBatch batch => exact status_of_upsertBatch h hl hj
  | advance m s n =>
    obtain ⟨t, h⟩ := map_fst_eq_ok_iff.mp h
    obtain ⟨c, hadv, rfl⟩ := exists_items_of_advance h
    obtain ⟨x, hx, -, -, rfl, rfl⟩ := Catalog.advance_eq_ok_iff.mp hadv
    exact absurd hj (ne_some_of_insert hx rfl hl)
  | revert m =>
    obtain ⟨t, h⟩ := map_fst_eq_ok_iff.mp h
    obtain ⟨c, hrev, rfl⟩ := exists_items_of_revert h
    obtain ⟨x, hx, -, -, rfl, rfl⟩ := Catalog.revert_eq_ok_iff.mp hrev
    exact absurd hj (ne_some_of_insert hx rfl hl)
  | split m steps n =>
    obtain ⟨labels, h⟩ := map_fst_eq_ok_iff.mp h
    exact status_of_split h hl hj

theorem order_sublist (h : k.carryOut b = .ok b') : b.order.Sublist b'.order := by
  have hput : ∀ {is : List Item}, b.put is = .ok b' → b.order.Sublist b'.order := by
    intro is h
    obtain ⟨-, -, rfl⟩ := put_eq_ok_iff.mp h
    exact sublist_place _ _ _
  cases k with
  | upsert x =>
    obtain ⟨is, -, h⟩ := bind_eq_ok_iff.mp h
    exact hput h
  | upsertBatch batch =>
    obtain ⟨is, -, h⟩ := bind_eq_ok_iff.mp h
    exact hput h
  | advance m s n =>
    obtain ⟨t, h⟩ := map_fst_eq_ok_iff.mp h
    obtain ⟨c, -, rfl⟩ := exists_items_of_advance h
    exact .refl _
  | revert m =>
    obtain ⟨t, h⟩ := map_fst_eq_ok_iff.mp h
    obtain ⟨c, -, rfl⟩ := exists_items_of_revert h
    exact .refl _
  | split m steps n =>
    obtain ⟨labels, h⟩ := map_fst_eq_ok_iff.mp h
    obtain ⟨is, -, h⟩ := exists_batch_of_split h
    exact hput h

/-! ### What a call does to status and attempts -/

/-- The ways in which a call gives the item with the label `l` another status. -/
inductive Turns (l : String) (i : Item) : Call → Status → Prop
  | start {n : UInt32} (h : i.status = .todo) : Turns l i (.advance l .underway n) .underway
  | startExhausted {n : UInt32} (h : i.status = .todo) (ha : (i.attempts.record n).exhausted) :
      Turns l i (.advance l .underway n) .hard
  | finish {n : UInt32} (h : i.status = .underway) : Turns l i (.advance l .done n) .done
  | giveUp {requested : Status} {n : UInt32} (h : i.status = .underway)
      (ha : requested = .hard ∨ requested ≠ .done ∧ (i.attempts.record n).exhausted) :
      Turns l i (.advance l requested n) .hard
  | putBack {n : UInt32} (h : i.status = .underway) : Turns l i (.advance l .todo n) .todo
  | reopen (h : i.status = .done) : Turns l i (.revert l) .todo
  | restart {steps : List Step} {n : UInt32}
      (h : i.status = .todo ∨ i.status = .underway ∨ i.status = .hard) :
      Turns l i (.split l steps n) .todo

theorem turns_of_mayBecome {requested : Status} {n : UInt32} (hm : i.status.mayBecome requested)
    (hs : j.status = (i.attempts.record n).settle requested) :
    j.status = i.status ∨ Turns l i (.advance l requested n) j.status := by
  have hcases := settle_cases (i.attempts.record n) requested
  rw [← hs] at hcases
  cases hi : i.status with
  | todo =>
    rw [hi] at hm
    obtain rfl := Status.eq_underway_of_mayBecome hm
    rcases hcases with h | ⟨h, hex, -⟩
    · rw [h]; exact Or.inr (.start hi)
    · rw [h]; exact Or.inr (.startExhausted hi hex)
  | underway =>
    rcases hcases with h | ⟨h, hex, hne⟩
    · rw [h]
      cases requested with
      | todo => exact Or.inr (.putBack hi)
      | underway => exact Or.inl rfl
      | done => exact Or.inr (.finish hi)
      | hard => exact Or.inr (.giveUp hi (Or.inl rfl))
    · rw [h]; exact Or.inr (.giveUp hi (Or.inr ⟨hne, hex⟩))
  | done => rw [hi] at hm; cases hm
  | hard => rw [hi] at hm; cases hm

theorem Progress.turns (h : Progress l k i j) : j.status = i.status ∨ Turns l i k j.status := by
  cases h with
  | kept hs _ => exact Or.inl hs
  | moved hm hs _ => exact turns_of_mayBecome hm hs
  | reopened hd hs _ => rw [hs]; exact Or.inr (.reopen hd)
  | restarted hne hs _ =>
    rw [hs]
    refine Or.inr (.restart ?_)
    cases hi : i.status with
    | todo => exact Or.inl rfl
    | underway => exact Or.inr (Or.inl rfl)
    | done => exact absurd hi hne
    | hard => exact Or.inr (Or.inr rfl)

theorem Progress.budget (h : Progress l k i j) : j.attempts.budget = i.attempts.budget := by
  cases h with
  | kept _ ha => rw [ha]
  | moved _ _ ha => rw [ha, Attempts.budget_record]
  | reopened _ _ ha => rw [ha]
  | restarted _ _ ha => rw [ha]; rfl

/-- Attempts within the budget only grow, unless the item is split. -/
theorem Progress.current (h : Progress l k i j)
    (hi : i.attempts.current ≤ i.attempts.budget) : i.attempts.current ≤ j.attempts.current ∨
      (∃ steps n, k = .split l steps n) ∧ j.attempts.current = 0 := by
  cases h with
  | kept _ ha => rw [ha]; exact Or.inl UInt32.le_rfl
  | @moved _ _ requested delta _ _ ha =>
    have hcur := Attempts.toNat_current_record i.attempts delta
    rw [UInt32.le_iff_toNat_le] at hi
    rw [ha, UInt32.le_iff_toNat_le, hcur]
    exact Or.inl (by omega)
  | reopened _ _ ha => rw [ha]; exact Or.inl UInt32.le_rfl
  | restarted _ _ ha => exact Or.inr ⟨⟨_, _, rfl⟩, by rw [ha]; rfl⟩

theorem Progress.attempts_lt (h : Progress l k i j)
    (hi : i.status = .underway → i.attempts.current < i.attempts.budget)
    (hj : j.status = .underway) : j.attempts.current < j.attempts.budget := by
  cases h with
  | kept hs ha => rw [ha]; exact hi (hs ▸ hj)
  | moved _ hs ha => rw [ha]; exact lt_of_settle_eq_underway (hs ▸ hj)
  | reopened _ hs _ => rw [hs] at hj; cases hj
  | restarted _ hs _ => rw [hs] at hj; cases hj

theorem Turns.eq_revert {s : Status} (h : Turns l i k s) (hi : i.status = .done) :
    k = .revert l := by
  cases h with
  | reopen _ => rfl
  | restart h => rw [hi] at h; simp at h
  | _ h => rw [hi] at h; cases h

theorem Turns.eq_split {s : Status} (h : Turns l i k s) (hi : i.status = .hard) :
    ∃ steps n, k = .split l steps n := by
  cases h with
  | restart _ => exact ⟨_, _, rfl⟩
  | _ h => rw [hi] at h; cases h

end ProofTracker.Blueprint
