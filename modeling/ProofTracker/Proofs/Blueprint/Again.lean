import ProofTracker.Proofs.Blueprint.Batch
import ProofTracker.Proofs.Blueprint.History

/-! # A batch that is offered again

Moving and reopening items leaves everything but their progress alone (`SameTexts.run`). A batch that has
been taken is there from then on, in normal form, and an item of it that is offered again takes over
whatever progress the stored one has made in the meantime (`normalize_resumed`). So the merged catalog
is the stored one and there are no new labels: the batch is taken again and changes nothing
(`Reachable.upsertBatch_again`). -/

namespace ProofTracker

/-- The item with another progress. -/
def Item.withProgress (i : Item) (s : Status) (a : Attempts) : Item :=
  { i with status := s, attempts := a }

namespace Blueprint

open Catalog

variable {b b₁ b₂ : Blueprint} {batch : List Item} {i : Item} {k : Call} {ks : List Call} {l : String}
  {s : Status} {a : Attempts}

/-! ### Moves -/

/-- The call moves or reopens an item. -/
def Call.IsMove : Call → Prop
  | .advance .. | .revert .. => True
  | .upsert .. | .upsertBatch .. | .split .. => False

/-- The second blueprint lists the items of the first one in the same order, with whatever
progress. -/
structure SameTexts (b b' : Blueprint) : Prop where
  order : b'.order = b.order
  stored : ∀ l i, b.items.get? l = some i →
    ∃ s a, b'.items.get? l = some (i.withProgress s a)
  new : ∀ l, b.items.get? l = none → b'.items.get? l = none

theorem SameTexts.refl (b : Blueprint) : SameTexts b b where
  order := rfl
  stored _ i hi := ⟨i.status, i.attempts, hi⟩
  new _ hl := hl

theorem SameTexts.trans (h : SameTexts b b₁) (h' : SameTexts b₁ b₂) : SameTexts b b₂ where
  order := h'.order.trans h.order
  stored l i hi := by
    obtain ⟨s, a, hi⟩ := h.stored l i hi
    obtain ⟨s', a', hi⟩ := h'.stored l _ hi
    exact ⟨s', a', hi⟩
  new l hl := h'.new l (h.new l hl)

/-- To change the progress of one item is a move. -/
theorem sameTexts_insert (hi : b.items.get? l = some i) (s : Status) (a : Attempts) :
    SameTexts b { b with items := b.items.insert (i.withProgress s a) } := by
  have hkey := SortedBy.key_eq_of_get?_eq_some hi
  refine ⟨rfl, fun m j hj => ?_, fun m hm => ?_⟩
  · rw [SortedBy.get?_insert]
    split_ifs with hml
    · obtain rfl : j = i := Option.some.inj (hj.symm.trans (hml.symm.trans hkey ▸ hi))
      exact ⟨s, a, rfl⟩
    · exact ⟨j.status, j.attempts, hj⟩
  · rw [SortedBy.get?_insert_of_ne _, hm]
    intro hml
    have hml : m = l := hml.symm.trans hkey
    rw [hml, hi] at hm
    cases hm

theorem SameTexts.after (b : Blueprint) (hk : k.IsMove) : SameTexts b (b.after k) := by
  rcases after_cases b k with hok | hsame
  · cases k with
    | advance l requested delta =>
      obtain ⟨t, h⟩ := map_fst_eq_ok_iff.mp hok
      obtain ⟨c, hadv, hafter⟩ := exists_items_of_advance h
      obtain ⟨i, hi, -, -, -, rfl⟩ := Catalog.advance_eq_ok_iff.mp hadv
      rw [hafter]
      exact sameTexts_insert hi _ _
    | revert l =>
      obtain ⟨t, h⟩ := map_fst_eq_ok_iff.mp hok
      obtain ⟨c, hrev, hafter⟩ := exists_items_of_revert h
      obtain ⟨i, hi, -, -, -, rfl⟩ := Catalog.revert_eq_ok_iff.mp hrev
      rw [hafter]
      exact sameTexts_insert hi _ _
    | upsert i => cases hk
    | upsertBatch batch => cases hk
    | split l steps n => cases hk
  · rw [hsame]
    exact .refl b

/-- **Moves leave everything but the progress of items alone.** -/
theorem SameTexts.run (b : Blueprint) (hks : ∀ k ∈ ks, k.IsMove) : SameTexts b (b.run ks) := by
  induction ks generalizing b with
  | nil => exact .refl b
  | cons k ks ih =>
    obtain ⟨hk, hks⟩ := List.forall_mem_cons.mp hks
    exact (SameTexts.after b hk).trans (ih (b.after k) hks)

theorem Sound.run (hb : b.Sound) (ks : List Call) : (b.run ks).Sound := by
  induction ks generalizing b with
  | nil => exact hb
  | cons k ks ih => exact ih (hb.after k)

/-! ### The same batch again -/

/-- An item that is stored is resumed as it is stored, when it is offered again. -/
theorem normalize_resumed
    (h : b₂.items.get? i.label = some ((b.resumed i).normalize.withProgress s a)) :
    (b₂.resumed i).normalize = (b.resumed i).normalize.withProgress s a := by
  unfold resumed at h ⊢
  rw [h]
  cases b.items.get? i.label <;> rfl

/-- The batch is stored once it has been taken, whatever moves have followed. -/
theorem exists_get?_of_same (h : b.upsertBatch batch = .ok b₁) (hm : SameTexts b₁ b₂)
    (hl : batch.reverse.find? (·.label = l) = some i) :
    ∃ s a, b₂.items.get? l = some ((b.resumed i).normalize.withProgress s a) := by
  refine hm.stored l _ ?_
  rw [items_of_upsertBatch h, get?_merge_resumed, hl]

theorem exists_get?_label_of_same (h : b.upsertBatch batch = .ok b₁) (hm : SameTexts b₁ b₂)
    (hi : i ∈ batch) : ∃ j, b₂.items.get? i.label = some j := by
  have hsome : (batch.reverse.find? (·.label = i.label)).isSome := by
    rw [List.find?_isSome]
    exact ⟨i, List.mem_reverse.mpr hi, by simp⟩
  obtain ⟨j, hj⟩ := Option.isSome_iff_exists.mp hsome
  obtain ⟨s, a, hget⟩ := exists_get?_of_same h hm hj
  exact ⟨_, hget⟩

theorem merge_resumed_of_same (h : b.upsertBatch batch = .ok b₁) (hm : SameTexts b₁ b₂) :
    b₂.merge (batch.map b₂.resumed) = b₂.items := by
  refine SortedBy.ext_get? fun l => ?_
  rw [get?_merge_resumed]
  cases hl : batch.reverse.find? (·.label = l) with
  | none => rfl
  | some i =>
    obtain ⟨s, a, hget⟩ := exists_get?_of_same h hm hl
    obtain rfl : i.label = l := by simpa using List.find?_some hl
    rw [hget]
    exact congrArg some (normalize_resumed hget)

/-- An item of the batch keeps its label and its location, and has the stored attempts. -/
theorem Sound.admissible_resumed (hb : b₂.Sound) (h : b.upsertBatch batch = .ok b₁)
    (hm : SameTexts b₁ b₂) (hi : i ∈ batch) : (b₂.resumed i).normalize.Admissible := by
  have hfirst := (exists_upsertBatch_eq_ok_iff.mp ⟨b₁, h⟩).2.1 i hi
  obtain ⟨stored, hstored⟩ := exists_get?_label_of_same h hm hi
  have hattempts : (b₂.resumed i).attempts = stored.attempts := by
    unfold resumed
    rw [hstored]
  rw [Item.admissible_normalize_iff, label_resumed, location_resumed] at hfirst ⊢
  refine ⟨hfirst.1, ?_, hfirst.2.2⟩
  rw [hattempts]
  exact (hb.admissible stored (SortedBy.mem_of_get?_eq_some hstored)).budget

theorem place_nil (order : List String) (anchor : Option String) : place order anchor [] = order := by
  unfold place
  rw [List.append_nil, List.takeWhile_append_dropWhile]

theorem Sound.upsertBatch_of_same (hb : b₂.Sound) (h : b.upsertBatch batch = .ok b₁)
    (hm : SameTexts b₁ b₂) : b₂.upsertBatch batch = .ok b₂ := by
  have hknown : ∀ l ∈ batch.map Item.label, b₂.items.contains l = true := by
    refine List.forall_mem_map.mpr fun i hi => ?_
    obtain ⟨j, hj⟩ := exists_get?_label_of_same h hm hi
    exact SortedBy.contains_of_get?_eq_some hj
  have hnew : b₂.newLabels (batch.map b₂.resumed) = [] := by
    unfold newLabels
    rw [map_label_resumed, List.filter_eq_nil_iff.mpr fun l hl => by simp [hknown l hl]]
    rfl
  refine upsertBatch_eq_ok_iff.mpr ⟨fun i hi hnone => ?_, put_eq_ok_iff.mpr ⟨?_, ?_, ?_⟩⟩
  · obtain ⟨j, hj⟩ := exists_get?_label_of_same h hm hi
    rw [hj] at hnone
    cases hnone
  · exact List.forall_mem_map.mpr fun i hi => hb.admissible_resumed h hm hi
  · rw [merge_resumed_of_same h hm]
    exact hb.catalog
  · rw [merge_resumed_of_same h hm, hnew, place_nil]

/-- **A batch that has been taken is taken again and changes nothing**, whatever moves have been made
in the meantime, those that failed included: the items keep their texts and their progress, and the
order stays. -/
theorem Reachable.upsertBatch_again (hb : b.Reachable) (h : b.upsertBatch batch = .ok b₁)
    (hks : ∀ k ∈ ks, k.IsMove) : (b₁.run ks).upsertBatch batch = .ok (b₁.run ks) :=
  ((hb.sound.upsertBatch h).run ks).upsertBatch_of_same h (.run b₁ hks)

/-- A batch with an item twice and with one that has been started. Afterwards this one is finished and
reopened, one is finished and one started, and two moves fail. -/
theorem Reachable.upsertBatch_again_moved :
    let a : Item := { label := "a", kind := .lem, attempts := ⟨0, 3⟩ }
    let n : Item := { label := "n", kind := .lem, attempts := ⟨0, 2⟩, statement := " x" }
    let m : Item := { label := "m", kind := .thm, attempts := ⟨0, 1⟩ }
    let b := (∅ : Blueprint).run [.upsert a, .advance "a" .underway 1]
    let batch := [n, { a with statement := "y " }, { n with uses := {"m"}, statement := "z" }, m]
    let b₁ := b.run [.upsertBatch batch]
    let ks : List Call := [.advance "a" .done 1, .advance "n" .done 0, .advance "m" .underway 0,
      .advance "m" .done 0, .advance "n" .underway 1, .revert "m", .revert "a"]
    b.upsertBatch batch = .ok b₁ ∧ (∀ k ∈ ks, k.IsMove) ∧
    (b₁.run ks).list = [
      { n with uses := {"m"}, statement := "z", status := .underway, attempts := ⟨1, 2⟩ },
      { m with status := .done }, { a with statement := "y", attempts := ⟨2, 3⟩ }] ∧
    (b₁.run ks).upsertBatch batch = .ok (b₁.run ks) := by
  intro a n m b batch b₁ ks
  have hb : b.Reachable := Reachable.empty.run _
  have h : b.upsertBatch batch = .ok b₁ := by decide +kernel
  have hks : ∀ k ∈ ks, k.IsMove := by simp [ks, Call.IsMove]
  exact ⟨h, hks, by decide +kernel, hb.upsertBatch_again h hks⟩

end Blueprint

end ProofTracker
