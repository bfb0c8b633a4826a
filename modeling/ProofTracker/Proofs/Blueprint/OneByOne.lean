import ProofTracker.Proofs.Blueprint.History
import ProofTracker.Proofs.Blueprint.Batch

/-! # Items put in one by one

Items with different labels that are taken one after the other are taken as a batch too. To put an item
in changes what is found under its own label only, so those behind it go on with the same progress
(`resumed_of_upsert`) and are merged into the same catalog (`merge_cons_of_upsert`). A batch that is
taken behind an item is therefore taken together with it (`exists_upsertBatch_cons`); the catalog that
the batch is checked for is the one that the last single step has been checked for. New labels get to
the end of the order either way (`order_of_upserts`). A batch can do more than single steps, as its
items may use others that stand behind them. -/

namespace ProofTracker.Blueprint

variable {b b₁ b' : Blueprint} {batch : List Item} {i j : Item} {l : String}

/-! ### An item in front of a batch -/

theorem get?_of_upsert (h : b.upsert i = .ok b₁) (hl : l ≠ i.label) :
    b₁.items.get? l = b.items.get? l := by
  rw [items_of_upsertBatch h]
  exact get?_merge_of_notMem (by simpa using hl)

theorem resumed_of_upsert (h : b.upsert i = .ok b₁) (hj : j.label ≠ i.label) :
    b₁.resumed j = b.resumed j := by
  unfold resumed
  rw [get?_of_upsert h hj]

theorem label_ne_of_mem (hi : i.label ∉ batch.map Item.label) (hj : j ∈ batch) :
    j.label ≠ i.label := fun he => hi (he ▸ List.mem_map_of_mem hj)

theorem merge_cons_of_upsert (h : b.upsert i = .ok b₁) (hi : i.label ∉ batch.map Item.label) :
    b.merge ((i :: batch).map b.resumed) = b₁.merge (batch.map b₁.resumed) := by
  have hitems : b₁.items = b.merge [b.resumed i] := items_of_upsertBatch h
  have hbatch : batch.map b₁.resumed = batch.map b.resumed :=
    List.map_congr_left fun j hj => resumed_of_upsert h (label_ne_of_mem hi hj)
  unfold merge at hitems ⊢
  rw [hbatch, hitems]
  rfl

/-- A batch that is taken behind an item is taken together with it. -/
theorem exists_upsertBatch_cons (h : b.upsert i = .ok b₁) (hi : i.label ∉ batch.map Item.label)
    (hbatch : b₁.upsertBatch batch = .ok b') :
    ∃ b'', b.upsertBatch (i :: batch) = .ok b'' ∧ b''.items = b'.items := by
  obtain ⟨htodo₁, hadm₁, -⟩ := exists_upsertBatch_eq_ok_iff.mp ⟨b₁, h⟩
  obtain ⟨htodo, hadm, hsound⟩ := exists_upsertBatch_eq_ok_iff.mp ⟨b', hbatch⟩
  have hmerge := merge_cons_of_upsert h hi
  obtain ⟨b'', hb''⟩ : ∃ b'', b.upsertBatch (i :: batch) = .ok b'' := by
    rw [exists_upsertBatch_eq_ok_iff, hmerge]
    refine ⟨fun j hj => ?_, fun j hj => ?_, hsound⟩
    · rcases List.mem_cons.mp hj with rfl | hj
      · exact htodo₁ j List.mem_cons_self
      · rw [← get?_of_upsert h (label_ne_of_mem hi hj)]
        exact htodo j hj
    · rcases List.mem_cons.mp hj with rfl | hj
      · exact hadm₁ j List.mem_cons_self
      · rw [← resumed_of_upsert h (label_ne_of_mem hi hj)]
        exact hadm j hj
  refine ⟨b'', hb'', ?_⟩
  rw [items_of_upsertBatch hb'', hmerge, items_of_upsertBatch hbatch]

/-! ### The order -/

/-- A batch of new items gets to the end of the order. -/
theorem order_of_upsertBatch (hd : (batch.map Item.label).Nodup)
    (hnew : ∀ i ∈ batch, b.items.get? i.label = none) (h : b.upsertBatch batch = .ok b') :
    b'.order = b.order ++ batch.map Item.label := by
  obtain ⟨-, hput⟩ := upsertBatch_eq_ok_iff.mp h
  obtain ⟨-, -, rfl⟩ := put_eq_ok_iff.mp hput
  have hunknown : ∀ l ∈ batch.map Item.label, b.items.contains l = false := by
    rw [List.forall_mem_map]
    exact fun i hi => SortedBy.contains_eq_false_iff.mpr (hnew i hi)
  have hanchor : b.anchor? (batch.map b.resumed) = none := by
    unfold anchor?
    rw [map_label_resumed, List.find?_eq_none]
    exact fun l hl => by simp [hunknown l hl]
  have hlabels : b.newLabels (batch.map b.resumed) = batch.map Item.label := by
    unfold newLabels
    rw [map_label_resumed, List.filter_eq_self.mpr fun l hl => by simp [hunknown l hl]]
    exact eraseDups_of_nodup hd
  rw [hanchor, hlabels, place_none]

theorem order_of_upsert (hi : b.items.get? i.label = none) (h : b.upsert i = .ok b₁) :
    b₁.order = b.order ++ [i.label] := by
  have h : b.upsertBatch [i] = .ok b₁ := h
  exact order_of_upsertBatch (by simp) (by simpa using hi) h

theorem order_of_upserts (hd : (batch.map Item.label).Nodup)
    (hnew : ∀ i ∈ batch, b.items.get? i.label = none) (h : batch.foldlM upsert b = .ok b') :
    b'.order = b.order ++ batch.map Item.label := by
  induction batch generalizing b with
  | nil =>
    rw [List.foldlM_nil, pure_eq_ok_iff] at h
    rw [h, List.map_nil, List.append_nil]
  | cons i batch ih =>
    obtain ⟨hi, hd⟩ := List.nodup_cons.mp hd
    rw [List.foldlM_cons, bind_eq_ok_iff] at h
    obtain ⟨b₁, h₁, h⟩ := h
    have hnew₁ : ∀ j ∈ batch, b₁.items.get? j.label = none := fun j hj => by
      rw [get?_of_upsert h₁ (label_ne_of_mem hi hj)]
      exact hnew j (List.mem_cons_of_mem _ hj)
    rw [ih hd hnew₁ h, order_of_upsert (hnew i List.mem_cons_self) h₁, List.append_assoc]
    rfl

/-! ### One by one and together -/

theorem Sound.exists_upsertBatch_of_upserts (hb : b.Sound) (hd : (batch.map Item.label).Nodup)
    (h : batch.foldlM upsert b = .ok b') :
    ∃ b'', b.upsertBatch batch = .ok b'' ∧ b''.items = b'.items := by
  induction batch generalizing b with
  | nil =>
    rw [List.foldlM_nil, pure_eq_ok_iff] at h
    obtain ⟨b'', hb''⟩ : ∃ b'', b.upsertBatch [] = .ok b'' :=
      exists_upsertBatch_eq_ok_iff.mpr ⟨by simp, by simp, hb.catalog⟩
    exact ⟨b'', hb'', by rw [items_of_upsertBatch hb'', ← h]; rfl⟩
  | cons i batch ih =>
    obtain ⟨hi, hd⟩ := List.nodup_cons.mp hd
    rw [List.foldlM_cons, bind_eq_ok_iff] at h
    obtain ⟨b₁, h₁, h⟩ := h
    obtain ⟨b₂, hbatch, hitems⟩ := ih (hb.upsertBatch h₁) hd h
    obtain ⟨b'', hb'', hsame⟩ := exists_upsertBatch_cons h₁ hi hbatch
    exact ⟨b'', hb'', hsame.trans hitems⟩

/-- **Items that are taken one by one are taken together**, if their labels differ. The items of the
blueprint are the same either way, and so is its order if all of them are new. -/
theorem Reachable.upsertBatch_of_upserts (h : b.Reachable) (hd : (batch.map Item.label).Nodup)
    (hone : batch.foldlM upsert b = .ok b') :
    ∃ b'', b.upsertBatch batch = .ok b'' ∧ b''.items = b'.items ∧
      ((∀ i ∈ batch, b.items.get? i.label = none) → b''.order = b'.order) := by
  obtain ⟨b'', hb'', hitems⟩ := h.sound.exists_upsertBatch_of_upserts hd hone
  refine ⟨b'', hb'', hitems, fun hnew => ?_⟩
  rw [order_of_upsertBatch hd hnew hb'', order_of_upserts hd hnew hone]

/-- A stored item that has been started comes between two new ones, so that these stand elsewhere in the
order. With new items only the order is the same. -/
theorem Reachable.upsertBatch_of_upserts_between :
    let item (l : String) (uses : LabelSet) : Item :=
      { label := l, kind := .lem, uses, attempts := ⟨0, 3⟩ }
    let b := (∅ : Blueprint).run [.upsertBatch [item "a" ∅, item "c" {"a"}],
      .advance "a" .underway 0, .advance "a" .done 0, .advance "c" .underway 1]
    let n := { item "n" {"a"} with statement := " x " }
    let c := { item "c" (.ofList ["a", "n"]) with status := .done, attempts := ⟨9, 3⟩ }
    let m := item "m" {"n"}
    let b₁ := b.run [.upsert n, .upsert c, .upsert m]
    let b₂ := b.run [.upsert n, .upsert m]
    b.Reachable ∧ [n, c, m].foldlM upsert b = .ok b₁ ∧ b₁.order = ["a", "c", "n", "m"] ∧
    (∃ b', b.upsertBatch [n, c, m] = .ok b' ∧ b'.items = b₁.items ∧
      b'.order = ["a", "n", "m", "c"]) ∧
    [n, m].foldlM upsert b = .ok b₂ ∧
    ∃ b', b.upsertBatch [n, m] = .ok b' ∧ b'.items = b₂.items ∧ b'.order = b₂.order := by
  intro item b n c m b₁ b₂
  have hb : b.Reachable := Reachable.empty.run _
  have h₁ : [n, c, m].foldlM upsert b = .ok b₁ := by decide +kernel
  have h₂ : [n, m].foldlM upsert b = .ok b₂ := by decide +kernel
  have hbatch : b.upsertBatch [n, c, m] = .ok { b₁ with order := ["a", "n", "m", "c"] } := by
    decide +kernel
  have hnew : ∀ i ∈ [n, m], b.items.get? i.label = none := by decide +kernel
  refine ⟨hb, h₁, by decide +kernel, ?_, h₂, ?_⟩
  · obtain ⟨b', hb', hitems, -⟩ := hb.upsertBatch_of_upserts (by decide +kernel) h₁
    refine ⟨b', hb', hitems, ?_⟩
    obtain rfl := Except.ok.inj (hb'.symm.trans hbatch)
    rfl
  · obtain ⟨b', hb', hitems, horder⟩ := hb.upsertBatch_of_upserts (by decide +kernel) h₂
    exact ⟨b', hb', hitems, horder hnew⟩

-- An item that uses one behind it is taken with it, but not before it.
example :
    let i : Item := { label := "a", kind := .thm, uses := {"b"}, attempts := ⟨0, 1⟩ }
    let j : Item := { label := "b", kind := .lem, attempts := ⟨0, 1⟩ }
    ((∅ : Blueprint).upsertBatch [i, j]).isOk = true ∧
      [i, j].foldlM upsert ∅ = .error (.notFound "b") := by
  decide +kernel

end ProofTracker.Blueprint
