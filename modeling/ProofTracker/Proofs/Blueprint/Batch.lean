import ProofTracker.Proofs.Blueprint.Progress
import ProofTracker.Proofs.Catalog.Between
import ProofTracker.Proofs.Document.Line

/-! # What a batch makes of a blueprint

Items of a batch with stored labels go on with the stored progress (`resumed`). With this progress
the batch is put in as it is, provided that its new items are to be done (`upsertBatch_eq_ok_iff`).
The merged catalog has under a label the last item of the batch with this label, or else the stored
one (`get?_merge_resumed`). The new labels stand together in front of the first label that is stored
already, or at the end (`Sound.order_of_put`). So it is known when a reachable blueprint takes a
batch, and what it is then (`Reachable.upsertBatch_correct`). One that is refused for a cycle is told
what lies between the cycles of the merged items (`mem_cycle_of_upsertBatch`). -/

namespace ProofTracker

open Document

variable {i j : Item}

/-- What is asked of an item for itself can be seen before it is brought to normal form. -/
theorem Item.admissible_normalize_iff : i.normalize.Admissible ↔
    Label.Valid i.label ∧ i.attempts.current ≤ i.attempts.budget ∧
      ∀ x ∈ normalLocation i.location, '\n' ∉ x.toList ∧ '\r' ∉ x.toList := by
  constructor
  · exact fun h => ⟨h.label, h.budget, h.oneLine⟩
  · rintro ⟨hl, hb, hx⟩
    obtain ⟨hloc, hs, hp⟩ := normalize_eq_self_iff.mp i.normalize_normalize
    exact ⟨hl, hb, hs, hp, hloc, hx⟩

namespace Blueprint

variable {b b' : Blueprint} {batch : List Item} {l : String}

/-- The item with the progress of the stored item with its label, if there is one. -/
def resumed (b : Blueprint) (i : Item) : Item :=
  match b.items.get? i.label with
  | some stored => { i with status := stored.status, attempts := stored.attempts }
  | none => i

@[simp] theorem label_resumed (b : Blueprint) (i : Item) : (b.resumed i).label = i.label := by
  unfold resumed
  cases b.items.get? i.label <;> rfl

@[simp] theorem location_resumed (b : Blueprint) (i : Item) :
    (b.resumed i).location = i.location := by
  unfold resumed
  cases b.items.get? i.label <;> rfl

theorem map_label_resumed (b : Blueprint) (batch : List Item) :
    (batch.map b.resumed).map Item.label = batch.map Item.label := by
  simp [Function.comp_def]

theorem keepProgress_eq_ok_iff_resumed : b.keepProgress i = .ok j ↔
    b.resumed i = j ∧ (b.items.get? i.label = none → i.status = .todo) := by
  unfold keepProgress resumed
  cases b.items.get? i.label with
  | some stored => simp
  | none => by_cases h : i.status = .todo <;> simp [h]

theorem upsertBatch_eq_ok_iff : b.upsertBatch batch = .ok b' ↔
    (∀ i ∈ batch, b.items.get? i.label = none → i.status = .todo) ∧
      b.put (batch.map b.resumed) = .ok b' := by
  unfold upsertBatch
  simp only [bind_eq_ok_iff,
    mapM_eq_ok_iff_map fun i j => keepProgress_eq_ok_iff_resumed (b := b) (i := i) (j := j)]
  constructor
  · rintro ⟨is, ⟨rfl, htodo⟩, hput⟩; exact ⟨htodo, hput⟩
  · rintro ⟨htodo, hput⟩; exact ⟨_, ⟨rfl, htodo⟩, hput⟩

/-! ### The merged catalog -/

theorem items_of_upsertBatch (h : b.upsertBatch batch = .ok b') :
    b'.items = b.merge (batch.map b.resumed) := by
  obtain ⟨-, hput⟩ := upsertBatch_eq_ok_iff.mp h
  obtain ⟨-, -, rfl⟩ := put_eq_ok_iff.mp hput
  rfl

/-- Of several items of the batch with one label the last one counts. -/
theorem get?_merge_resumed (b : Blueprint) (batch : List Item) (l : String) :
    (b.merge (batch.map b.resumed)).get? l = match batch.reverse.find? (·.label = l) with
      | some i => some (b.resumed i).normalize
      | none => b.items.get? l := by
  have hfind : ((batch.map b.resumed).map Item.normalize).reverse.find? (·.label = l) =
      (batch.reverse.find? (·.label = l)).map (b.resumed · |>.normalize) := by
    rw [List.map_map, ← List.map_reverse, List.find?_map]
    congr 2
    funext i
    exact congrArg (decide <| · = l) (b.label_resumed i)
  unfold merge
  rw [SortedBy.get?_foldl_insert, hfind]
  cases batch.reverse.find? (·.label = l) <;> rfl

/-! ### The order -/

theorem place_none (order new : List String) : place order none new = order ++ new := by
  unfold place
  rw [List.takeWhile_eq_self_iff.mpr (by simp), List.dropWhile_eq_nil_iff.mpr (by simp),
    List.append_nil]

/-- **The new labels stand together**, in the order of the batch, in front of the first label of the
batch that is stored already, or at the end if none is. -/
theorem Sound.order_of_put (hb : b.Sound) (h : b.put batch = .ok b') :
    let labels := batch.map Item.label
    ∃ new, (∀ l, l ∈ new ↔ l ∈ labels ∧ b.items.get? l = none) ∧
      (new.Pairwise fun l m => labels.idxOf l < labels.idxOf m) ∧
      (((∀ l ∈ labels, b.items.get? l = none) ∧ b'.order = b.order ++ new) ∨
        ∃ before l after front rest, labels = before ++ l :: after ∧
          (∀ m ∈ before, b.items.get? m = none) ∧
          b.order = front ++ l :: rest ∧ b'.order = front ++ new ++ l :: rest) := by
  intro labels
  obtain ⟨-, -, rfl⟩ := put_eq_ok_iff.mp h
  have hnew : ∀ l, l ∈ b.newLabels batch ↔ l ∈ labels ∧ b.items.get? l = none := fun l => by
    rw [mem_newLabels, SortedBy.contains_eq_false_iff]
  refine ⟨b.newLabels batch, hnew, pairwise_idxOf_eraseDups _ _, ?_⟩
  cases ha : b.anchor? batch with
  | none =>
    refine Or.inl ⟨fun l hl => ?_, place_none _ _⟩
    have hl := List.find?_eq_none.mp ha l hl
    exact SortedBy.contains_eq_false_iff.mp (Bool.not_eq_true _ ▸ hl)
  | some l =>
    obtain ⟨hl, before, after, hlabels, hbefore⟩ := List.find?_eq_some_iff_append.mp ha
    obtain ⟨front, rest, horder, hplace⟩ := exists_place_eq ((hb.mem_order l).mpr hl)
      (b.newLabels batch)
    refine Or.inr ⟨before, l, after, front, rest, hlabels, fun m hm => ?_, horder, hplace⟩
    exact SortedBy.contains_eq_false_iff.mp (Bool.not_eq_true' _ ▸ hbefore m hm)

/-! ### When a batch is taken -/

theorem exists_upsertBatch_eq_ok_iff : (∃ b', b.upsertBatch batch = .ok b') ↔
    (∀ i ∈ batch, b.items.get? i.label = none → i.status = .todo) ∧
      (∀ i ∈ batch, (b.resumed i).normalize.Admissible) ∧
      (b.merge (batch.map b.resumed)).Sound := by
  simp only [upsertBatch_eq_ok_iff, put_eq_ok_iff, List.forall_mem_map]
  constructor
  · rintro ⟨b', htodo, hadm, hsound, -⟩; exact ⟨htodo, hadm, hsound⟩
  · rintro ⟨htodo, hadm, hsound⟩; exact ⟨_, htodo, hadm, hsound, rfl⟩

open Document Text in
/-- **A reachable blueprint takes a batch iff** its new items are to be done, its labels are valid,
its items have, with the stored progress, no more attempts than their budget and a location on one
line, and in the merged catalog everything used is there, nothing rests on itself and done items use
done ones only. Then the blueprint has the merged items, which are those of the batch in normal form
and otherwise the stored ones, and the new labels stand together in its order. -/
theorem Reachable.upsertBatch_correct (h : b.Reachable) (batch : List Item) :
    let labels := batch.map Item.label
    ∃ c : Catalog,
      (∀ l, c.get? l = match batch.reverse.find? (·.label = l) with
        | some i => some (b.resumed i).normalize
        | none => b.items.get? l) ∧
      ((∃ b', b.upsertBatch batch = .ok b') ↔
        (∀ i ∈ batch, b.items.get? i.label = none → i.status = .todo) ∧
        (∀ l ∈ labels, l ≠ "" ∧
          ∀ c ∈ l.toList, isBlank c = false ∧ c ≠ '[' ∧ c ≠ ']' ∧ c ≠ ',') ∧
        (∀ i ∈ batch, (b.resumed i).attempts.current ≤ (b.resumed i).attempts.budget ∧
          ∀ x ∈ normalLocation i.location, '\n' ∉ x.toList ∧ '\r' ∉ x.toList) ∧
        (∀ i ∈ c, ∀ l ∈ i.uses, ∃ j, c.get? l = some j) ∧
        (∀ l, ¬ Relation.TransGen c.Uses l l) ∧
        (∀ i ∈ c, i.status = .done → ∀ l ∈ i.uses, ∃ j, c.get? l = some j ∧ j.status = .done)) ∧
      ∀ b', b.upsertBatch batch = .ok b' → b'.items = c ∧
        ∃ new, (∀ l, l ∈ new ↔ l ∈ labels ∧ b.items.get? l = none) ∧
          (new.Pairwise fun l m => labels.idxOf l < labels.idxOf m) ∧
          (((∀ l ∈ labels, b.items.get? l = none) ∧ b'.order = b.order ++ new) ∨
            ∃ before l after front rest, labels = before ++ l :: after ∧
              (∀ m ∈ before, b.items.get? m = none) ∧
              b.order = front ++ l :: rest ∧ b'.order = front ++ new ++ l :: rest) := by
  intro labels
  refine ⟨b.merge (batch.map b.resumed), b.get?_merge_resumed batch, ?_, fun b' hb' => ?_⟩
  · rw [exists_upsertBatch_eq_ok_iff, Catalog.sound_iff_get?]
    simp only [Item.admissible_normalize_iff, label_resumed, location_resumed, Label.valid_iff,
      labels, List.forall_mem_map, forall_and, and_assoc]
  · obtain ⟨-, hput⟩ := upsertBatch_eq_ok_iff.mp hb'
    have horder := h.sound.order_of_put hput
    rw [map_label_resumed] at horder
    obtain ⟨-, -, rfl⟩ := put_eq_ok_iff.mp hput
    exact ⟨rfl, horder⟩

/-- A batch that has a new item twice, in front of a stored one that has been started: the later
version counts, at the place of the first, and the stored item keeps its progress. -/
theorem Reachable.upsertBatch_correct_mixed :
    let a : Item := { label := "a", kind := .lem, attempts := ⟨0, 3⟩ }
    let n : Item := { label := "n", kind := .lem, uses := {"a"}, attempts := ⟨0, 2⟩ }
    let m : Item := { label := "m", kind := .thm, attempts := ⟨0, 1⟩ }
    let b := ((∅ : Blueprint).after (.upsert a)).after (.advance "a" .underway 1)
    let batch := [n, { a with statement := "x" }, { n with uses := {"m"} }, m]
    ∃ b', b.upsertBatch batch = .ok b' ∧ b'.order = ["n", "m", "a"] ∧
      b'.items.get? "n" = some { n with uses := {"m"} } ∧
      b'.items.get? "a" =
        some { a with status := .underway, attempts := ⟨1, 3⟩, statement := "x" } := by
  intro a n m b batch
  have hb : b.Reachable := .after _ (.after _ .empty)
  obtain ⟨c, hget, -, hok⟩ := hb.upsertBatch_correct batch
  let b' : Blueprint := ⟨b.merge (batch.map b.resumed), ["n", "m", "a"]⟩
  have hb' : b.upsertBatch batch = .ok b' := by decide +kernel
  refine ⟨b', hb', rfl, ?_⟩
  rw [(hok b' hb').1, hget "n", hget "a"]
  decide +kernel

/-! ### Batches with cycles -/

/-- **A batch that is refused for a cycle** is told the labels between cycles of the merged items. -/
theorem mem_cycle_of_upsertBatch {ls : List String}
    (h : b.upsertBatch batch = .error (.cycle ls)) (l : String) :
    l ∈ ls ↔ (b.merge (batch.map b.resumed)).Between l := by
  rcases bind_eq_error_iff.mp h with h | ⟨is, his, h⟩
  · -- Keeping the progress of items is not refused for a cycle.
    obtain ⟨i, -, hi⟩ := exists_of_mapM_eq_error h
    unfold keepProgress at hi
    split at hi
    · cases hi
    · split_ifs at hi
      cases hi
  · obtain ⟨rfl, -⟩ := (mapM_eq_ok_iff_map fun i j =>
      keepProgress_eq_ok_iff_resumed (b := b) (i := i) (j := j)).mp his
    exact Catalog.mem_cycle_iff (linearOrder_of_put h)

end Blueprint

end ProofTracker
