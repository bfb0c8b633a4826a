import ProofTracker.Proofs.Catalog.Cycle
import ProofTracker.Proofs.Catalog.Queue

/-! # The report on cycles as a loop

When the queue is empty and items are left over, a second loop works on the set of their labels. A
round looks up the items, and goes on with those of the labels that one of the items uses, unless
these are as many as before. What is left always belongs to items, so every look-up succeeds, and
every round that does not end the loop makes the set smaller (`peelRound_shrinks`). The rounds drop
what `peel` drops (`exists_rounds_peel`). Both loops together come to the answer of `linearOrder`,
and neither of them stops for any other reason than that it has finished (`linearOrder_rounds`). -/

namespace ProofTracker.Catalog

/-- Those of the labels that an item with one of the labels uses. -/
def needed (c : Catalog) (stuck : LabelSet) : Except Halt LabelSet := do
  let items ← stuck.toList.mapM c.item
  return .ofList ((items.flatMap (·.uses.toList)).filter stuck.contains)

/-- A round: labels that are not needed are dropped. The loop ends when there are none. -/
def peelRound (c : Catalog) (stuck : LabelSet) : Except Halt LabelSet := do
  let needed ← c.needed stuck
  if needed.size = stuck.size then throw .finished
  return needed

/-- The labels of all items but those that have been placed. -/
def leftOver (c : Catalog) (ordered : List Item) : LabelSet :=
  let placed : LabelSet := .ofList (ordered.map Item.label)
  c.keys.filter (!placed.contains ·)

variable {c : Catalog} {i j : Item} {is order stuck : List Item} {s : LabelSet} {l : String}

/-! ### One round -/

theorem pairwise_labels (h : is.Sublist c.toList) : (is.map Item.label).Pairwise (· < ·) :=
  List.pairwise_map.mpr (c.sorted.sublist h)

theorem size_eq_length (hs : s.toList = is.map Item.label) : s.size = is.length := by
  unfold SortedBy.size
  rw [hs, List.length_map]

/-- The labels that are needed are those of the used items. -/
theorem exists_needed (h : is.Sublist c.toList) (hs : s.toList = is.map Item.label) :
    ∃ t, c.needed s = .ok t ∧ t.toList = (used is).map Item.label := by
  have hitems : s.toList.mapM c.item = .ok is := by
    rw [hs, mapM_eq_ok_iff, List.forall₂_map_left_iff, List.forall₂_same]
    exact fun i hi => item_of_mem (h.subset hi)
  refine ⟨_, by unfold needed; rw [hitems]; rfl,
    SortedBy.toList_eq_of_mem_iff (pairwise_labels ((used_sublist is).trans h)) fun l => ?_⟩
  rw [SortedBy.mem_ofList_labels, List.mem_filter, List.mem_flatMap, SortedBy.contains_label_iff,
    ← SortedBy.mem_toList, hs, List.mem_map, List.mem_map]
  constructor
  · rintro ⟨⟨j, hj, hu⟩, i, hi, rfl⟩
    exact ⟨i, mem_used.mpr ⟨hi, j, hj, hu⟩, rfl⟩
  · rintro ⟨i, hi, rfl⟩
    obtain ⟨hi, j, hj, hu⟩ := mem_used.mp hi
    exact ⟨⟨j, hj, hu⟩, i, hi, rfl⟩

/-- A round goes on with the used items if they are fewer, and ends the loop if not. -/
theorem peelRound_spec (h : is.Sublist c.toList) (hs : s.toList = is.map Item.label) :
    if (used is).length < is.length then
      ∃ t, c.peelRound s = .ok t ∧ t.toList = (used is).map Item.label
    else c.peelRound s = .error .finished := by
  obtain ⟨t, ht, htl⟩ := exists_needed h hs
  have hsize := size_eq_length hs
  have htsize := size_eq_length htl
  have hle := (used_sublist is).length_le
  unfold peelRound
  rw [ht]
  split_ifs with hlt
  · refine ⟨t, ?_, htl⟩
    simp only [bind, Except.bind]
    rw [if_neg (by omega)]
    rfl
  · simp only [bind, Except.bind]
    rw [if_pos (by omega)]
    rfl

/-- Labels that belong to items are those of some of them, in their order. -/
theorem exists_sublist (h : ∀ l ∈ s, c.contains l = true) :
    ∃ is : List Item, is.Sublist c.toList ∧ s.toList = is.map Item.label := by
  have hsub : (c.toList.filter fun i => s.contains i.label).Sublist c.toList := List.filter_sublist
  refine ⟨_, hsub, SortedBy.toList_eq_of_mem_iff (pairwise_labels hsub) fun l => ?_⟩
  rw [List.mem_map]
  constructor
  · intro hl
    obtain ⟨i, hi, rfl⟩ := SortedBy.contains_iff.mp (h l hl)
    exact ⟨i, List.mem_filter.mpr ⟨hi, SortedBy.contains_label_iff.mpr hl⟩, rfl⟩
  · rintro ⟨i, hi, rfl⟩
    exact SortedBy.contains_label_iff.mp (List.mem_filter.mp hi).2

/-- **A round ends the loop or makes the set smaller**: every label is looked up with success. -/
theorem peelRound_shrinks (h : ∀ l ∈ s, c.contains l = true) :
    c.peelRound s = .error .finished ∨
      ∃ t, c.peelRound s = .ok t ∧ (∀ l ∈ t, l ∈ s) ∧ t.size < s.size := by
  obtain ⟨is, hsub, hs⟩ := exists_sublist h
  have hspec := peelRound_spec hsub hs
  split_ifs at hspec with hlt
  · obtain ⟨t, ht, htl⟩ := hspec
    refine Or.inr ⟨t, ht, fun l hl => ?_, ?_⟩
    · rw [← SortedBy.mem_toList, hs]
      rw [← SortedBy.mem_toList, htl] at hl
      exact ((used_sublist is).map _).subset hl
    · rwa [size_eq_length htl, size_eq_length hs]
  · exact Or.inl hspec

/-! ### All rounds -/

/-- The loop ends with the labels of what `peel` leaves. -/
theorem exists_rounds_peel (h : is.Sublist c.toList) (hs : s.toList = is.map Item.label) :
    ∃ n t, n + t.size ≤ s.size ∧ rounds c.peelRound n s = .ok t ∧
      c.peelRound t = .error .finished ∧ t.toList = (peel is).map Item.label := by
  induction is using peel.induct generalizing s with
  | case1 is hlt ih =>
    have hspec := peelRound_spec h hs
    rw [if_pos hlt] at hspec
    obtain ⟨t, ht, htl⟩ := hspec
    obtain ⟨n, t', hle, hrun, hend, ht'⟩ := ih ((used_sublist is).trans h) htl
    have hsize : t.size < s.size := by rwa [size_eq_length htl, size_eq_length hs]
    refine ⟨n + 1, t', by omega, ?_, hend, by rw [peel, if_pos hlt]; exact ht'⟩
    rw [rounds, ht]
    exact hrun
  | case2 is hlt =>
    have hspec := peelRound_spec h hs
    rw [if_neg hlt] at hspec
    exact ⟨0, s, by omega, rfl, hspec, by rw [peel, if_neg hlt]; exact hs⟩

theorem toList_leftOver (h : stuck.Sublist c.toList) (hp : (order ++ stuck).Perm c.toList) :
    (c.leftOver order).toList = stuck.map Item.label := by
  have hlabels := hp.map Item.label
  rw [List.map_append] at hlabels
  have hdisjoint := List.disjoint_of_nodup_append (hlabels.nodup_iff.mpr c.nodup_labels)
  refine SortedBy.toList_eq_of_mem_iff (pairwise_labels h) fun l => ?_
  have hleft : l ∈ c.leftOver order ↔ l ∈ c.toList.map Item.label ∧ l ∉ order.map Item.label := by
    show l ∈ (c.toList.map Item.label).filter _ ↔ _
    rw [List.mem_filter, Bool.not_eq_true', ← Bool.not_eq_true, SortedBy.contains_label_iff,
      SortedBy.mem_ofList_labels]
  rw [hleft, ← hlabels.mem_iff, List.mem_append]
  constructor
  · rintro ⟨hl, hnot⟩
    exact hl.resolve_left hnot
  · exact fun hl => ⟨Or.inr hl, fun ho => hdisjoint ho hl⟩

/-- **Placing by numbers and a queue.** The loop makes one round for each item it places, at most
one for each item there is, and then it has finished. It stops for no other reason, however many
rounds are asked for: no number is lowered that is zero, and no label is looked up that no item has.
Each label is put into the queue at most once. If all items have been placed, they are so in linear
order. If not, the labels of the others are dropped round by round, each round but the last makes
the set of them smaller, and those that are left are complained about. -/
theorem linearOrder_rounds (c : Catalog) :
    ∃ s : Queue, rounds (Queue.round c c.tables.users) s.ordered.length (.start c.tables) = .ok s ∧
      s.round c c.tables.users = .error .finished ∧ s.ordered.length ≤ c.size ∧
      s.entered.Nodup ∧ (∀ l ∈ s.entered, c.contains l = true) ∧
      (∀ n h, rounds (Queue.round c c.tables.users) n (.start c.tables) = .error h →
        h = .finished) ∧
      (s.ordered.length = c.size → c.linearOrder = .ok s.ordered) ∧
      (∀ stuck : LabelSet, (∀ l ∈ stuck, c.contains l = true) →
        c.peelRound stuck = .error .finished ∨
          ∃ rest, c.peelRound stuck = .ok rest ∧ (∀ l ∈ rest, l ∈ stuck) ∧
            rest.size < stuck.size) ∧
      (s.ordered.length < c.size → (∀ l ∈ c.leftOver s.ordered, c.contains l = true) ∧
        ∃ n rest, n + rest.size ≤ (c.leftOver s.ordered).size ∧
          rounds c.peelRound n (c.leftOver s.ordered) = .ok rest ∧
          c.peelRound rest = .error .finished ∧
          c.linearOrder = .error (.cycle rest.toList)) := by
  obtain ⟨order, stuck, s, hrun, hend, ho, hp, hs⟩ := (running_start c).exists_rounds
  obtain rfl : s.ordered = order := ho
  have hplace : place c.waiting = (s.ordered, stuck) := by
    rw [waiting_eq_ofItems]
    exact hp.place_eq c.nodup_labels
  have hlength : s.ordered.length + stuck.length = c.size := by
    rw [← List.length_append]
    exact hs.perm.length_eq
  have hleft := toList_leftOver hs.sublist hs.perm
  refine ⟨s, hrun, hend, by omega, hs.nodup, fun l hl => ?_,
    fun n h hn => eq_of_rounds_eq_error hrun hend hn, fun hall => ?_,
    fun stuck => peelRound_shrinks, fun hless => ⟨fun l hl => ?_, ?_⟩⟩
  · obtain ⟨i, hi, rfl, -⟩ := hs.exists_of_entered hl
    exact SortedBy.contains_of_mem hi
  · obtain rfl : stuck = [] := List.eq_nil_of_length_eq_zero (by omega)
    exact linearOrder_eq_ok_iff.mpr (by simp [hplace])
  · rw [← SortedBy.mem_toList, hleft] at hl
    obtain ⟨i, hi, rfl⟩ := List.mem_map.mp hl
    exact SortedBy.contains_of_mem (hs.mem_of_mem hi)
  · have hne : stuck ≠ [] := List.ne_nil_of_length_pos (by omega)
    obtain ⟨n, rest, hle, hpeel, hstop, hrest⟩ := exists_rounds_peel hs.sublist hleft
    refine ⟨n, rest, hle, hpeel, hstop, linearOrder_eq_error_iff.mpr ?_⟩
    rw [hplace, hrest]
    exact ⟨hne, rfl⟩

/-- An item that uses itself, one that uses a label without an item, and one that rests on both. -/
example :
    let item (l : String) (uses : LabelSet) : Item :=
      { label := l, kind := .lem, uses, attempts := .fresh 1 }
    let c : Catalog := .ofList
      [item "a" {"a"}, item "b" {"ghost"}, item "c" (.ofList ["a", "b"])]
    (do
      let s ← rounds (Queue.round c c.tables.users) 1 (.start c.tables)
      let rest ← c.peelRound (c.leftOver s.ordered)
      return (s.entered, rest.toList) : Except Halt _) = .ok (["b"], ["a"]) := by decide +kernel

end ProofTracker.Catalog
