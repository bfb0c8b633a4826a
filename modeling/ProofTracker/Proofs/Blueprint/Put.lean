import Mathlib.Data.List.Nodup
import ProofTracker.Blueprint.Change
import ProofTracker.Proofs.Catalog.Sound
import ProofTracker.Proofs.Document.Normal

/-! # Putting items into a blueprint

A batch is put in iff each of its items is admissible in normal form and the merged catalog is sound
(`put_eq_ok_iff`). The order keeps the old labels and gains the new ones (`mem_place`), each once
(`nodup_place`) and as the batch has them (`pairwise_idxOf_eraseDups`). -/

namespace ProofTracker

open Document

variable {i j : Item}

/-! ### Admissible items -/

/-- What a blueprint demands of an item for itself. -/
structure Item.Admissible (i : Item) : Prop where
  label : Label.Valid i.label
  budget : i.attempts.current ≤ i.attempts.budget
  statement : normalText i.statement.toList = i.statement.toList
  proof : normalText i.proof.toList = i.proof.toList
  location : normalLocation i.location = i.location
  oneLine : ∀ x ∈ i.location, '\n' ∉ x.toList ∧ '\r' ∉ x.toList

theorem Item.Admissible.normalize (h : i.Admissible) : i.normalize = i :=
  Item.normalize_eq_self_iff.mpr ⟨h.location, h.statement, h.proof⟩

/-- An item is accepted iff its normal form is admissible. -/
theorem Item.accept_eq_ok_iff : i.accept = .ok j ↔ i.normalize = j ∧ i.normalize.Admissible := by
  have hline : ¬ i.normalize.location.any (·.toList.any fun c => c = '\n' || c = '\r') = true ↔
      ∀ x ∈ i.normalize.location, '\n' ∉ x.toList ∧ '\r' ∉ x.toList := by
    cases i.normalize.location with
    | none => simp
    | some x =>
      simp only [Option.any_some, List.any_eq_true, Bool.or_eq_true, decide_eq_true_eq, not_exists,
        not_and, not_or, Option.mem_some, forall_eq']
      exact ⟨fun h => ⟨fun hc => (h _ hc).1 rfl, fun hc => (h _ hc).2 rfl⟩,
        fun h c hc => ⟨fun he => h.1 (he ▸ hc), fun he => h.2 (he ▸ hc)⟩⟩
  unfold accept
  simp only [unless_throw_eq_ok_iff, if_throw_eq_ok_iff, pure_eq_ok_iff, hline, UInt32.not_lt]
  constructor
  · rintro ⟨hl, hb, hx, rfl⟩
    obtain ⟨h1, h2, h3⟩ := normalize_eq_self_iff.mp i.normalize_normalize
    exact ⟨rfl, hl, hb, h2, h3, h1, hx⟩
  · rintro ⟨rfl, h⟩
    exact ⟨h.label, h.budget, h.oneLine, rfl⟩

theorem Item.accept_ne_cycle (i : Item) (ls : List String) : i.accept ≠ .error (.cycle ls) := by
  unfold accept
  simp [unless_throw_eq_error_iff, if_throw_eq_error_iff, pure, Except.pure]

namespace Blueprint

/-! ### The order -/

variable {ls order new : List String} {anchor : Option String} {a l : String}

theorem pairwise_idxOf_cons (ha : a ∉ new)
    (h : new.Pairwise fun l m => ls.idxOf l < ls.idxOf m) :
    new.Pairwise fun l m => (a :: ls).idxOf l < (a :: ls).idxOf m := by
  refine h.imp_of_mem fun {l m} hl hm hlm => ?_
  have hla : a ≠ l := fun h => ha (h ▸ hl)
  have hma : a ≠ m := fun h => ha (h ▸ hm)
  rw [List.idxOf_cons_ne _ hla, List.idxOf_cons_ne _ hma]
  omega

/-- Members of a list, each taken once, come in the order of their first places in the list. -/
theorem pairwise_idxOf_eraseDups (p : String → Bool) (ls : List String) :
    (ls.filter p).eraseDups.Pairwise fun l m => ls.idxOf l < ls.idxOf m := by
  induction ls generalizing p with
  | nil => exact .nil
  | cons a ls ih =>
    by_cases ha : p a = true
    · have hrest : ∀ m ∈ ((ls.filter p).filter (!· == a)).eraseDups, m ≠ a := by
        intro m hm
        rw [List.mem_eraseDups, List.mem_filter] at hm
        simpa using hm.2
      rw [List.filter_cons_of_pos ha, List.eraseDups_cons]
      refine List.pairwise_cons.mpr ⟨fun m hm => ?_, ?_⟩
      · rw [List.idxOf_cons_self, List.idxOf_cons_ne _ (hrest m hm).symm]
        omega
      · refine pairwise_idxOf_cons (fun h => hrest a h rfl) ?_
        rw [List.filter_filter]
        exact ih _
    · rw [List.filter_cons_of_neg ha]
      refine pairwise_idxOf_cons (fun h => ?_) (ih p)
      rw [List.mem_eraseDups, List.mem_filter] at h
      exact ha h.2

theorem nodup_eraseDups (ls : List String) : ls.eraseDups.Nodup := by
  have h := pairwise_idxOf_eraseDups (fun _ => true) ls
  rw [List.filter_true] at h
  refine h.imp ?_
  rintro l _ hlt rfl
  exact Nat.lt_irrefl _ hlt

theorem eraseDups_of_nodup {ls : List String} (h : ls.Nodup) : ls.eraseDups = ls := by
  induction ls with
  | nil => rfl
  | cons l ls ih =>
    obtain ⟨hl, h⟩ := List.nodup_cons.mp h
    have hf : (ls.filter fun m => !m == l) = ls := by
      rw [List.filter_eq_self]
      intro m hm
      simpa using fun he : m = l => hl (he ▸ hm)
    rw [List.eraseDups_cons, hf, ih h]

theorem place_perm (order : List String) (anchor : Option String) (new : List String) :
    (place order anchor new).Perm (order ++ new) := by
  unfold place
  have h := List.takeWhile_append_dropWhile (p := (some · ≠ anchor)) (l := order)
  conv_rhs => rw [← h]
  rw [List.append_assoc, List.append_assoc]
  exact List.perm_append_comm.append_left _

/-- New labels are put right in front of the anchor. -/
theorem exists_place_eq (h : l ∈ order) (new : List String) : ∃ front rest,
    order = front ++ l :: rest ∧ place order (some l) new = front ++ new ++ l :: rest := by
  obtain ⟨front, rest, rfl, hl⟩ := List.eq_append_cons_of_mem h
  have hfront : ∀ m ∈ front, (decide (some m ≠ some l)) = true := by
    intro m hm
    rw [decide_eq_true_eq, ne_eq, Option.some.injEq]
    rintro rfl
    exact hl hm
  refine ⟨front, rest, rfl, ?_⟩
  unfold place
  rw [List.takeWhile_append_of_pos hfront, List.dropWhile_append_of_pos hfront]
  simp

theorem sublist_place (order : List String) (anchor : Option String) (new : List String) :
    order.Sublist (place order anchor new) := by
  have h := List.takeWhile_append_dropWhile (p := (some · ≠ anchor)) (l := order)
  have hsub := (List.sublist_append_left (order.takeWhile (some · ≠ anchor)) new).append
    (List.Sublist.refl (order.dropWhile (some · ≠ anchor)))
  rwa [h] at hsub

theorem mem_place : l ∈ place order anchor new ↔ l ∈ order ∨ l ∈ new := by
  rw [(place_perm order anchor new).mem_iff, List.mem_append]

theorem nodup_place (ho : order.Nodup) (hn : new.Nodup) (hd : ∀ l ∈ new, l ∉ order) :
    (place order anchor new).Nodup := by
  rw [(place_perm order anchor new).nodup_iff, List.nodup_append]
  refine ⟨ho, hn, ?_⟩
  rintro a ha b hb rfl
  exact hd a hb ha

/-! ### The batch -/

variable {b b' : Blueprint} {batch : List Item}

/-- The items of the blueprint after those of the batch have been put in. -/
def merge (b : Blueprint) (batch : List Item) : Catalog :=
  (batch.map Item.normalize).foldl SortedBy.insert b.items

/-- The new labels of the batch, each once. -/
def newLabels (b : Blueprint) (batch : List Item) : List String :=
  ((batch.map Item.label).filter (!b.items.contains ·)).eraseDups

/-- The first label of the batch that the blueprint has already. -/
def anchor? (b : Blueprint) (batch : List Item) : Option String :=
  (batch.map Item.label).find? b.items.contains

theorem map_label_normalize (batch : List Item) :
    (batch.map Item.normalize).map Item.label = batch.map Item.label := by
  rw [List.map_map]
  rfl

/-- **A batch is put in iff its items are admissible in normal form and the merged catalog is
sound.** -/
theorem put_eq_ok_iff : b.put batch = .ok b' ↔
    (∀ i ∈ batch, i.normalize.Admissible) ∧ (b.merge batch).Sound ∧
      b' = ⟨b.merge batch, place b.order (b.anchor? batch) (b.newLabels batch)⟩ := by
  have hlabels := map_label_normalize batch
  unfold put
  simp only [bind_eq_ok_iff, pure_eq_ok_iff,
    mapM_eq_ok_iff_map fun i j => Item.accept_eq_ok_iff (i := i) (j := j)]
  constructor
  · rintro ⟨is, ⟨rfl, ha⟩, ⟨⟩, hc, rfl⟩
    rw [hlabels]
    exact ⟨ha, Catalog.check_eq_ok_iff.mp hc, rfl⟩
  · rintro ⟨ha, hc, rfl⟩
    refine ⟨_, ⟨rfl, ha⟩, (), Catalog.check_eq_ok_iff.mpr hc, ?_⟩
    rw [hlabels]
    rfl

/-- A batch with a cycle is refused for what the merged catalog is like. -/
theorem linearOrder_of_put {ls : List String} (h : b.put batch = .error (.cycle ls)) :
    (b.merge batch).linearOrder = .error (.cycle ls) := by
  rcases bind_eq_error_iff.mp h with h | ⟨is, his, h⟩
  · obtain ⟨i, -, hi⟩ := exists_of_mapM_eq_error h
    exact absurd hi (i.accept_ne_cycle ls)
  · obtain ⟨rfl, -⟩ :=
      (mapM_eq_ok_iff_map fun i j => Item.accept_eq_ok_iff (i := i) (j := j)).mp his
    rcases bind_eq_error_iff.mp h with h | ⟨_, -, h⟩
    · exact Catalog.linearOrder_of_check h
    · cases h

theorem contains_merge : (b.merge batch).contains l = true ↔
    l ∈ batch.map Item.label ∨ b.items.contains l = true := by
  unfold merge
  rw [SortedBy.contains_foldl_insert, map_label_normalize]

theorem mem_merge (h : i ∈ b.merge batch) : (∃ j ∈ batch, j.normalize = i) ∨ i ∈ b.items := by
  rcases SortedBy.mem_or_mem_of_mem_foldl_insert h with h | h
  · exact Or.inl (List.mem_map.mp h)
  · exact Or.inr h

theorem get?_merge_of_mem (hd : (batch.map Item.label).Nodup) (hi : i ∈ batch) :
    (b.merge batch).get? i.label = some i.normalize :=
  SortedBy.get?_foldl_insert_of_mem (by rwa [map_label_normalize]) (List.mem_map_of_mem hi) b.items

theorem get?_merge_of_notMem (h : l ∉ batch.map Item.label) :
    (b.merge batch).get? l = b.items.get? l :=
  SortedBy.get?_foldl_insert_of_notMem (by rwa [map_label_normalize]) b.items

/-- What is found after a batch has been put in is one of its items, or what was found before. -/
theorem get?_merge_cases (b : Blueprint) (batch : List Item) (l : String) :
    (∃ i ∈ batch, i.label = l ∧ (b.merge batch).get? l = some i.normalize) ∨
      l ∉ batch.map Item.label ∧ (b.merge batch).get? l = b.items.get? l := by
  have hcases := SortedBy.get?_foldl_insert_cases (batch.map Item.normalize) b.items l
  rw [map_label_normalize] at hcases
  rcases hcases with ⟨j, hj, hl, hget⟩ | h
  · obtain ⟨i, hi, rfl⟩ := List.mem_map.mp hj
    exact Or.inl ⟨i, hi, hl, hget⟩
  · exact Or.inr h

theorem mem_newLabels :
    l ∈ b.newLabels batch ↔ l ∈ batch.map Item.label ∧ b.items.contains l = false := by
  unfold newLabels
  rw [List.mem_eraseDups, List.mem_filter, Bool.not_eq_true']

end Blueprint

end ProofTracker
