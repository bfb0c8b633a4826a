import Mathlib.Data.List.Pairwise
import Mathlib.Data.List.Perm.Subperm
import Mathlib.Tactic.SplitIfs
import ProofTracker.Sorted

/-! # Sorted collections: members and look-ups

A collection is determined by its look-ups (`ext_get?`), and the look-up of a key finds the one
member that has it (`get?_eq_some_iff`). Putting members in one after the other keeps, of several
with one key, the last one (`get?_foldl_insert`); putting a collection's own members into the empty
one gives it back (`ofList_toList`). -/

namespace ProofTracker.SortedBy

variable {α : Type} {key : α → String} {c d : SortedBy key} {a b : α} {k : String} {l : List α}

@[simp] theorem notMem_empty : a ∉ (∅ : SortedBy key) := List.not_mem_nil

@[simp] theorem mem_singleton : b ∈ ({a} : SortedBy key) ↔ b = a := List.mem_singleton

/-! ### Look-ups -/

theorem eq_of_key_eq (ha : a ∈ c) (hb : b ∈ c) (h : key a = key b) : a = b := by
  have hp : c.toList.Pairwise fun a b => key a = key b → a = b :=
    c.sorted.imp fun hlt he => absurd he (String.ne_of_lt hlt)
  have hp' : c.toList.Pairwise (flip fun a b => key a = key b → a = b) :=
    c.sorted.imp fun hlt he => absurd he.symm (String.ne_of_lt hlt)
  exact hp.forall_of_forall_of_flip (fun _ _ _ => rfl) hp' ha hb h

theorem get?_of_mem (h : a ∈ c) : c.get? (key a) = some a := by
  cases hg : c.get? (key a) with
  | none =>
    have := List.find?_eq_none.mp hg a h
    simp at this
  | some b => rw [eq_of_key_eq (mem_of_get?_eq_some hg) h (key_eq_of_get?_eq_some hg)]

theorem get?_eq_some_iff : c.get? k = some a ↔ a ∈ c ∧ key a = k := by
  constructor
  · exact fun h => ⟨mem_of_get?_eq_some h, key_eq_of_get?_eq_some h⟩
  · rintro ⟨h, rfl⟩; exact get?_of_mem h

theorem mem_iff_get? : a ∈ c ↔ c.get? (key a) = some a := by
  simp [get?_eq_some_iff]

theorem contains_eq_isSome : c.contains k = (c.get? k).isSome := by
  unfold contains get?; rw [List.isSome_find?]

theorem contains_of_mem (h : a ∈ c) : c.contains (key a) = true :=
  contains_iff.mpr ⟨a, h, rfl⟩

theorem contains_of_get?_eq_some (h : c.get? k = some a) : c.contains k = true := by
  rw [contains_eq_isSome, h]; rfl

theorem contains_eq_false_iff : c.contains k = false ↔ c.get? k = none := by
  rw [contains_eq_isSome, Option.isSome_eq_false_iff, Option.isNone_iff_eq_none]

theorem exists_of_contains (h : c.contains k = true) : ∃ a ∈ c, c.get? k = some a := by
  obtain ⟨a, ha, rfl⟩ := contains_iff.mp h
  exact ⟨a, ha, get?_of_mem ha⟩

@[simp] theorem get?_empty : (∅ : SortedBy key).get? k = none := rfl

@[simp] theorem contains_empty : (∅ : SortedBy key).contains k = false := rfl

/-! ### Equality -/

theorem nodup_toList (c : SortedBy key) : c.toList.Nodup :=
  c.sorted.imp fun hlt he => absurd (congrArg key he) (String.ne_of_lt hlt)

theorem ext_mem (h : ∀ a, a ∈ c ↔ a ∈ d) : c = d := by
  have hp : c.toList.Perm d.toList :=
    (List.perm_ext_iff_of_nodup c.nodup_toList d.nodup_toList).mpr h
  exact ext (hp.eq_of_pairwise (fun a b _ _ hab hba => absurd hba (String.lt_asymm hab))
    c.sorted d.sorted)

theorem ext_get? (h : ∀ k, c.get? k = d.get? k) : c = d :=
  ext_mem fun a => by rw [mem_iff_get?, mem_iff_get?, h]

/-! ### Putting members in -/

theorem get?_insert (c : SortedBy key) (a : α) (k : String) :
    (c.insert a).get? k = if key a = k then some a else c.get? k := by
  split_ifs with h
  · rw [← h, get?_insert_self]
  · exact get?_insert_of_ne h c

theorem mem_insert : b ∈ c.insert a ↔ b = a ∨ (b ∈ c ∧ key b ≠ key a) := by
  rw [mem_iff_get?, get?_insert]
  split_ifs with h
  · simp [h, eq_comm]
  · rw [← mem_iff_get?]
    constructor
    · exact fun hb => Or.inr ⟨hb, Ne.symm h⟩
    · rintro (rfl | hb)
      · exact absurd rfl h
      · exact hb.1

theorem insert_insert (c : SortedBy key) {a' : α} (h : key a' = key a) :
    (c.insert a).insert a' = c.insert a' := by
  refine ext_get? fun k => ?_
  simp only [get?_insert]
  by_cases hk : key a' = k
  · rw [if_pos hk, if_pos hk]
  · have hk' : key a ≠ k := by rwa [← h]
    rw [if_neg hk, if_neg hk, if_neg hk']

/-- A member put in takes the place of the one with the same key. -/
theorem toList_insert_of_eq {before after : List α} {a' : α} (hc : c.toList = before ++ a :: after)
    (h : key a' = key a) : (c.insert a').toList = before ++ a' :: after := by
  rw [toList_insert, hc]
  have hs := c.sorted
  rw [hc] at hs
  clear hc
  induction before with
  | nil =>
    show insertList key a' (a :: after) = _
    rw [insertList, h, if_neg (String.lt_irrefl _), if_neg (String.lt_irrefl _)]
    rfl
  | cons b before ih =>
    obtain ⟨hb, hs⟩ := List.pairwise_cons.mp hs
    have hlt : key b < key a' := h ▸ hb a (by simp)
    rw [List.cons_append, insertList, if_neg (String.lt_asymm hlt), if_pos hlt, ih hs]
    rfl

/-- A member that is replaced later on may as well be left out. -/
theorem insert_insert_insert (c : SortedBy key) {a' : α} (b : α) (h : key a' = key a) :
    ((c.insert a).insert b).insert a' = (c.insert b).insert a' := by
  refine ext_get? fun k => ?_
  simp only [get?_insert]
  by_cases hk : key a' = k
  · rw [if_pos hk, if_pos hk]
  · have hk' : key a ≠ k := by rwa [← h]
    rw [if_neg hk, if_neg hk, if_neg hk']

theorem contains_insert (c : SortedBy key) (a : α) (k : String) :
    (c.insert a).contains k = (decide (key a = k) || c.contains k) := by
  rw [contains_eq_isSome, contains_eq_isSome, get?_insert]
  split_ifs with h <;> simp [h]

theorem insert_self (h : c.get? (key a) = some a) : c.insert a = c :=
  ext_get? fun k => by
    rw [get?_insert]
    split_ifs with hk
    · rw [← hk, h]
    · rfl

/-- Of several members with one key the last one put in is found. -/
theorem get?_foldl_insert (l : List α) (c : SortedBy key) (k : String) :
    (l.foldl insert c).get? k = (l.reverse.find? (key · = k)).or (c.get? k) := by
  induction l generalizing c with
  | nil => simp
  | cons a l ih =>
    rw [List.foldl_cons, ih, get?_insert, List.reverse_cons, List.find?_append]
    cases l.reverse.find? (key · = k) with
    | some b => simp
    | none => by_cases h : key a = k <;> simp [h]

theorem mem_or_mem_of_mem_foldl_insert (h : a ∈ l.foldl insert c) : a ∈ l ∨ a ∈ c := by
  rw [mem_iff_get?, get?_foldl_insert, Option.or_eq_some_iff] at h
  rcases h with h | ⟨-, h⟩
  · exact Or.inl (List.mem_reverse.mp (List.mem_of_find?_eq_some h))
  · exact Or.inr (mem_of_get?_eq_some h)

theorem contains_foldl_insert (l : List α) (c : SortedBy key) (k : String) :
    (l.foldl insert c).contains k = true ↔ k ∈ l.map key ∨ c.contains k = true := by
  induction l generalizing c with
  | nil => simp
  | cons a l ih =>
    rw [List.foldl_cons, ih, contains_insert, List.map_cons, List.mem_cons]
    simp only [Bool.or_eq_true, decide_eq_true_eq]
    constructor
    · rintro (h | h | h)
      · exact Or.inl (Or.inr h)
      · exact Or.inl (Or.inl h.symm)
      · exact Or.inr h
    · rintro ((h | h) | h)
      · exact Or.inr (Or.inl h.symm)
      · exact Or.inl h
      · exact Or.inr (Or.inr h)

theorem get?_foldl_insert_of_notMem (h : k ∉ l.map key) (c : SortedBy key) :
    (l.foldl insert c).get? k = c.get? k := by
  induction l generalizing c with
  | nil => rfl
  | cons a l ih =>
    rw [List.map_cons, List.mem_cons, not_or] at h
    rw [List.foldl_cons, ih h.2, get?_insert_of_ne (Ne.symm h.1)]

theorem get?_foldl_insert_cases (l : List α) (c : SortedBy key) (k : String) :
    (∃ a ∈ l, key a = k ∧ (l.foldl insert c).get? k = some a) ∨
      k ∉ l.map key ∧ (l.foldl insert c).get? k = c.get? k := by
  cases hf : l.reverse.find? (key · = k) with
  | some a =>
    have hmem := List.mem_reverse.mp (List.mem_of_find?_eq_some hf)
    have hkey : key a = k := by simpa using List.find?_some hf
    exact Or.inl ⟨a, hmem, hkey, by rw [get?_foldl_insert, hf, Option.some_or]⟩
  | none =>
    have hk : k ∉ l.map key := by
      intro hk
      obtain ⟨a, ha, hkey⟩ := List.mem_map.mp hk
      exact List.find?_eq_none.mp hf a (List.mem_reverse.mpr ha) (decide_eq_true hkey)
    exact Or.inr ⟨hk, get?_foldl_insert_of_notMem hk c⟩

theorem get?_foldl_insert_of_mem (hd : (l.map key).Nodup) (ha : a ∈ l) (c : SortedBy key) :
    (l.foldl insert c).get? (key a) = some a := by
  induction l generalizing c with
  | nil => cases ha
  | cons b l ih =>
    obtain ⟨hb, hd⟩ := List.nodup_cons.mp hd
    rw [List.foldl_cons]
    rcases List.mem_cons.mp ha with rfl | ha
    · rw [get?_foldl_insert_of_notMem hb, get?_insert_self]
    · exact ih hd ha _

/-! ### Sizes -/

theorem length_insertList (h : ∀ b ∈ l, key b ≠ key a) :
    (insertList key a l).length = l.length + 1 := by
  induction l with
  | nil => rfl
  | cons b l ih =>
    have hb := h b List.mem_cons_self
    rw [insertList]
    split_ifs with hab hba
    · rfl
    · rw [List.length_cons, ih fun b hb => h b (List.mem_cons_of_mem _ hb), List.length_cons]
    · exact absurd (String.le_antisymm (String.not_lt.mp hab) (String.not_lt.mp hba)) hb

theorem size_insert (h : c.contains (key a) = false) : (c.insert a).size = c.size + 1 := by
  refine length_insertList fun b hb he => ?_
  rw [← he, contains_of_mem hb] at h
  cases h

theorem size_le_of_subset (h : ∀ a ∈ c, a ∈ d) : c.size ≤ d.size :=
  (List.subperm_of_subset c.nodup_toList h).length_le

/-! ### Collections of listed members -/

theorem mem_ofList (h : l.Pairwise fun a b => key a ≠ key b) :
    a ∈ (ofList l : SortedBy key) ↔ a ∈ l := by
  constructor
  · intro ha
    exact (mem_or_mem_of_mem_foldl_insert ha).resolve_right notMem_empty
  · intro ha
    rw [ofList, mem_iff_get?, get?_foldl_insert, get?_empty, Option.or_none]
    have hr : l.reverse.Pairwise fun a b => key a ≠ key b :=
      List.pairwise_reverse.mpr (h.imp Ne.symm)
    clear h
    replace ha := List.mem_reverse.mpr ha
    generalize l.reverse = l' at ha hr
    induction l' with
    | nil => simp at ha
    | cons b l' ih =>
      obtain ⟨hb, hl⟩ := List.pairwise_cons.mp hr
      rcases List.mem_cons.mp ha with rfl | ha
      · simp
      · rw [List.find?_cons_of_neg (by simpa using hb a ha)]
        exact ih ha hl

/-- The collection of a collection's own members. -/
@[simp] theorem ofList_toList (c : SortedBy key) : ofList c.toList = c :=
  ext_mem fun a => by
    rw [mem_ofList (c.sorted.imp String.ne_of_lt)]; rfl

/-- A collection is told by its members in the order of their keys. -/
theorem toList_eq_of_mem_iff (hl : l.Pairwise fun a b => key a < key b) (h : ∀ a, a ∈ c ↔ a ∈ l) :
    c.toList = l :=
  congrArg toList (ext_mem (d := ⟨l, hl⟩) h)

/-! ### Sets of labels -/

theorem contains_label_iff {s : LabelSet} : s.contains k = true ↔ k ∈ s := by
  simp [contains_iff]

theorem mem_ofList_labels {ls : List String} : k ∈ (ofList ls : LabelSet) ↔ k ∈ ls := by
  unfold ofList
  rw [← contains_label_iff, contains_foldl_insert, List.map_id']
  simp

end ProofTracker.SortedBy
