/-!
# Sorted collections

`SortedBy key` is a finite collection whose members have different keys and stand in ascending
order of their keys. Keys are strings, compared by code points. The order is part of the type, so a
collection has one form only, and two collections with the same members are equal.
-/

namespace ProofTracker

variable {α : Type} {key : α → String}

/-- A finite collection in strictly ascending order of its keys. -/
structure SortedBy (key : α → String) where
  /-- The members, least key first. -/
  toList : List α
  /-- Each key is less than every later one. -/
  sorted : toList.Pairwise fun a b => key a < key b

namespace SortedBy

theorem ext {c d : SortedBy key} (h : c.toList = d.toList) : c = d := by
  cases c; cases d; cases h; rfl

instance [DecidableEq α] : DecidableEq (SortedBy key) := fun c d =>
  decidable_of_iff (c.toList = d.toList) ⟨ext, fun h => h ▸ rfl⟩

instance : Membership α (SortedBy key) where
  mem c a := a ∈ c.toList

@[simp] theorem mem_toList {a : α} {c : SortedBy key} : a ∈ c.toList ↔ a ∈ c := .rfl

instance : EmptyCollection (SortedBy key) where
  emptyCollection := ⟨[], .nil⟩

instance : Inhabited (SortedBy key) := ⟨∅⟩

instance : Singleton α (SortedBy key) where
  singleton a := ⟨[a], List.pairwise_singleton _ a⟩

/-- The list with `a` put where its key belongs, in place of a member with the same key. -/
def insertList (key : α → String) (a : α) : List α → List α
  | [] => [a]
  | b :: l =>
    if key a < key b then a :: b :: l
    else if key b < key a then b :: insertList key a l
    else a :: l

theorem mem_of_mem_insertList {a b : α} {l : List α} (h : b ∈ insertList key a l) :
    b = a ∨ b ∈ l := by
  induction l with
  | nil => simpa [insertList] using h
  | cons c l ih =>
    simp only [insertList] at h
    split at h
    · simpa using h
    · split at h
      · rcases List.mem_cons.1 h with rfl | h
        · simp
        · rcases ih h with rfl | h <;> simp [*]
      · rcases List.mem_cons.1 h with rfl | h <;> simp [*]

theorem pairwise_insertList (a : α) {l : List α} (h : l.Pairwise fun a b => key a < key b) :
    (insertList key a l).Pairwise fun a b => key a < key b := by
  induction l with
  | nil => simp [insertList]
  | cons b l ih =>
    obtain ⟨hb, hl⟩ := List.pairwise_cons.1 h
    simp only [insertList]
    split
    · next hab =>
      refine List.pairwise_cons.2 ⟨fun c hc => ?_, h⟩
      rcases List.mem_cons.1 hc with rfl | hc
      · exact hab
      · exact String.lt_trans hab (hb c hc)
    · next hab =>
      split
      · next hba =>
        refine List.pairwise_cons.2 ⟨fun c hc => ?_, ih hl⟩
        rcases mem_of_mem_insertList hc with rfl | hc
        · exact hba
        · exact hb c hc
      · next hba =>
        have e : key a = key b := String.le_antisymm (String.not_lt.1 hba) (String.not_lt.1 hab)
        exact List.pairwise_cons.2 ⟨fun c hc => e ▸ hb c hc, hl⟩

/-- Adds a member, in place of the one with the same key if there is one. -/
def insert (c : SortedBy key) (a : α) : SortedBy key :=
  ⟨insertList key a c.toList, pairwise_insertList a c.sorted⟩

/-- The collection of the listed members; of several with one key the last counts. -/
def ofList (l : List α) : SortedBy key :=
  l.foldl insert ∅

/-- The member with the given key. -/
def get? (c : SortedBy key) (k : String) : Option α :=
  c.toList.find? (key · = k)

/-- Whether there is a member with the given key. -/
def contains (c : SortedBy key) (k : String) : Bool :=
  c.toList.any (key · = k)

/-- The number of members. -/
def size (c : SortedBy key) : Nat :=
  c.toList.length

/-- The members that pass the test. -/
def filter (p : α → Bool) (c : SortedBy key) : SortedBy key :=
  ⟨c.toList.filter p, c.sorted.filter p⟩

theorem toList_insert (c : SortedBy key) (a : α) :
    (c.insert a).toList = insertList key a c.toList := rfl

/-! ### Look-up -/

theorem find?_insertList_self (a : α) (l : List α) :
    (insertList key a l).find? (key · = key a) = some a := by
  induction l with
  | nil => simp [insertList]
  | cons b l ih =>
    simp only [insertList]
    split
    · simp
    · split
      · next hba => simp [String.ne_of_lt hba, ih]
      · simp

theorem find?_insertList_of_ne {a : α} {k : String} (h : key a ≠ k) (l : List α) :
    (insertList key a l).find? (key · = k) = l.find? (key · = k) := by
  induction l with
  | nil => simp [insertList, h]
  | cons b l ih =>
    simp only [insertList]
    split
    · simp [List.find?_cons, h]
    · next hab =>
      split
      · simp only [List.find?_cons, ih]
      · next hba =>
        have e : key a = key b := String.le_antisymm (String.not_lt.1 hba) (String.not_lt.1 hab)
        simp [h, ← e]

@[simp] theorem get?_insert_self (c : SortedBy key) (a : α) : (c.insert a).get? (key a) = some a :=
  find?_insertList_self a c.toList

theorem get?_insert_of_ne {a : α} {k : String} (h : key a ≠ k) (c : SortedBy key) :
    (c.insert a).get? k = c.get? k :=
  find?_insertList_of_ne h c.toList

theorem contains_iff {c : SortedBy key} {k : String} :
    c.contains k = true ↔ ∃ a ∈ c, key a = k := by
  simp [contains]

theorem key_eq_of_get?_eq_some {c : SortedBy key} {k : String} {a : α} (h : c.get? k = some a) :
    key a = k := by
  simpa using List.find?_some h

theorem mem_of_get?_eq_some {c : SortedBy key} {k : String} {a : α} (h : c.get? k = some a) :
    a ∈ c :=
  List.mem_of_find?_eq_some h

end SortedBy

/-- A set of labels, in ascending order. -/
abbrev LabelSet := SortedBy fun l : String => l

/-- The keys of the members. -/
def SortedBy.keys (c : SortedBy key) : LabelSet :=
  ⟨c.toList.map key, List.pairwise_map.2 c.sorted⟩

end ProofTracker
