import ProofTracker.Proofs.Catalog.Reach

/-! # The search as a loop

What is reached from a label is also found by a loop with a pile of labels to be visited. A turn takes
the label on top and meets all that it leads to; what is met for the first time counts as found and is
put on the pile. So a turn takes one label off, and each label found has been put on once
(`Searching.count`). As long as only finitely many labels are reached, the pile is used up after one
turn more than there are labels found, and then all that is reached has been found (`turns_start`).
Loops of this kind, in both directions of the dependencies, give the ancestors and the descendants of
a label in a catalog of any shape (`ancestors_descendants`). -/

namespace ProofTracker

/-- The labels that a loop has found and those that it has still to visit, the next one first. -/
structure Search where
  found : LabelSet
  toVisit : List String

namespace Search

/-- The loop that has nothing but its start to visit. The start does not count as found. -/
def start (l : String) : Search := ⟨∅, [l]⟩

/-- A label that is met for the first time is found, and has to be visited. -/
def meet (s : Search) (l : String) : Search :=
  if s.found.contains l then s else ⟨s.found.insert l, l :: s.toVisit⟩

/-- One turn of the loop, which ends when there is nothing to visit. -/
def turn? (next : String → List String) : Search → Option Search
  | ⟨_, []⟩ => none
  | ⟨found, l :: toVisit⟩ => some ((next l).foldl meet ⟨found, toVisit⟩)

/-- So many turns of the loop, if it does not end before. -/
def turns (next : String → List String) : Nat → Search → Option Search
  | 0, s => some s
  | n + 1, s => (s.turn? next).bind (turns next n)

variable {next : String → List String} {s s' : Search} {u : LabelSet} {ls : List String}
  {a b l x : String} {n : Nat}

/-! ### One turn -/

theorem mem_found_meet : b ∈ (s.meet l).found ↔ b ∈ s.found ∨ b = l := by
  unfold meet
  split_ifs with h
  · obtain ⟨m, hm, rfl⟩ := SortedBy.contains_iff.mp h
    simp only [iff_self_or]
    rintro rfl
    exact hm
  · rw [SortedBy.mem_insert]
    by_cases hb : b = l <;> simp [hb]

theorem mem_toVisit_meet : b ∈ (s.meet l).toVisit ↔ b ∈ s.toVisit ∨ b = l ∧ b ∉ s.found := by
  have hcontains : s.found.contains l = true ↔ l ∈ s.found := by simp [SortedBy.contains_iff]
  unfold meet
  split_ifs with h
  · rw [hcontains] at h
    simp only [iff_self_or, and_imp]
    rintro rfl hb
    exact absurd h hb
  · rw [hcontains] at h
    rw [List.mem_cons]
    constructor
    · rintro (rfl | hb)
      · exact Or.inr ⟨rfl, h⟩
      · exact Or.inl hb
    · rintro (hb | ⟨rfl, -⟩)
      · exact Or.inr hb
      · exact Or.inl rfl

/-- A label is put on the pile when it is found. -/
theorem count_meet (s : Search) (l : String) :
    (s.meet l).toVisit.length + s.found.size = s.toVisit.length + (s.meet l).found.size := by
  unfold meet
  split_ifs with h
  · rfl
  · rw [SortedBy.size_insert (Bool.not_eq_true _ ▸ h), List.length_cons]
    omega

theorem mem_found_foldl_meet :
    b ∈ (ls.foldl meet s).found ↔ b ∈ s.found ∨ b ∈ ls := by
  induction ls generalizing s with
  | nil => simp
  | cons l ls ih => rw [List.foldl_cons, ih, mem_found_meet, List.mem_cons, or_assoc]

theorem mem_toVisit_foldl_meet :
    b ∈ (ls.foldl meet s).toVisit ↔ b ∈ s.toVisit ∨ b ∈ ls ∧ b ∉ s.found := by
  induction ls generalizing s with
  | nil => simp
  | cons l ls ih =>
    rw [List.foldl_cons, ih, mem_toVisit_meet, mem_found_meet, List.mem_cons]
    tauto

theorem count_foldl_meet (s : Search) (ls : List String) :
    (ls.foldl meet s).toVisit.length + s.found.size =
      s.toVisit.length + (ls.foldl meet s).found.size := by
  induction ls generalizing s with
  | nil => rfl
  | cons l ls ih =>
    have hhead := s.count_meet l
    have htail := ih (s.meet l)
    rw [List.foldl_cons]
    omega

/-! ### Many turns -/

/-- What holds after `n` turns of the loop that has been started at `x`. -/
structure Searching (next : String → List String) (x : String) (n : Nat) (s : Search) : Prop where
  count : n + s.toVisit.length = s.found.size + 1
  toVisit : ∀ a ∈ s.toVisit, a = x ∨ a ∈ s.found
  reached : ∀ a ∈ s.found, Relation.TransGen (fun a b => b ∈ next a) x a
  closed : ∀ a, a = x ∨ a ∈ s.found → a ∈ s.toVisit ∨ ∀ b ∈ next a, b ∈ s.found

theorem searching_start (next : String → List String) (x : String) :
    Searching next x 0 (start x) where
  count := rfl
  toVisit _ ha := Or.inl (List.mem_singleton.mp ha)
  reached _ ha := absurd ha SortedBy.notMem_empty
  closed a ha := by
    rcases ha with rfl | ha
    · exact Or.inl (List.mem_singleton.mpr rfl)
    · exact absurd ha SortedBy.notMem_empty

/-- What a turn keeps. -/
theorem Searching.turn (h : Searching next x n s) (hs : s.turn? next = some s') :
    Searching next x (n + 1) s' := by
  obtain ⟨found, toVisit⟩ := s
  cases toVisit with
  | nil => cases hs
  | cons l toVisit =>
    obtain rfl := Option.some.inj hs
    have hl : l = x ∨ l ∈ found := h.toVisit l List.mem_cons_self
    refine ⟨?_, fun a ha => ?_, fun a ha => ?_, fun a ha => ?_⟩
    · have hcount := h.count
      have hmet := count_foldl_meet ⟨found, toVisit⟩ (next l)
      simp only [List.length_cons] at hcount hmet
      omega
    · rw [mem_found_foldl_meet]
      rcases mem_toVisit_foldl_meet.mp ha with ha | ⟨ha, -⟩
      · exact (h.toVisit a (List.mem_cons_of_mem _ ha)).imp_right Or.inl
      · exact Or.inr (Or.inr ha)
    · rcases mem_found_foldl_meet.mp ha with ha | ha
      · exact h.reached a ha
      · rcases hl with rfl | hl
        · exact .single ha
        · exact (h.reached l hl).tail ha
    · rw [mem_toVisit_foldl_meet]
      simp only [mem_found_foldl_meet] at ha ⊢
      -- The label of this turn leads to found labels only from now on, and what it has just been met
      -- for the first time is on the pile.
      by_cases hal : a = l
      · subst hal
        exact Or.inr fun b hb => Or.inr hb
      · by_cases hold : a = x ∨ a ∈ found
        · rcases h.closed a hold with hv | hnext
          · exact Or.inl (Or.inl ((List.mem_cons.mp hv).resolve_left hal))
          · exact Or.inr fun b hb => Or.inl (hnext b hb)
        · rw [not_or] at hold
          have hmet := (ha.resolve_left hold.1).resolve_left hold.2
          exact Or.inl (Or.inr ⟨hmet, hold.2⟩)

/-- When there is nothing to visit, all that is reached has been found. -/
theorem Searching.mem_found_iff (h : Searching next x n s) (hs : s.toVisit = []) :
    a ∈ s.found ↔ Relation.TransGen (fun a b => b ∈ next a) x a := by
  have hclosed : ∀ a, a = x ∨ a ∈ s.found → ∀ b ∈ next a, b ∈ s.found := fun a ha =>
    (h.closed a ha).resolve_left (by simp [hs])
  refine ⟨h.reached a, fun ha => ?_⟩
  induction ha with
  | single hstep => exact hclosed x (Or.inl rfl) _ hstep
  | tail _ hstep ih => exact hclosed _ (Or.inr ih) _ hstep

/-- There are at most as many turns as labels that can be found, and one for the start. -/
theorem Searching.add_length_le (h : Searching next x n s)
    (hu : ∀ a, Relation.TransGen (fun a b => b ∈ next a) x a → a ∈ u) :
    n + s.toVisit.length ≤ u.size + 1 := by
  have hsize : s.found.size ≤ u.size := SortedBy.size_le_of_subset fun a ha => hu a (h.reached a ha)
  rw [h.count]
  omega

/-- A loop that can find only the labels of a set comes to its end. -/
theorem Searching.exists_turns (h : Searching next x n s)
    (hu : ∀ a, Relation.TransGen (fun a b => b ∈ next a) x a → a ∈ u) :
    ∃ k found, turns next k s = some ⟨found, []⟩ ∧ Searching next x (n + k) ⟨found, []⟩ := by
  obtain ⟨found, toVisit⟩ := s
  have hle : n + toVisit.length ≤ u.size + 1 := h.add_length_le hu
  induction hleft : u.size + 1 - n generalizing n found toVisit with
  | zero =>
    obtain rfl : toVisit = [] := List.eq_nil_of_length_eq_zero (by omega)
    exact ⟨0, found, rfl, h⟩
  | succ left ih =>
    cases toVisit with
    | nil => exact ⟨0, found, rfl, h⟩
    | cons l toVisit =>
      have h' := h.turn rfl
      obtain ⟨k, found', hk, hend⟩ := ih _ _ h' (h'.add_length_le hu) (by omega)
      exact ⟨k + 1, found', hk, by rwa [Nat.add_assoc, Nat.add_comm 1 k] at hend⟩

/-- **The loop ends, and has found what is reached from its start.** It has made one turn for each
label found, and one for the start. -/
theorem turns_start (hu : ∀ a, a ∈ u ↔ Relation.TransGen (fun a b => b ∈ next a) x a) :
    turns next (u.size + 1) (start x) = some ⟨u, []⟩ := by
  obtain ⟨k, found, hk, hend⟩ :=
    (searching_start next x).exists_turns (u := u) fun a ha => (hu a).mpr ha
  obtain rfl : found = u := SortedBy.ext_mem fun a => by rw [hend.mem_found_iff rfl, hu]
  have hcount : 0 + k + 0 = found.size + 1 := hend.count
  obtain rfl : k = found.size + 1 := by omega
  exact hk

end Search

namespace Catalog

/-- The labels of the items that use the label themselves. -/
def usersOf (c : Catalog) (label : String) : List String := (c.dependents label).map Item.label

/-- **The ancestors and the descendants of a label** are what a loop finds that goes on to what is
used, or to what uses it, and that ends after one turn more than it finds labels. They are the labels
that are reached by one step or more along the dependencies, or against them. So the one relation is
the other one reversed. -/
theorem ancestors_descendants (c : Catalog) (x : String) :
    Search.turns c.usesOf ((c.ancestors x).size + 1) (.start x) = some ⟨c.ancestors x, []⟩ ∧
    Search.turns c.usersOf ((c.descendants x).size + 1) (.start x) = some ⟨c.descendants x, []⟩ ∧
    (∀ l, l ∈ c.ancestors x ↔ Relation.TransGen c.Uses x l) ∧
    (∀ l, l ∈ c.descendants x ↔ (∃ i, c.get? l = some i) ∧ Relation.TransGen c.Uses l x) ∧
    ∀ y, y ∈ c.descendants x ↔ x ∈ c.ancestors y := by
  have hup : (fun a b => b ∈ c.usesOf a) = c.Uses := by
    funext a b
    exact propext mem_usesOf
  have hdown : (fun a b => b ∈ c.usersOf a) = Function.swap c.Uses := by
    funext a b
    exact propext mem_map_dependents
  refine ⟨Search.turns_start fun l => ?_, Search.turns_start fun l => ?_, fun l => mem_ancestors,
    fun l => ?_, fun y => mem_descendants.trans mem_ancestors.symm⟩
  · rw [hup]
    exact mem_ancestors
  · rw [hdown, Relation.transGen_swap]
    exact mem_descendants
  · rw [mem_descendants]
    refine ⟨fun h => ⟨?_, h⟩, And.right⟩
    obtain ⟨i, hi, rfl⟩ := exists_mem_of_restsOn h
    exact ⟨i, SortedBy.get?_of_mem hi⟩

end Catalog

end ProofTracker
