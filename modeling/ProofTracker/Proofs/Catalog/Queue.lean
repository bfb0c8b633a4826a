import ProofTracker.Proofs.Catalog.Linear
import ProofTracker.Proofs.Checked

/-! # Placing with tables and a queue

Items are also placed by a loop with a table of numbers, a table of users and a queue of labels. In
one pass over the items both tables are filled: how many known labels each item uses, and which
items use each label (`mem_blockers_tables`, `mem_users_tables`). A round takes the least label out
of the queue, places its item, and lowers the number of each user; a number that becomes zero puts
its label into the queue. Lowering zero, or looking up a label that no item has, would stop the
loop.

While the loop runs, the numbers are those of the labels of waiting items that are used, the queue
holds the waiting items that are not blocked, and no placed item is blocked (`Running`). So a user
of the label that is taken out still waits, and its number counts this label, whatever is lowered is
positive, and a label that has been in the queue has the number zero for good. Each round is a step
of `Placing` (`Running.exists_round`), hence the loop ends with what `place` gives. -/

namespace ProofTracker

/-- Values by label, in the order of the labels. -/
abbrev Table (β : Type) := SortedBy fun e : String × β => e.1

/-- The value of the label. -/
def Table.at? {β : Type} (t : Table β) (l : String) : Option β := (t.get? l).map (·.2)

/-- All members but the first. -/
def SortedBy.tail {α : Type} {key : α → String} (c : SortedBy key) : SortedBy key :=
  ⟨c.toList.tail, c.sorted.tail⟩

/-- Why a loop does not go on. -/
inductive Halt where
  /-- There is nothing left to be done. -/
  | finished
  /-- The number of the label is zero and cannot be lowered. -/
  | underflow (label : String)
  /-- There is no item with the label. -/
  | unknown (label : String)
deriving DecidableEq

namespace SortedBy

variable {α : Type} {key : α → String} {c : SortedBy key} {a b : α} {l : List α}

theorem mem_iff_eq_or_mem_tail (h : c.toList = a :: l) : b ∈ c ↔ b = a ∨ b ∈ c.tail := by
  show b ∈ c.toList ↔ b = a ∨ b ∈ c.toList.tail
  rw [h, List.mem_cons, List.tail_cons]

theorem notMem_tail (h : c.toList = a :: l) : a ∉ c.tail := by
  have hnodup := c.nodup_toList
  rw [h] at hnodup
  show a ∉ c.toList.tail
  rw [h, List.tail_cons]
  exact (List.nodup_cons.mp hnodup).1

end SortedBy

namespace Table

variable {β : Type} {t : Table β} {l : String} {v : β}

theorem at?_insert (t : Table β) (a : String) (v : β) (l : String) :
    Table.at? (t.insert (a, v)) l = if a = l then some v else t.at? l := by
  unfold Table.at?
  rw [SortedBy.get?_insert]
  split_ifs <;> rfl

theorem at?_eq_some_iff : t.at? l = some v ↔ (l, v) ∈ t := by
  unfold Table.at?
  rw [Option.map_eq_some_iff]
  constructor
  · rintro ⟨e, he, rfl⟩
    obtain ⟨hmem, rfl⟩ := SortedBy.get?_eq_some_iff.mp he
    exact hmem
  · intro h
    exact ⟨(l, v), SortedBy.get?_of_mem h, rfl⟩

end Table

namespace Catalog

/-- The item with the label, which there has to be. -/
def item (c : Catalog) (label : String) : Except Halt Item :=
  match c.get? label with
  | some i => .ok i
  | none => .error (.unknown label)

/-- What is read off the items before one of them is placed. -/
structure Tables where
  /-- How many known labels each item uses. -/
  blockers : Table Nat := ∅
  /-- The labels of the items that use a known label. -/
  users : Table LabelSet := ∅

/-- The users of a label. A label without an entry has none. -/
def usersAt (t : Table LabelSet) (l : String) : LabelSet := (t.at? l).getD ∅

/-- Enters a user of the label. -/
def addUser (user : String) (t : Table LabelSet) (l : String) : Table LabelSet :=
  t.insert (l, (usersAt t l).insert user)

/-- Enters an item in both tables. -/
def Tables.add (c : Catalog) (t : Tables) (i : Item) : Tables :=
  let known := i.uses.toList.filter c.contains
  ⟨t.blockers.insert (i.label, known.length), known.foldl (addUser i.label) t.users⟩

/-- The tables of all items. -/
def tables (c : Catalog) : Tables := c.toList.foldl (Tables.add c) {}

/-- The loop between two rounds. -/
structure Queue where
  /-- How many labels of waiting items each item uses. -/
  blockers : Table Nat
  /-- The labels in the queue. -/
  ready : LabelSet
  /-- The items that have been placed. -/
  ordered : List Item
  /-- The labels that have been put into the queue so far, one after the other. -/
  entered : List String

namespace Queue

/-- The loop before its first round, with the labels of number zero in the queue. -/
def start (t : Tables) : Queue :=
  let ready := (t.blockers.toList.filter (·.2 = 0)).map (·.1)
  ⟨t.blockers, .ofList ready, [], ready⟩

/-- Lowers the number of a user, which is put into the queue at zero. -/
def release (s : Queue) (user : String) : Except Halt Queue :=
  match s.blockers.at? user with
  | none => .ok s
  | some 0 => .error (.underflow user)
  | some (n + 1) =>
    let s := { s with blockers := s.blockers.insert (user, n) }
    .ok (if n = 0 then
      { s with ready := s.ready.insert user, entered := s.entered ++ [user] } else s)

/-- A round: the item with the least label in the queue is placed, and its users are released. -/
def round (c : Catalog) (users : Table LabelSet) (s : Queue) : Except Halt Queue :=
  match s.ready.toList with
  | [] => .error .finished
  | l :: _ => do
    let i ← c.item l
    let s := { s with ready := s.ready.tail, ordered := s.ordered ++ [i] }
    match users.at? l with
    | none => return s
    | some ls => ls.toList.foldlM release s

end Queue

variable {c : Catalog} {i j : Item} {is before after order stuck : List Item} {l u : String}
  {ls rest : List String} {s s' : Queue} {t : Table LabelSet} {n : Nat}

/-! ### The tables -/

theorem item_of_mem (hi : i ∈ c) : c.item i.label = .ok i := by
  unfold item
  rw [SortedBy.get?_of_mem hi]

theorem blockers_foldl_add (is : List Item) (t : Tables) :
    (is.foldl (Tables.add c) t).blockers =
      (is.map fun i => (i.label, i.uses.toList.countP c.contains)).foldl SortedBy.insert
        t.blockers := by
  induction is generalizing t with
  | nil => rfl
  | cons i is ih =>
    rw [List.foldl_cons, ih, List.map_cons, List.foldl_cons, List.countP_eq_length_filter]
    rfl

/-- Each item has a number, that of the known labels it uses. -/
theorem mem_blockers_tables : (l, n) ∈ c.tables.blockers ↔
    ∃ i ∈ c, i.label = l ∧ i.uses.toList.countP c.contains = n := by
  have hblockers : c.tables.blockers =
      .ofList (c.toList.map fun i => (i.label, i.uses.toList.countP c.contains)) :=
    blockers_foldl_add c.toList {}
  rw [hblockers, SortedBy.mem_ofList, List.mem_map]
  · simp only [Prod.mk.injEq, SortedBy.mem_toList]
  · exact List.pairwise_map.mpr (c.sorted.imp String.ne_of_lt)

theorem mem_usersAt_addUser (user : String) (t : Table LabelSet) (m : String) :
    u ∈ usersAt (addUser user t m) l ↔ u ∈ usersAt t l ∨ l = m ∧ u = user := by
  unfold usersAt addUser
  rw [Table.at?_insert]
  split_ifs with h
  · subst h
    rw [Option.getD_some, SortedBy.mem_insert]
    by_cases hu : u = user <;> simp [hu, usersAt]
  · simp [Ne.symm h]

theorem mem_usersAt_foldl_addUser (user : String) (ls : List String) (t : Table LabelSet) :
    u ∈ usersAt (ls.foldl (addUser user) t) l ↔ u ∈ usersAt t l ∨ l ∈ ls ∧ u = user := by
  induction ls generalizing t with
  | nil => simp
  | cons m ls ih =>
    rw [List.foldl_cons, ih, mem_usersAt_addUser, List.mem_cons, or_assoc, or_and_right]

theorem mem_usersAt_foldl_add (is : List Item) (t : Tables) :
    u ∈ usersAt (is.foldl (Tables.add c) t).users l ↔
      u ∈ usersAt t.users l ∨ ∃ i ∈ is, i.label = u ∧ l ∈ i.uses ∧ c.contains l = true := by
  induction is generalizing t with
  | nil => simp
  | cons i is ih =>
    have hadd : u ∈ usersAt (t.add c i).users l ↔
        u ∈ usersAt t.users l ∨ (l ∈ i.uses ∧ c.contains l = true) ∧ u = i.label := by
      unfold Tables.add
      rw [mem_usersAt_foldl_addUser, List.mem_filter, SortedBy.mem_toList]
    rw [List.foldl_cons, ih, hadd, or_assoc, List.exists_mem_cons_iff]
    refine or_congr_right (or_congr_left ?_)
    rw [and_comm, eq_comm (a := u)]

/-- The users of a label are the items that use it, if it is known. -/
theorem mem_users_tables : u ∈ usersAt c.tables.users l ↔
    ∃ i ∈ c, i.label = u ∧ l ∈ i.uses ∧ c.contains l = true := by
  unfold tables
  rw [mem_usersAt_foldl_add]
  exact or_iff_right SortedBy.notMem_empty

/-! ### Releasing users -/

/-- What lowering the numbers of some users changes. -/
structure Released (ls : List String) (s s' : Queue) : Prop where
  ordered : s'.ordered = s.ordered
  blockers : ∀ l, s'.blockers.at? l =
    if l ∈ ls then (s.blockers.at? l).map (· - 1) else s.blockers.at? l
  ready : ∀ l, l ∈ s'.ready ↔ l ∈ s.ready ∨ l ∈ ls ∧ s.blockers.at? l = some 1
  entered : s'.entered = s.entered ++ ls.filter (s.blockers.at? · = some 1)

/-- Releasing some users and then others. -/
theorem Released.append {s₁ s₂ : Queue} {ms : List String} (h₁ : Released ls s s₁)
    (h₂ : Released ms s₁ s₂) (hd : ∀ l ∈ ms, l ∉ ls) : Released (ls ++ ms) s s₂ := by
  have hsame : ∀ l ∈ ms, s₁.blockers.at? l = s.blockers.at? l := fun l hl => by
    rw [h₁.blockers, if_neg (hd l hl)]
  refine ⟨h₂.ordered.trans h₁.ordered, fun l => ?_, fun l => ?_, ?_⟩
  · rw [h₂.blockers]
    by_cases hl : l ∈ ms
    · rw [if_pos hl, if_pos (List.mem_append_right _ hl), hsame l hl]
    · rw [if_neg hl, h₁.blockers]
      simp [hl]
  · have hms : l ∈ ms ∧ s₁.blockers.at? l = some 1 ↔ l ∈ ms ∧ s.blockers.at? l = some 1 :=
      and_congr_right fun hl => by rw [hsame l hl]
    rw [h₂.ready, h₁.ready, hms, or_assoc, ← or_and_right, List.mem_append]
  · have hms : ms.filter (s₁.blockers.at? · = some 1) = ms.filter (s.blockers.at? · = some 1) :=
      List.filter_congr fun l hl => by rw [hsame l hl]
    rw [h₂.entered, h₁.entered, hms, List.filter_append, List.append_assoc]

/-- A positive number is lowered, and its user is put into the queue if it was one. -/
theorem Queue.release_of_pos (h : s.blockers.at? u = some (n + 1)) :
    ∃ s', s.release u = .ok s' ∧ Released [u] s s' := by
  have hblockers : ∀ l, Table.at? (s.blockers.insert (u, n)) l =
      if l ∈ [u] then (s.blockers.at? l).map (· - 1) else s.blockers.at? l := fun l => by
    rw [Table.at?_insert]
    by_cases hl : u = l
    · subst hl
      simp [h]
    · simp [hl, Ne.symm hl]
  unfold release
  rw [h]
  refine ⟨_, rfl, ?_⟩
  by_cases hn : n = 0
  · subst hn
    rw [if_pos rfl]
    refine ⟨rfl, hblockers, fun l => ?_, by simp [h]⟩
    rw [SortedBy.mem_insert, List.mem_singleton]
    by_cases hl : l = u <;> simp [hl, h]
  · rw [if_neg hn]
    refine ⟨rfl, hblockers, fun l => ?_, by simp [h, hn]⟩
    rw [List.mem_singleton]
    refine (or_iff_left ?_).symm
    rintro ⟨rfl, hl⟩
    rw [h] at hl
    simp [hn] at hl

/-- **Positive numbers can be lowered**, each once. -/
theorem Queue.foldlM_release (hd : ls.Nodup)
    (h : ∀ l ∈ ls, ∃ n, s.blockers.at? l = some (n + 1)) :
    ∃ s', ls.foldlM release s = .ok s' ∧ Released ls s s' := by
  induction ls generalizing s with
  | nil => exact ⟨s, rfl, rfl, by simp, by simp, by simp⟩
  | cons u ls ih =>
    obtain ⟨hu, hd⟩ := List.nodup_cons.mp hd
    obtain ⟨⟨n, hn⟩, hls⟩ := List.forall_mem_cons.mp h
    have hne : ∀ l ∈ ls, l ∉ [u] := fun l hl hlu => hu (List.mem_singleton.mp hlu ▸ hl)
    obtain ⟨s₁, h₁, hr₁⟩ := release_of_pos hn
    obtain ⟨s', h', hr⟩ := ih (s := s₁) hd fun l hl => by
      rw [hr₁.blockers, if_neg (hne l hl)]
      exact hls l hl
    exact ⟨s', by rw [List.foldlM_cons, h₁]; exact h', hr₁.append hr hne⟩

/-! ### The run of the loop -/

/-- What holds of the loop while the items `is` are waiting. -/
structure Running (c : Catalog) (is : List Item) (s : Queue) : Prop where
  sublist : is.Sublist c.toList
  perm : (s.ordered ++ is).Perm c.toList
  placed : ∀ i ∈ s.ordered, ¬ Blocked is i
  blockers : ∀ i ∈ c, s.blockers.at? i.label =
    some (i.uses.toList.countP (· ∈ is.map Item.label))
  ready : ∀ l, l ∈ s.ready ↔ ∃ i ∈ is, i.label = l ∧ ¬ Blocked is i
  entered : ∀ l, l ∈ s.entered ↔ l ∈ s.ordered.map Item.label ∨ l ∈ s.ready
  nodup : s.entered.Nodup

theorem running_start (c : Catalog) : Running c c.toList (.start c.tables) := by
  have hready : ∀ l, l ∈ (Queue.start c.tables).entered ↔
      ∃ i ∈ c.toList, i.label = l ∧ ¬ Blocked c.toList i := by
    intro l
    have hentry : l ∈ (Queue.start c.tables).entered ↔ (l, 0) ∈ c.tables.blockers := by
      unfold Queue.start
      simp
    rw [hentry, mem_blockers_tables]
    simp only [countP_contains, countP_eq_zero_iff_not_blocked, SortedBy.mem_toList]
  refine ⟨.refl _, .refl _, fun i hi => absurd hi List.not_mem_nil, fun i hi => ?_,
    fun l => SortedBy.mem_ofList_labels.trans (hready l), fun l => ?_, ?_⟩
  · rw [Table.at?_eq_some_iff]
    exact mem_blockers_tables.mpr ⟨i, hi, rfl, c.countP_contains i⟩
  · exact SortedBy.mem_ofList_labels.symm.trans (by simp [Queue.start])
  · have hkeys := c.tables.blockers.sorted.imp fun {a b} hlt => String.ne_of_lt hlt
    exact List.pairwise_map.mpr (hkeys.filter _)

namespace Running

theorem nodup_labels (h : Running c is s) : (is.map Item.label).Nodup :=
  c.nodup_labels.sublist (h.sublist.map _)

theorem mem_of_mem (h : Running c is s) (hi : i ∈ is) : i ∈ c := h.sublist.subset hi

/-- A label that is or has been in the queue belongs to an item that is not blocked. -/
theorem exists_of_entered (h : Running c is s) (hl : l ∈ s.entered) :
    ∃ i ∈ c, i.label = l ∧ ¬ Blocked is i := by
  rcases (h.entered l).mp hl with hl | hl
  · obtain ⟨i, hi, rfl⟩ := List.mem_map.mp hl
    exact ⟨i, h.perm.subset (List.mem_append_left _ hi), rfl, h.placed i hi⟩
  · obtain ⟨i, hi, rfl, hb⟩ := (h.ready l).mp hl
    exact ⟨i, h.mem_of_mem hi, rfl, hb⟩

theorem blockers_of_entered (h : Running c is s) (hl : l ∈ s.entered) :
    s.blockers.at? l = some 0 := by
  obtain ⟨i, hi, rfl, hb⟩ := h.exists_of_entered hl
  rw [h.blockers i hi, countP_eq_zero_iff_not_blocked.mpr hb]

/-- A label with the number one, which may be put into the queue next, has not been there before. -/
theorem notMem_entered (h : Running c is s) (hone : s.blockers.at? l = some 1) :
    l ∉ s.entered := fun hl => by
  have hzero := h.blockers_of_entered hl
  rw [hone] at hzero
  cases hzero

/-- When the queue is empty, all items that wait are blocked. -/
theorem blocked (h : Running c is s) (hs : s.ready.toList = []) : ∀ i ∈ is, Blocked is i := by
  intro i hi
  by_contra hb
  have hmem : i.label ∈ s.ready.toList := (h.ready i.label).mpr ⟨i, hi, rfl, hb⟩
  rw [hs] at hmem
  cases hmem

/-- The least label in the queue is that of the first item that is not blocked. -/
theorem exists_first (h : Running c is s) (hs : s.ready.toList = l :: rest) :
    ∃ before i after, is = before ++ i :: after ∧ i.label = l ∧ ¬ Blocked is i ∧
      ∀ j ∈ before, Blocked is j := by
  have hl : l ∈ s.ready.toList := by simp [hs]
  obtain ⟨i, hi, rfl, hb⟩ := (h.ready l).mp hl
  obtain ⟨before, after, rfl⟩ := List.append_of_mem hi
  refine ⟨before, i, after, rfl, rfl, hb, fun j hj => ?_⟩
  by_contra hbj
  have hjs : j.label ∈ s.ready.toList := (h.ready j.label).mpr ⟨j, by simp [hj], rfl, hbj⟩
  -- The queue is in the order of labels, and so are the items.
  have hlt : j.label < i.label :=
    (List.pairwise_append.mp (c.sorted.sublist h.sublist)).2.2 j hj i List.mem_cons_self
  have hsorted := s.ready.sorted
  rw [hs] at hjs hsorted
  rcases List.mem_cons.mp hjs with he | hjs
  · exact String.ne_of_lt hlt he
  · exact String.lt_asymm hlt (List.rel_of_pairwise_cons hsorted hjs)

end Running

theorem Queue.round_of_nil (hs : s.ready.toList = []) : s.round c t = .error .finished := by
  unfold round
  rw [hs]

theorem Queue.round_of_cons (hs : s.ready.toList = i.label :: rest) (hi : i ∈ c) :
    s.round c t = (usersAt t i.label).toList.foldlM release
      { s with ready := s.ready.tail, ordered := s.ordered ++ [i] } := by
  unfold round usersAt
  rw [hs]
  simp only [item_of_mem hi]
  cases t.at? i.label <;> rfl

theorem blocked_middle_iff : Blocked (before ++ i :: after) j ↔
    i.label ∈ j.uses ∨ Blocked (before ++ after) j := by
  unfold Blocked
  simp only [mem_middle_iff, or_and_right, exists_or, exists_eq_left]

namespace Running

section

variable (h : Running c (before ++ i :: after) s) (hs : s.ready.toList = i.label :: rest)
  (hb : ¬ Blocked (before ++ i :: after) i)
include h

theorem mem_middle : i ∈ c := h.mem_of_mem (mem_middle_iff.mpr (Or.inl rfl))

theorem mem_users_iff : u ∈ usersAt c.tables.users i.label ↔
    ∃ j ∈ c, j.label = u ∧ i.label ∈ j.uses := by
  rw [mem_users_tables, SortedBy.contains_of_mem h.mem_middle]
  simp

theorem label_mem_users_iff (hj : j ∈ c) :
    j.label ∈ (usersAt c.tables.users i.label).toList ↔ i.label ∈ j.uses := by
  rw [SortedBy.mem_toList, h.mem_users_iff]
  constructor
  · rintro ⟨k, hk, hl, hu⟩
    rwa [SortedBy.eq_of_key_eq hk hj hl] at hu
  · exact fun hu => ⟨j, hj, rfl, hu⟩

/-- The number of an item counts the label that is taken out of the queue, if the item uses it. -/
theorem blockers_middle (hj : j ∈ c) : s.blockers.at? j.label =
    some (j.uses.toList.countP (· ∈ (before ++ after).map Item.label) +
      if j.uses.contains i.label then 1 else 0) := by
  rw [h.blockers j hj, countP_middle h.nodup_labels]

/-- The numbers after a round count the labels of what still waits. -/
theorem blockers_next (hj : j ∈ c) :
    (if j.label ∈ (usersAt c.tables.users i.label).toList then
      (s.blockers.at? j.label).map (· - 1) else s.blockers.at? j.label) =
      some (j.uses.toList.countP (· ∈ (before ++ after).map Item.label)) := by
  rw [h.blockers_middle hj]
  by_cases hu : i.label ∈ j.uses
  · rw [if_pos ((h.label_mem_users_iff hj).mpr hu), if_pos (SortedBy.contains_label_iff.mpr hu)]
    rfl
  · rw [if_neg fun hl => hu ((h.label_mem_users_iff hj).mp hl),
      if_neg fun hl => hu (SortedBy.contains_label_iff.mp hl), Nat.add_zero]

/-- **Every number that is lowered is positive.** -/
theorem users_pos : ∀ u ∈ (usersAt c.tables.users i.label).toList,
    ∃ n, s.blockers.at? u = some (n + 1) := by
  intro u hu
  obtain ⟨j, hj, rfl, hju⟩ := h.mem_users_iff.mp hu
  exact ⟨_, by rw [h.blockers_middle hj, if_pos (SortedBy.contains_label_iff.mpr hju)]⟩

/-- Placed items are not blocked, so each user of a label that is taken out of the queue waits. -/
theorem mem_of_uses (hb : ¬ Blocked (before ++ i :: after) i) (hj : j ∈ c)
    (hu : i.label ∈ j.uses) : j ∈ before ++ after := by
  have hbj : Blocked (before ++ i :: after) j := blocked_middle_iff.mpr (Or.inl hu)
  rcases List.mem_append.mp (h.perm.symm.subset hj) with hj | hj
  · exact absurd hbj (h.placed j hj)
  · rcases mem_middle_iff.mp hj with rfl | hj
    · exact absurd hbj hb
    · exact hj

theorem label_ne (hj : j ∈ before ++ after) : j.label ≠ i.label := by
  have hp : ((before ++ i :: after).map Item.label).Perm
      (i.label :: (before ++ after).map Item.label) := List.perm_middle.map Item.label
  have hnot := (List.nodup_cons.mp (hp.nodup_iff.mp h.nodup_labels)).1
  exact fun he => hnot (he ▸ List.mem_map.mpr ⟨j, hj, rfl⟩)

include hs hb in
/-- What is in the queue after a round: the items not blocked by what still waits. -/
theorem ready_next : (l ∈ s.ready.tail ∨
      l ∈ (usersAt c.tables.users i.label).toList ∧ s.blockers.at? l = some 1) ↔
    ∃ j ∈ before ++ after, j.label = l ∧ ¬ Blocked (before ++ after) j := by
  constructor
  · rintro (hl | ⟨hl, hone⟩)
    · obtain ⟨j, hj, rfl, hbj⟩ := (h.ready l).mp
        ((SortedBy.mem_iff_eq_or_mem_tail hs).mpr (Or.inr hl))
      rcases mem_middle_iff.mp hj with rfl | hj
      · exact absurd hl (SortedBy.notMem_tail hs)
      · exact ⟨j, hj, rfl, fun hbl => hbj (blocked_middle_iff.mpr (Or.inr hbl))⟩
    · obtain ⟨j, hj, rfl, hu⟩ := h.mem_users_iff.mp hl
      rw [h.blockers_middle hj, if_pos (SortedBy.contains_label_iff.mpr hu), Option.some.injEq,
        Nat.add_eq_right, countP_eq_zero_iff_not_blocked] at hone
      exact ⟨j, h.mem_of_uses hb hj hu, rfl, hone⟩
  · rintro ⟨j, hj, rfl, hbj⟩
    have hjm : j ∈ before ++ i :: after := mem_middle_iff.mpr (Or.inr hj)
    have hjc : j ∈ c := h.mem_of_mem hjm
    by_cases hu : i.label ∈ j.uses
    · refine Or.inr ⟨(h.label_mem_users_iff hjc).mpr hu, ?_⟩
      rw [h.blockers_middle hjc, if_pos (SortedBy.contains_label_iff.mpr hu),
        countP_eq_zero_iff_not_blocked.mpr hbj]
    · have hready : j.label ∈ s.ready := (h.ready j.label).mpr
        ⟨j, hjm, rfl, fun hbm => (blocked_middle_iff.mp hbm).elim hu hbj⟩
      exact Or.inl (((SortedBy.mem_iff_eq_or_mem_tail hs).mp hready).resolve_left (h.label_ne hj))

include hs hb in
/-- What a round keeps. -/
theorem next (hr : Released (usersAt c.tables.users i.label).toList
      { s with ready := s.ready.tail, ordered := s.ordered ++ [i] } s') :
    Running c (before ++ after) s' := by
  have hready : ∀ l, l ∈ s'.ready ↔
      ∃ j ∈ before ++ after, j.label = l ∧ ¬ Blocked (before ++ after) j := fun l =>
    (hr.ready l).trans (h.ready_next hs hb)
  refine ⟨?_, ?_, fun j hj => ?_, fun j hj => ?_, hready, fun l => ?_, ?_⟩
  · exact (List.Sublist.append_left (List.sublist_cons_self i after) before).trans h.sublist
  · rw [hr.ordered, List.append_assoc, List.singleton_append]
    exact (List.perm_middle.symm.append_left _).trans h.perm
  · rw [hr.ordered] at hj
    have hbj : ¬ Blocked (before ++ i :: after) j := by
      rcases List.mem_append.mp hj with hj | hj
      · exact h.placed j hj
      · exact List.mem_singleton.mp hj ▸ hb
    exact fun hbl => hbj (blocked_middle_iff.mpr (Or.inr hbl))
  · exact (hr.blockers j.label).trans (h.blockers_next hj)
  · rw [hr.entered, hr.ordered, hr.ready, List.mem_append, h.entered, List.mem_filter,
      SortedBy.mem_iff_eq_or_mem_tail hs, decide_eq_true_eq, List.map_append, List.mem_append,
      List.map_singleton, List.mem_singleton]
    tauto
  · rw [hr.entered, List.nodup_append]
    refine ⟨h.nodup, (usersAt c.tables.users i.label).nodup_toList.filter _, ?_⟩
    rintro l hl _ hone rfl
    rw [List.mem_filter, decide_eq_true_eq] at hone
    exact h.notMem_entered hone.2 hl

end

/-- A round is a step of placing. -/
theorem exists_round (h : Running c is s) (hne : s.ready.toList ≠ []) :
    ∃ before i after s', is = before ++ i :: after ∧ (∀ j ∈ before, Blocked is j) ∧
      ¬ Blocked is i ∧ s.round c c.tables.users = .ok s' ∧ s'.ordered = s.ordered ++ [i] ∧
      Running c (before ++ after) s' := by
  obtain ⟨l, rest, hs⟩ := List.exists_cons_of_ne_nil hne
  obtain ⟨before, i, after, rfl, rfl, hb, hbefore⟩ := h.exists_first hs
  obtain ⟨s', hs', hr⟩ := Queue.foldlM_release
    (s := { s with ready := s.ready.tail, ordered := s.ordered ++ [i] })
    (usersAt c.tables.users i.label).nodup_toList h.users_pos
  exact ⟨before, i, after, s', rfl, hbefore, hb, (Queue.round_of_cons hs h.mem_middle).trans hs',
    hr.ordered, h.next hs hb hr⟩

/-- **The loop ends, and has placed the items one after the other.** -/
theorem exists_rounds (h : Running c is s) :
    ∃ order stuck s', rounds (Queue.round c c.tables.users) order.length s = .ok s' ∧
      s'.round c c.tables.users = .error .finished ∧ s'.ordered = s.ordered ++ order ∧
      Placing is order stuck ∧ Running c stuck s' := by
  induction hn : is.length using Nat.strong_induction_on generalizing is s with
  | _ n ih =>
    by_cases hs : s.ready.toList = []
    · exact ⟨[], is, s, rfl, Queue.round_of_nil hs, by simp, .stuck (h.blocked hs), h⟩
    · obtain ⟨before, i, after, s₁, rfl, hbefore, hb, hround, hordered, h₁⟩ := h.exists_round hs
      have hlt : (before ++ after).length < n := by
        rw [← hn, List.length_append, List.length_append, List.length_cons]
        omega
      obtain ⟨order, stuck, s', hrun, hend, ho, hp, h'⟩ := ih _ hlt h₁ rfl
      refine ⟨i :: order, stuck, s', ?_, hend, ?_, .next hbefore hb hp, h'⟩
      · rw [List.length_cons, rounds, hround]
        exact hrun
      · rw [ho, hordered, List.append_assoc, List.singleton_append]

end Running

end Catalog

end ProofTracker
