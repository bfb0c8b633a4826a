import Mathlib.Data.List.Nodup
import ProofTracker.Catalog.Order
import ProofTracker.Proofs.Catalog.Graph

/-! # Placing items one after the other

While items are placed, the number beside each waiting one is that of the labels of waiting items it
uses (`Waiting.ofItems`): this is so at the start (`waiting_eq_ofItems`) and after each step
(`map_afterPlacing`). So the next item to be placed is the first one that uses no waiting item,
which `Placing` says without numbers (`placing_place`).

The items that cannot be placed each use one of them, and items of a set in which each uses another
are never placed. So every item is placed iff no item rests on itself (`exists_linearOrder_iff`). -/

namespace ProofTracker.Catalog

/-- An item uses one of the items. -/
def Blocked (is : List Item) (i : Item) : Prop := ∃ j ∈ is, j.label ∈ i.uses

/-- The items while they wait, with the number of labels of waiting ones that each uses. -/
def Waiting.ofItems (is : List Item) : List Waiting :=
  is.map fun i => ⟨i, i.uses.toList.countP (· ∈ is.map Item.label)⟩

/-- Placing the items, always the first one that is not blocked, gives `order` and leaves
`stuck`. -/
inductive Placing : (is order stuck : List Item) → Prop
  | stuck {is : List Item} (h : ∀ i ∈ is, Blocked is i) : Placing is [] is
  | next {i : Item} {before after order stuck : List Item}
      (hbefore : ∀ j ∈ before, Blocked (before ++ i :: after) j)
      (hi : ¬ Blocked (before ++ i :: after) i) (h : Placing (before ++ after) order stuck) :
      Placing (before ++ i :: after) (i :: order) stuck

variable {c : Catalog} {i j : Item} {is order stuck before after : List Item}

/-! ### The numbers of blockers -/

theorem nodup_labels (c : Catalog) : (c.toList.map Item.label).Nodup :=
  List.pairwise_map.mpr (c.sorted.imp String.ne_of_lt)

theorem countP_contains (c : Catalog) (i : Item) :
    i.uses.toList.countP c.contains = i.uses.toList.countP (· ∈ c.toList.map Item.label) := by
  refine List.countP_congr fun l _ => ?_
  rw [SortedBy.contains_iff, decide_eq_true_eq, List.mem_map]
  rfl

theorem waiting_eq_ofItems (c : Catalog) : c.waiting = Waiting.ofItems c.toList := by
  unfold waiting Waiting.ofItems
  exact List.map_congr_left fun i _ => congrArg _ (c.countP_contains i)

theorem countP_eq_zero_iff {ls : List String} :
    i.uses.toList.countP (· ∈ ls) = 0 ↔ ∀ l ∈ ls, l ∉ i.uses := by
  rw [List.countP_eq_zero]
  simp only [decide_eq_true_eq, SortedBy.mem_toList]
  exact ⟨fun h l hl hu => h l hu hl, fun h l hu hl => h l hl hu⟩

theorem countP_eq_zero_iff_not_blocked :
    i.uses.toList.countP (· ∈ is.map Item.label) = 0 ↔ ¬ Blocked is i := by
  rw [countP_eq_zero_iff]
  unfold Blocked
  simp

/-- A further label counts once, for the items that use it. -/
theorem countP_mem_cons {l : String} {ls : List String} (hl : l ∉ ls) (i : Item) :
    i.uses.toList.countP (· ∈ l :: ls) =
      i.uses.toList.countP (· ∈ ls) + if i.uses.contains l then 1 else 0 := by
  have hd : i.uses.toList.Nodup := i.uses.sorted.imp String.ne_of_lt
  unfold SortedBy.contains
  generalize i.uses.toList = us at hd
  induction us with
  | nil => rfl
  | cons u us ih =>
    obtain ⟨hu, hd⟩ := List.nodup_cons.mp hd
    rw [List.countP_cons, List.countP_cons, ih hd, List.any_cons]
    by_cases hul : u = l
    · subst hul
      have hany : us.any (· = u) = false := List.any_eq_false.mpr fun x hx => by
        rw [decide_eq_true_eq]
        rintro rfl
        exact hu hx
      simp [hl, hany]
    · simp only [List.mem_cons, hul, false_or, decide_false, Bool.false_or]
      omega

/-- One of the items counts once, for those that use it. -/
theorem countP_middle (hd : ((before ++ i :: after).map Item.label).Nodup) (j : Item) :
    j.uses.toList.countP (· ∈ (before ++ i :: after).map Item.label) =
      j.uses.toList.countP (· ∈ (before ++ after).map Item.label) +
        if j.uses.contains i.label then 1 else 0 := by
  have hp : ((before ++ i :: after).map Item.label).Perm
      (i.label :: (before ++ after).map Item.label) := List.perm_middle.map Item.label
  have hd' : i.label ∉ (before ++ after).map Item.label :=
    (List.nodup_cons.mp (hp.nodup_iff.mp hd)).1
  rw [← countP_mem_cons hd']
  refine List.countP_congr fun l _ => ?_
  simp only [decide_eq_true_eq]
  exact hp.mem_iff

/-- After an item has been placed, the numbers of blockers are those among the others. -/
theorem map_afterPlacing (hd : ((before ++ i :: after).map Item.label).Nodup) :
    (((before ++ after).map fun j =>
      (⟨j, j.uses.toList.countP (· ∈ (before ++ i :: after).map Item.label)⟩ : Waiting)).map
        (·.afterPlacing i.label)) = Waiting.ofItems (before ++ after) := by
  unfold Waiting.ofItems
  rw [List.map_map]
  refine List.map_congr_left fun j _ => ?_
  rw [Function.comp_apply, countP_middle hd]
  unfold Waiting.afterPlacing
  by_cases hu : j.uses.contains i.label = true
  · simp only [hu, if_true, Nat.add_sub_cancel]
  · simp only [hu, if_false, Nat.add_zero, Bool.false_eq_true]

/-! ### The run of placing -/

theorem nodup_of_nodup_middle (hd : ((before ++ i :: after).map Item.label).Nodup) :
    ((before ++ after).map Item.label).Nodup :=
  hd.sublist ((List.Sublist.append_left (List.sublist_cons_self i after) before).map _)

theorem place_of_find?_eq_none {ws : List Waiting} (h : ws.find? (·.blockers = 0) = none) :
    place ws = ([], ws.map (·.item)) := by
  rw [place]
  split
  · rfl
  · next w hw => rw [h] at hw; cases hw

theorem place_of_find?_eq_some {ws : List Waiting} {w : Waiting}
    (h : ws.find? (·.blockers = 0) = some w) :
    place ws =
      let r := place ((ws.eraseP (·.blockers = 0)).map (·.afterPlacing w.item.label))
      (w.item :: r.1, r.2) := by
  rw [place]
  split
  · next hw => rw [h] at hw; cases hw
  · next w' hw =>
    rw [h] at hw
    cases hw
    rfl

/-- With the numbers at hand, the first item without a blocker is placed. -/
theorem place_ofItems_next (hd : ((before ++ i :: after).map Item.label).Nodup)
    (hbefore : ∀ j ∈ before, Blocked (before ++ i :: after) j)
    (hi : ¬ Blocked (before ++ i :: after) i) :
    place (Waiting.ofItems (before ++ i :: after)) =
      let r := place (Waiting.ofItems (before ++ after))
      (i :: r.1, r.2) := by
  let number (j : Item) : Waiting :=
    ⟨j, j.uses.toList.countP (· ∈ (before ++ i :: after).map Item.label)⟩
  have hws : Waiting.ofItems (before ++ i :: after) =
      before.map number ++ number i :: after.map number := by
    unfold Waiting.ofItems
    rw [List.map_append, List.map_cons]
  have hnum : (number i).blockers = 0 := countP_eq_zero_iff_not_blocked.mpr hi
  have hpos : ∀ w ∈ before.map number, ¬ w.blockers = 0 := by
    intro w hw h0
    obtain ⟨j, hj, rfl⟩ := List.mem_map.mp hw
    exact countP_eq_zero_iff_not_blocked.mp h0 (hbefore j hj)
  have hfind : (Waiting.ofItems (before ++ i :: after)).find? (·.blockers = 0) =
      some (number i) := by
    rw [hws, List.find?_eq_some_iff_append]
    exact ⟨by simpa using hnum, before.map number, after.map number, rfl,
      fun w hw => by simpa using hpos w hw⟩
  have herase : (Waiting.ofItems (before ++ i :: after)).eraseP (·.blockers = 0) =
      (before ++ after).map number := by
    rw [hws, List.eraseP_append_right _ fun w hw => by simpa using hpos w hw,
      List.eraseP_cons_of_pos (by simpa using hnum), List.map_append]
  rw [place_of_find?_eq_some hfind, herase]
  show (let r := place (((before ++ after).map number).map (·.afterPlacing i.label)); _) = _
  rw [map_afterPlacing hd]

theorem place_ofItems_stuck (h : ∀ i ∈ is, Blocked is i) :
    place (Waiting.ofItems is) = ([], is) := by
  rw [place_of_find?_eq_none, Waiting.ofItems, List.map_map]
  · exact congrArg _ (List.map_id is)
  · rw [List.find?_eq_none]
    intro w hw
    obtain ⟨i, hi, rfl⟩ := List.mem_map.mp hw
    rw [decide_eq_true_eq, countP_eq_zero_iff_not_blocked, not_not]
    exact h i hi

theorem placing_place {is : List Item} (hd : (is.map Item.label).Nodup) :
    Placing is (place (Waiting.ofItems is)).1 (place (Waiting.ofItems is)).2 := by
  by_cases h : ∀ i ∈ is, Blocked is i
  · rw [place_ofItems_stuck h]
    exact .stuck h
  · -- The first item that is not blocked goes next; the rest is one item shorter.
    classical
    push Not at h
    obtain ⟨i, hi, hb⟩ := h
    have hfind : (is.find? (¬ Blocked is ·)).isSome := by
      rw [List.find?_isSome]
      exact ⟨i, hi, by simpa using hb⟩
    obtain ⟨i, hi⟩ := Option.isSome_iff_exists.mp hfind
    obtain ⟨hb, before, after, rfl, hbefore⟩ := List.find?_eq_some_iff_append.mp hi
    have hb : ¬ Blocked (before ++ i :: after) i := by simpa using hb
    have hbefore : ∀ j ∈ before, Blocked (before ++ i :: after) j := by simpa using hbefore
    rw [place_ofItems_next hd hbefore hb]
    exact .next hbefore hb (placing_place (nodup_of_nodup_middle hd))
termination_by is.length

/-! ### What is placed and what is stuck -/

namespace Placing

/-- There is one way to place items. -/
theorem place_eq (h : Placing is order stuck) (hd : (is.map Item.label).Nodup) :
    place (Waiting.ofItems is) = (order, stuck) := by
  induction h with
  | stuck h => exact place_ofItems_stuck h
  | next hbefore hi _ ih =>
    rw [place_ofItems_next hd hbefore hi, ih (nodup_of_nodup_middle hd)]

theorem perm (h : Placing is order stuck) : (order ++ stuck).Perm is := by
  induction h with
  | stuck => exact .refl _
  | next _ _ _ ih => exact (ih.cons _).trans List.perm_middle.symm

/-- Each item that cannot be placed uses another such item. -/
theorem blocked (h : Placing is order stuck) : ∀ i ∈ stuck, Blocked stuck i := by
  induction h with
  | stuck h => exact h
  | next _ _ _ ih => exact ih

/-- Items each of which uses another one of them are never placed. -/
theorem mem_stuck (h : Placing is order stuck) (loop : Item → Prop)
    (hloop : ∀ i, loop i → i ∈ is ∧ ∃ j, loop j ∧ j.label ∈ i.uses) (hi : loop i) : i ∈ stuck := by
  induction h with
  | stuck => exact (hloop i hi).1
  | @next p before after _ _ _ hp _ ih =>
    -- The item that is placed is not blocked, so it is none of those in the loop.
    have hnot : ¬ loop p := fun hl => by
      obtain ⟨-, j, hj, hu⟩ := hloop p hl
      exact hp ⟨j, (hloop j hj).1, hu⟩
    refine ih fun j hj => ⟨?_, (hloop j hj).2⟩
    have hmem := (hloop j hj).1
    rw [List.mem_append, List.mem_cons] at hmem
    rcases hmem with hmem | rfl | hmem
    · exact List.mem_append_left _ hmem
    · exact absurd hj hnot
    · exact List.mem_append_right _ hmem

/-- Items of a catalog without cycles can all be placed. -/
theorem stuck_eq_nil (h : Placing is order stuck) (hsub : ∀ i ∈ is, i ∈ c) (hc : c.Acyclic) :
    stuck = [] := by
  by_contra hne
  obtain ⟨i, -, hloop⟩ := exists_restsOn_self hne
    (fun i hi => hsub i (h.perm.subset (List.mem_append_right _ hi))) h.blocked
  exact hc _ hloop

end Placing

theorem placing_waiting (c : Catalog) :
    Placing c.toList (place c.waiting).1 (place c.waiting).2 := by
  rw [waiting_eq_ofItems]
  exact placing_place c.nodup_labels

theorem mem_stuck_of_restsOn_self (hi : i ∈ c) (h : c.RestsOn i.label i.label) :
    i ∈ (place c.waiting).2 := by
  let loop (i : Item) : Prop := i ∈ c ∧ c.RestsOn i.label i.label
  refine c.placing_waiting.mem_stuck loop (fun j hj => ⟨hj.1, ?_⟩) ⟨hi, h⟩
  obtain ⟨k, hk, hu, hloop⟩ := exists_mem_uses_of_restsOn_self hj.1 hj.2
  exact ⟨k, ⟨hk, hloop⟩, hu⟩

/-- **Every item can be placed iff no item rests on itself.** -/
theorem place_snd_eq_nil_iff : (place c.waiting).2 = [] ↔ c.Acyclic := by
  constructor
  · intro hnil l hl
    obtain ⟨i, hi, rfl⟩ := exists_mem_of_restsOn hl
    have hmem := mem_stuck_of_restsOn_self hi hl
    rw [hnil] at hmem
    cases hmem
  · exact c.placing_waiting.stuck_eq_nil fun _ => id

theorem exists_linearOrder_iff : (∃ order, c.linearOrder = .ok order) ↔ c.Acyclic := by
  rw [← place_snd_eq_nil_iff]
  unfold linearOrder
  obtain ⟨order, stuck⟩ := place c.waiting
  cases stuck <;> simp

end ProofTracker.Catalog
