import ProofTracker.Proofs.Catalog.Cycle
import ProofTracker.Proofs.Catalog.Reach

/-! # What is named when there is no linear order

Dropping the items that none of them uses ends when each item left is used by one of them
(`used_peel`), and then each still uses one of them (`blocked_peel`). Among finitely many items,
going on from user to user ends in a cycle, and so does going the other way, so whatever is left
lies on a way from a cycle to a cycle (`between_of_mem_peel`). An item on such a way is used by one
on it and uses one on it, so it is neither placed nor dropped (`mem_peel_of_between`). The complaint
about a catalog therefore names the labels between cycles (`linearOrder_error`). These need not be
on a cycle themselves (`linearOrder_error_off_cycle`). -/

namespace ProofTracker.Catalog

/-- The label is met on a way through known labels that begins and ends on cycles. -/
def Between (c : Catalog) (l : String) : Prop :=
  ∃ a b, Relation.TransGen c.KnownUses a a ∧ Relation.ReflTransGen c.KnownUses a l ∧
    Relation.ReflTransGen c.KnownUses l b ∧ Relation.TransGen c.KnownUses b b

variable {c : Catalog} {i j : Item} {stuck : List Item} {l m : String} {e : Error}

/-! ### The end of dropping -/

theorem used_eq_self_iff : used stuck = stuck ↔ ∀ i ∈ stuck, ∃ j ∈ stuck, i.label ∈ j.uses := by
  constructor
  · intro h i hi
    rw [← h] at hi
    exact (mem_used.mp hi).2
  · intro h
    unfold used
    rw [List.filter_eq_self]
    intro i hi
    simpa using h i hi

theorem used_peel (stuck : List Item) : used (peel stuck) = peel stuck := by
  induction stuck using peel.induct with
  | case1 stuck hlt ih =>
    rw [peel, if_pos hlt]
    exact ih
  | case2 stuck hlt =>
    rw [peel, if_neg hlt]
    exact (used_sublist stuck).eq_of_length_le (Nat.not_lt.mp hlt)

theorem peel_eq_self (h : used stuck = stuck) : peel stuck = stuck := by
  rw [peel, h, if_neg (Nat.lt_irrefl _)]

theorem blocked_peel (hb : ∀ i ∈ stuck, Blocked stuck i) :
    ∀ i ∈ peel stuck, Blocked (peel stuck) i := by
  induction stuck using peel.induct with
  | case1 stuck hlt ih =>
    rw [peel, if_pos hlt]
    exact ih (blocked_used hb)
  | case2 stuck hlt =>
    rw [peel, if_neg hlt]
    exact hb

/-! ### Ways between cycles -/

theorem knownUses_label_iff (hi : i ∈ c) (hj : j ∈ c) :
    c.KnownUses i.label j.label ↔ j.label ∈ i.uses := by
  unfold KnownUses
  rw [uses_label_iff hi, and_iff_left (SortedBy.contains_of_mem hj)]

theorem Between.exists_used (h : c.Between l) : ∃ m, c.Between m ∧ c.KnownUses l m := by
  obtain ⟨a, b, ha, hal, hlb, hb⟩ := h
  obtain ⟨m, hlm, hmb⟩ := Relation.TransGen.head'_iff.mp (.trans_right hlb hb)
  exact ⟨m, ⟨a, b, ha, hal.tail hlm, hmb, hb⟩, hlm⟩

theorem Between.exists_user (h : c.Between l) : ∃ m, c.Between m ∧ c.KnownUses m l := by
  obtain ⟨a, b, ha, hal, hlb, hb⟩ := h
  obtain ⟨m, ham, hml⟩ := Relation.TransGen.tail'_iff.mp (.trans_left ha hal)
  exact ⟨m, ⟨a, b, ha, ham, .head hml hlb, hb⟩, hml⟩

theorem Between.exists_mem (h : c.Between l) : ∃ i ∈ c, i.label = l := by
  obtain ⟨m, -, -, hl⟩ := h.exists_user
  exact SortedBy.contains_iff.mp hl

/-! ### What is left of a catalog -/

/-- An item between cycles can neither be placed nor dropped. -/
theorem mem_peel_of_between (hi : i ∈ c) (h : c.Between i.label) :
    i ∈ peel (place c.waiting).2 := by
  let loop (i : Item) : Prop := i ∈ c ∧ c.Between i.label
  have hstuck : ∀ i, loop i → i ∈ (place c.waiting).2 := by
    refine fun i hi => c.placing_waiting.mem_stuck loop (fun j hj => ⟨hj.1, ?_⟩) hi
    obtain ⟨m, hm, hu⟩ := hj.2.exists_used
    obtain ⟨k, hk, rfl⟩ := hm.exists_mem
    exact ⟨k, ⟨hk, hm⟩, (knownUses_label_iff hj.1 hk).mp hu⟩
  refine mem_peel (fun j hj => ?_) hstuck ⟨hi, h⟩
  obtain ⟨m, hm, hu⟩ := hj.2.exists_user
  obtain ⟨k, hk, rfl⟩ := hm.exists_mem
  exact ⟨k, ⟨hk, hm⟩, (knownUses_label_iff hk hj.1).mp hu⟩

theorem between_of_mem_peel (hc : ∀ i ∈ stuck, i ∈ c) (hb : ∀ i ∈ stuck, Blocked stuck i)
    (hi : i ∈ peel stuck) : c.Between i.label := by
  have hmem : ∀ i ∈ peel stuck, i ∈ c := fun i hi => hc i ((peel_sublist stuck).subset hi)
  have hl : i.label ∈ (peel stuck).map Item.label := List.mem_map.mpr ⟨i, hi, rfl⟩
  have hahead : ∀ l ∈ (peel stuck).map Item.label, ∃ m ∈ (peel stuck).map Item.label,
      c.KnownUses l m := by
    intro l hl
    obtain ⟨j, hj, rfl⟩ := List.mem_map.mp hl
    obtain ⟨k, hk, hu⟩ := blocked_peel hb j hj
    exact ⟨_, List.mem_map.mpr ⟨k, hk, rfl⟩, (knownUses_label_iff (hmem j hj) (hmem k hk)).mpr hu⟩
  have hback : ∀ l ∈ (peel stuck).map Item.label, ∃ m ∈ (peel stuck).map Item.label,
      Function.swap c.KnownUses l m := by
    intro l hl
    obtain ⟨j, hj, rfl⟩ := List.mem_map.mp hl
    obtain ⟨k, hk, hu⟩ := used_eq_self_iff.mp (used_peel stuck) j hj
    exact ⟨_, List.mem_map.mpr ⟨k, hk, rfl⟩, (knownUses_label_iff (hmem k hk) (hmem j hj)).mpr hu⟩
  obtain ⟨a, -, hal, ha⟩ := exists_transGen_self hl hback
  obtain ⟨b, -, hlb, hb⟩ := exists_transGen_self hl hahead
  exact ⟨a, b, Relation.transGen_swap.mp ha, Relation.reflTransGen_swap.mp hal, hlb, hb⟩

theorem mem_cycle_iff {ls : List String} (h : c.linearOrder = .error (.cycle ls)) :
    l ∈ ls ↔ c.Between l := by
  obtain ⟨-, heq⟩ := linearOrder_eq_error_iff.mp h
  obtain rfl := Error.cycle.inj heq
  have hp := c.placing_waiting
  constructor
  · intro hl
    obtain ⟨i, hi, rfl⟩ := List.mem_map.mp hl
    exact between_of_mem_peel (fun _ hj => hp.sublist.subset hj) hp.blocked hi
  · intro hl
    obtain ⟨i, hi, rfl⟩ := hl.exists_mem
    exact List.mem_map.mpr ⟨i, mem_peel_of_between hi hl, rfl⟩

/-- **The complaint about a catalog names the labels on the ways between cycles**, each once and in
ascending order. -/
theorem linearOrder_error (h : c.linearOrder = .error e) :
    ∃ ls, e = .cycle ls ∧ ls.Pairwise (· < ·) ∧ ∀ l, l ∈ ls ↔ c.Between l := by
  obtain ⟨-, rfl⟩ := linearOrder_eq_error_iff.mp h
  have hsub := (peel_sublist _).trans c.placing_waiting.sublist
  exact ⟨_, rfl, List.pairwise_map.mpr (c.sorted.sublist hsub), fun l => mem_cycle_iff h⟩

/-- Two items on cycles of their own, with `x` on the way from one to the other, one that rests on
them and one that they rest on. -/
theorem linearOrder_error_bridge :
    let item (l : String) (uses : LabelSet) : Item :=
      { label := l, kind := .lem, uses, attempts := .fresh 1 }
    let c : Catalog := .ofList [item "a" (.ofList ["a", "f"]), item "c" (.ofList ["c", "x"]),
      item "f" ∅, item "t" {"c"}, item "x" {"a"}]
    ∃ e, c.linearOrder = .error e ∧
      ∃ ls, e = .cycle ls ∧ ls.Pairwise (· < ·) ∧ ∀ l, l ∈ ls ↔ c.Between l := by
  intro item c
  have hstuck : (place c.waiting).2 ≠ [] := by decide +kernel
  have he := linearOrder_eq_error_iff.mpr ⟨hstuck, rfl⟩
  exact ⟨_, he, linearOrder_error he⟩

/-- An item that is named without being on a cycle: its label is not among its ancestors. -/
theorem linearOrder_error_off_cycle :
    let item (l : String) (uses : LabelSet) : Item :=
      { label := l, kind := .lem, uses, attempts := .fresh 1 }
    let c : Catalog := .ofList [item "a" {"a"}, item "c" (.ofList ["c", "x"]), item "x" {"a"}]
    c.linearOrder = .error (.cycle ["a", "c", "x"]) ∧ ¬ Relation.TransGen c.KnownUses "x" "x" := by
  intro item c
  have hstuck : (place c.waiting).2 = c.toList := by decide +kernel
  have hpeel : peel c.toList = c.toList := by
    refine peel_eq_self (used_eq_self_iff.mpr ?_)
    simp only [← SortedBy.mem_toList]
    decide +kernel
  constructor
  · rw [linearOrder_eq_error_iff, hstuck, hpeel]
    decide +kernel
  · rw [transGen_knownUses_self_iff, ← mem_ancestors, ← SortedBy.mem_toList]
    decide +kernel

end ProofTracker.Catalog
