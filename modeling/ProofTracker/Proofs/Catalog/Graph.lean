import Mathlib.Data.Fintype.Card
import Mathlib.Data.Fintype.EquivFin
import Mathlib.Data.Fintype.Sets
import Mathlib.Logic.Relation
import ProofTracker.Catalog.Basic
import ProofTracker.Proofs.Sorted

/-! # The graph of dependencies

The label of an item leads to the labels that the item uses (`Uses`), and rests on those that are
reached in one step or more (`RestsOn`). A label rests on itself iff it lies on a cycle. All labels
on a cycle belong to items, so labels without an item play no part in cycles
(`acyclic_iff_knownUses`). If each of some items uses the label of one of them, then they hold a
cycle (`exists_restsOn_self`). -/

namespace ProofTracker.Catalog

/-- An item with the label `a` uses the label `b`. -/
def Uses (c : Catalog) (a b : String) : Prop := ∃ i ∈ c, i.label = a ∧ b ∈ i.uses

/-- An item with the label `a` uses the label `b`, itself or through others. -/
def RestsOn (c : Catalog) : String → String → Prop := Relation.TransGen c.Uses

/-- No item rests on itself. -/
def Acyclic (c : Catalog) : Prop := ∀ l, ¬ c.RestsOn l l

variable {c : Catalog} {i j : Item} {a b l : String} {is : List Item}

theorem uses_label_iff (hi : i ∈ c) : c.Uses i.label l ↔ l ∈ i.uses := by
  constructor
  · rintro ⟨j, hj, hl, h⟩
    rwa [SortedBy.eq_of_key_eq hj hi hl] at h
  · exact fun h => ⟨i, hi, rfl, h⟩

theorem uses_iff_get? : c.Uses a b ↔ ∃ i, c.get? a = some i ∧ b ∈ i.uses := by
  constructor
  · rintro ⟨i, hi, rfl, h⟩
    exact ⟨i, SortedBy.get?_of_mem hi, h⟩
  · rintro ⟨i, hi, h⟩
    obtain ⟨hm, hl⟩ := SortedBy.get?_eq_some_iff.mp hi
    exact ⟨i, hm, hl, h⟩

theorem Acyclic.notMem_uses (hc : c.Acyclic) (hi : i ∈ c) : i.label ∉ i.uses := fun h =>
  hc i.label (.single ((uses_label_iff hi).mpr h))

/-! ### Putting an item in -/

theorem uses_insert : Uses (c.insert i) a b ↔ if i.label = a then b ∈ i.uses else c.Uses a b := by
  rw [uses_iff_get?, uses_iff_get?, SortedBy.get?_insert]
  split_ifs with h
  · simp
  · rfl

/-- An item in place of one that uses the same labels leads nowhere else. -/
theorem uses_insert_of_uses_eq (hi : i ∈ c) (hl : j.label = i.label) (hu : j.uses = i.uses) :
    Uses (c.insert j) = c.Uses := by
  funext a b
  rw [uses_insert]
  split_ifs with h
  · rw [← h, hl, uses_label_iff hi, hu]
  · rfl

theorem acyclic_insert_of_uses_eq (hi : i ∈ c) (hl : j.label = i.label) (hu : j.uses = i.uses) :
    Acyclic (c.insert j) ↔ c.Acyclic := by
  unfold Acyclic RestsOn
  rw [uses_insert_of_uses_eq hi hl hu]

/-! ### Cycles -/

/-- Where each member of a list leads to a member, each leads to one that leads back to itself:
otherwise one of those that it leads to would lead to no other. -/
theorem exists_transGen_self {α : Type} {r : α → α → Prop} {xs : List α} {x : α} (hx : x ∈ xs)
    (hr : ∀ a ∈ xs, ∃ b ∈ xs, r a b) :
    ∃ y ∈ xs, Relation.ReflTransGen r x y ∧ Relation.TransGen r y y := by
  classical
  by_contra hno
  push Not at hno
  let ahead : Type := {a : {a // a ∈ xs} // Relation.ReflTransGen r x a.1}
  let below : ahead → ahead → Prop := fun a b => Relation.TransGen r b.1.1 a.1.1
  have : Finite ahead := Subtype.finite
  have : IsTrans _ below := ⟨fun _ _ _ hab hbc => hbc.trans hab⟩
  have : Std.Irrefl below := ⟨fun a => hno a.1.1 a.1.2 a.2⟩
  have hwf : WellFounded below := Finite.wellFounded_of_trans_of_irrefl below
  refine hwf.induction (C := fun _ => False) ⟨⟨x, hx⟩, .refl⟩ fun a ih => ?_
  obtain ⟨b, hb, hab⟩ := hr a.1.1 a.1.2
  exact ih ⟨⟨b, hb⟩, a.2.tail hab⟩ (.single hab)

/-- Items each of which uses one of them hold an item that rests on itself. -/
theorem exists_restsOn_self (hne : is ≠ []) (hc : ∀ i ∈ is, i ∈ c)
    (hb : ∀ i ∈ is, ∃ j ∈ is, j.label ∈ i.uses) : ∃ i ∈ is, c.RestsOn i.label i.label := by
  obtain ⟨i, hi⟩ := List.exists_mem_of_ne_nil is hne
  have hr : ∀ i ∈ is, ∃ j ∈ is, c.Uses i.label j.label := fun i hi =>
    (hb i hi).imp fun _ h => ⟨h.1, (uses_label_iff (hc i hi)).mpr h.2⟩
  obtain ⟨j, hj, -, hloop⟩ := exists_transGen_self hi hr
  exact ⟨j, hj, hloop.lift Item.label fun _ _ => id⟩

/-- An item that rests on itself uses another one that does. -/
theorem exists_mem_uses_of_restsOn_self (hi : i ∈ c) (h : c.RestsOn i.label i.label) :
    ∃ j ∈ c, j.label ∈ i.uses ∧ c.RestsOn j.label j.label := by
  obtain ⟨l, hl, hrest⟩ := Relation.TransGen.head'_iff.mp h
  have hloop : c.RestsOn l l := Relation.TransGen.tail' hrest hl
  obtain ⟨m, ⟨j, hj, rfl, -⟩, -⟩ := Relation.TransGen.head'_iff.mp hloop
  exact ⟨j, hj, (uses_label_iff hi).mp hl, hloop⟩

theorem exists_mem_of_restsOn (h : c.RestsOn a b) : ∃ i ∈ c, i.label = a := by
  obtain ⟨l, ⟨i, hi, hl, -⟩, -⟩ := Relation.TransGen.head'_iff.mp h
  exact ⟨i, hi, hl⟩

theorem exists_uses_of_restsOn (h : c.RestsOn a b) : ∃ m, c.Uses m b := by
  obtain ⟨m, -, hm⟩ := Relation.TransGen.tail'_iff.mp h
  exact ⟨m, hm⟩

/-- An item that rests on itself is used by another one that does. -/
theorem exists_user_of_restsOn_self (h : c.RestsOn l l) :
    ∃ j ∈ c, c.RestsOn j.label j.label ∧ l ∈ j.uses := by
  obtain ⟨m, hrest, j, hj, rfl, hu⟩ := Relation.TransGen.tail'_iff.mp h
  have hstep : c.Uses j.label l := ⟨j, hj, rfl, hu⟩
  exact ⟨j, hj, Relation.TransGen.head' hstep hrest, hu⟩

/-! ### Known labels -/

/-- An item with the label `a` uses the label `b`, which belongs to an item too. -/
def KnownUses (c : Catalog) (a b : String) : Prop := c.Uses a b ∧ c.contains b = true

/-- Whatever leads further belongs to an item, so labels without an item are only met at the end. -/
theorem transGen_knownUses_iff :
    Relation.TransGen c.KnownUses a b ↔ c.RestsOn a b ∧ c.contains b = true := by
  constructor
  · intro h
    refine ⟨Relation.TransGen.mono (fun _ _ hstep => hstep.1) _ _ h, ?_⟩
    obtain ⟨-, -, -, hb⟩ := Relation.TransGen.tail'_iff.mp h
    exact hb
  · rintro ⟨h, hb⟩
    induction h with
    | single hstep => exact .single ⟨hstep, hb⟩
    | tail _ hstep ih =>
      obtain ⟨i, hi, rfl, -⟩ := id hstep
      exact (ih (SortedBy.contains_of_mem hi)).tail ⟨hstep, hb⟩

theorem transGen_knownUses_self_iff : Relation.TransGen c.KnownUses l l ↔ c.RestsOn l l := by
  rw [transGen_knownUses_iff, and_iff_left_iff_imp]
  intro h
  obtain ⟨i, hi, rfl⟩ := exists_mem_of_restsOn h
  exact SortedBy.contains_of_mem hi

theorem acyclic_iff_knownUses : c.Acyclic ↔ ∀ l, ¬ Relation.TransGen c.KnownUses l l :=
  forall_congr' fun _ => not_congr transGen_knownUses_self_iff.symm

end ProofTracker.Catalog
