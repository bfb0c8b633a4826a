import ProofTracker.Proofs.Catalog.Order
import ProofTracker.Proofs.Lifecycle

/-! # Items that may be started

The items that may be started are offered in order of priority and label (`pairwise_eligible`). In a
sound catalog all of whose items are done or to be done (`AtRest`) they are the ones to be done that
use none to be done (`AtRest.mem_eligible`), and there is one as long as anything is to be done
(`AtRest.eligible_eq_nil_iff`): the items to be done can all be placed. -/

namespace ProofTracker.Catalog

variable {c : Catalog} {i j : Item} {offers : List Item}

/-! ### The order of the offers -/

theorem offeredBefore_iff :
    offeredBefore i j = true ↔
      i.priority < j.priority ∨ i.priority = j.priority ∧ i.label ≤ j.label := by
  unfold offeredBefore
  simp only [Bool.or_eq_true, Bool.and_eq_true, decide_eq_true_eq]

theorem offeredBefore_trans (i j k : Item) (hij : offeredBefore i j = true)
    (hjk : offeredBefore j k = true) : offeredBefore i k = true := by
  rw [offeredBefore_iff] at *
  rcases hij with hij | ⟨hij, hl⟩
  · rcases hjk with hjk | ⟨hjk, -⟩
    · exact Or.inl (UInt32.lt_trans hij hjk)
    · exact Or.inl (hjk ▸ hij)
  · rcases hjk with hjk | ⟨hjk, hl'⟩
    · exact Or.inl (hij ▸ hjk)
    · exact Or.inr ⟨hij.trans hjk, String.le_trans hl hl'⟩

theorem offeredBefore_total (i j : Item) : (offeredBefore i j || offeredBefore j i) = true := by
  rw [Bool.or_eq_true, offeredBefore_iff, offeredBefore_iff]
  by_cases h : i.priority = j.priority
  · rcases String.le_total i.label j.label with hl | hl
    · exact Or.inl (Or.inr ⟨h, hl⟩)
    · exact Or.inr (Or.inr ⟨h.symm, hl⟩)
  · rcases UInt32.lt_or_lt_of_ne h with hlt | hlt
    · exact Or.inl (Or.inl hlt)
    · exact Or.inr (Or.inl hlt)

theorem pairwise_eligible (c : Catalog) : c.eligible.Pairwise fun i j => offeredBefore i j = true :=
  List.pairwise_mergeSort offeredBefore_trans offeredBefore_total _

theorem mem_eligible : i ∈ c.eligible ↔ i ∈ c ∧ i.status = .todo ∧ c.usesDone i = true := by
  unfold eligible
  rw [(List.mergeSort_perm _ _).mem_iff, List.mem_filter, Bool.and_eq_true, decide_eq_true_eq]
  rfl

/-- The item is to be done, and all that it uses is there and done. -/
def Ready (c : Catalog) (i : Item) : Prop :=
  i ∈ c ∧ i.status = .todo ∧ ∀ l ∈ i.uses, ∃ j, c.get? l = some j ∧ j.status = .done

theorem mem_eligible_iff_ready : i ∈ c.eligible ↔ c.Ready i := by
  rw [mem_eligible, Catalog.usesDone_iff]
  simp only [Ready, isDone_iff]

theorem offeredBefore_of_eligible (he : c.eligible = i :: offers) (hj : j ∈ c.eligible) :
    offeredBefore i j = true := by
  have hpair := c.pairwise_eligible
  rw [he] at hj hpair
  rcases List.mem_cons.mp hj with rfl | hj
  · simpa using offeredBefore_total j j
  · exact List.rel_of_pairwise_cons hpair hj

/-! ### What is to be done -/

/-- The items that are to be done, in the order of their labels. -/
def todoItems (c : Catalog) : List Item := c.toList.filter (·.status = .todo)

/-- Nothing is underway or given up, and what is to be done can be started. -/
structure AtRest (c : Catalog) : Prop where
  sound : c.Sound
  status : ∀ i ∈ c, i.status = .done ∨ i.status = .todo ∧ i.attempts.current < i.attempts.budget

theorem mem_todoItems : i ∈ c.todoItems ↔ i ∈ c ∧ i.status = .todo := by
  unfold todoItems
  rw [List.mem_filter, decide_eq_true_eq]
  rfl

theorem todoItems_sublist (c : Catalog) : c.todoItems.Sublist c.toList := List.filter_sublist

theorem nodup_label_todoItems (c : Catalog) : (c.todoItems.map Item.label).Nodup :=
  c.nodup_labels.sublist (c.todoItems_sublist.map _)

namespace AtRest

variable (hc : c.AtRest)
include hc

theorem usesDone_iff (hi : i ∈ c) : c.usesDone i = true ↔ ¬ Blocked c.todoItems i := by
  rw [Catalog.usesDone_iff]
  constructor
  · rintro h ⟨j, hj, hu⟩
    obtain ⟨hjc, hjt⟩ := mem_todoItems.mp hj
    have hjd := (isDone_label_iff hjc).mp (h j.label hu)
    rw [hjt] at hjd
    cases hjd
  · intro hb l hl
    obtain ⟨j, hj, rfl⟩ := SortedBy.contains_iff.mp (hc.sound.closed i hi l hl)
    rcases hc.status j hj with hjd | ⟨hjt, -⟩
    · exact (isDone_label_iff hj).mpr hjd
    · exact absurd ⟨j, mem_todoItems.mpr ⟨hj, hjt⟩, hl⟩ hb

theorem mem_eligible : i ∈ c.eligible ↔ i ∈ c.todoItems ∧ ¬ Blocked c.todoItems i := by
  rw [Catalog.mem_eligible, mem_todoItems, and_assoc]
  refine and_congr_right fun hi => and_congr_right fun _ => hc.usesDone_iff hi

theorem exists_placing : ∃ order, Placing c.todoItems order [] := by
  have hp := placing_place c.nodup_label_todoItems
  have hst := hp.stuck_eq_nil (fun i hi => (mem_todoItems.mp hi).1) hc.sound.acyclic
  rw [hst] at hp
  exact ⟨_, hp⟩

/-- As long as something is to be done, something may be started. -/
theorem eligible_eq_nil_iff : c.eligible = [] ↔ c.todoItems = [] := by
  constructor
  · intro hnil
    obtain ⟨order, hp⟩ := hc.exists_placing
    generalize hw : c.todoItems = is at hp
    cases hp with
    | stuck _ => rfl
    | @next i before after _ _ hbefore hi _ =>
      have hmem : i ∈ c.eligible := hc.mem_eligible.mpr (by rw [hw]; exact ⟨by simp, hi⟩)
      rw [hnil] at hmem
      cases hmem
  · intro hnil
    refine List.eq_nil_iff_forall_not_mem.mpr fun i hi => ?_
    have hit := (hc.mem_eligible.mp hi).1
    rw [hnil] at hit
    cases hit

end AtRest

end ProofTracker.Catalog
