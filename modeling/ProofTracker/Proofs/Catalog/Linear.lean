import Mathlib.Data.List.Perm.Basic
import ProofTracker.Proofs.Catalog.Order

/-! # Linear orders

A list of labels is a linear order of items if it has the label of each item once, behind the labels
of those of the items that it uses (`Linear`). It begins with an item that is not blocked and goes
on with a linear order of the others (`linear_cons_iff`), so what is found by placing is a linear
order (`Placing.linear`). Any other one has, where it departs from this one for the first time, a
greater label, since placing takes the first item that is not blocked (`Placing.eq_or_lex`). -/

namespace ProofTracker.Catalog

/-- The labels are those of the items, and each stands behind the labels that its item uses. -/
structure Linear (is : List Item) (ls : List String) : Prop where
  perm : ls.Perm (is.map Item.label)
  behind : ∀ front l rest, ls = front ++ l :: rest →
    ∀ i ∈ is, i.label = l → ∀ j ∈ is, j.label ∈ i.uses → j.label ∈ front

variable {c : Catalog} {i j : Item} {is order before after : List Item} {l m : String}
  {ls front rest : List String}

/-! ### The first label -/

theorem mem_middle_iff : j ∈ before ++ i :: after ↔ j = i ∨ j ∈ before ++ after := by
  rw [List.perm_middle.mem_iff, List.mem_cons]

/-- A linear order begins with an item that is not blocked. -/
theorem linear_cons_iff (hd : ((before ++ i :: after).map Item.label).Nodup) :
    Linear (before ++ i :: after) (i.label :: ls) ↔
      ¬ Blocked (before ++ i :: after) i ∧ Linear (before ++ after) ls := by
  have hp : ((before ++ i :: after).map Item.label).Perm
      (i.label :: (before ++ after).map Item.label) := List.perm_middle.map Item.label
  have hnot : i.label ∉ (before ++ after).map Item.label :=
    (List.nodup_cons.mp (hp.nodup_iff.mp hd)).1
  constructor
  · intro h
    refine ⟨?_, ?_, ?_⟩
    · rintro ⟨j, hj, hu⟩
      exact List.not_mem_nil (h.behind [] _ _ rfl i (by simp) rfl j hj hu)
    · exact (h.perm.trans hp).cons_inv
    · intro front l rest hls k hk hl j hj hu
      have hmem := h.behind (i.label :: front) l rest (by rw [hls]; rfl) k
        (mem_middle_iff.mpr (Or.inr hk)) hl j (mem_middle_iff.mpr (Or.inr hj)) hu
      rcases List.mem_cons.mp hmem with he | hmem
      · exact absurd (List.mem_map.mpr ⟨j, hj, he⟩) hnot
      · exact hmem
  · rintro ⟨hb, h⟩
    refine ⟨(h.perm.cons _).trans hp.symm, ?_⟩
    intro front l rest hls k hk hl j hj hu
    cases front with
    | nil =>
      obtain ⟨he, -⟩ := List.cons.inj hls
      have hki : k = i := List.inj_on_of_nodup_map hd hk (by simp) (hl.trans he.symm)
      exact absurd ⟨j, hj, hki ▸ hu⟩ hb
    | cons m front =>
      obtain rfl : i.label = m := (List.cons.inj hls).1
      replace hls : ls = front ++ l :: rest := (List.cons.inj hls).2
      -- The label `l` is one of the others, so its item is.
      have hli : l ∈ (before ++ after).map Item.label := h.perm.subset (by rw [hls]; simp)
      have hk : k ∈ before ++ after := by
        rcases mem_middle_iff.mp hk with rfl | hk
        · exact absurd (hl ▸ hli) hnot
        · exact hk
      rcases mem_middle_iff.mp hj with rfl | hj
      · exact List.mem_cons_self
      · exact List.mem_cons_of_mem _ (h.behind front l rest hls k hk hl j hj hu)

theorem linear_nil : Linear [] [] := ⟨.refl _, fun _ _ _ _ _ hi => absurd hi List.not_mem_nil⟩

/-! ### Placing gives the least one -/

theorem Placing.linear (h : Placing is order []) (hd : (is.map Item.label).Nodup) :
    Linear is (order.map Item.label) := by
  generalize hs : ([] : List Item) = stuck at h
  induction h with
  | stuck _ => subst hs; exact linear_nil
  | next _ hi _ ih => exact (linear_cons_iff hd).mpr ⟨hi, ih (nodup_of_nodup_middle hd) hs⟩

/-- Any other linear order is greater where it departs from the one found by placing. -/
theorem Placing.eq_or_lex (h : Placing is order [])
    (hs : is.Pairwise fun i j => i.label < j.label) (hls : Linear is ls) :
    ls = order.map Item.label ∨ List.Lex (· < ·) (order.map Item.label) ls := by
  generalize hst : ([] : List Item) = stuck at h
  induction h generalizing ls with
  | stuck _ =>
    subst hst
    exact Or.inl (List.perm_nil.mp hls.perm)
  | @next i before after order stuck hbefore hi _ ih =>
    have hd : ((before ++ i :: after).map Item.label).Nodup :=
      List.pairwise_map.mpr (hs.imp String.ne_of_lt)
    obtain _ | ⟨m, ls⟩ := ls
    · have := hls.perm.length_eq
      simp at this
    obtain ⟨j, hj, rfl⟩ := List.mem_map.mp (hls.perm.subset List.mem_cons_self)
    rcases List.mem_append.mp hj with hj' | hj'
    · -- An item before the one that is placed is blocked, so no linear order begins with it.
      obtain ⟨k, hk, hu⟩ := hbefore j hj'
      exact absurd (hls.behind [] _ _ rfl j hj rfl k hk hu) List.not_mem_nil
    rcases List.mem_cons.mp hj' with rfl | hj'
    · have hs' : (before ++ after).Pairwise fun i j => i.label < j.label :=
        hs.sublist (List.Sublist.append_left (List.sublist_cons_self _ _) _)
      rcases ih hs' ((linear_cons_iff hd).mp hls).2 hst with h | h
      · exact Or.inl (by rw [h]; rfl)
      · exact Or.inr (.cons h)
    · have hlt : i.label < j.label :=
        List.rel_of_pairwise_cons (List.pairwise_append.mp hs).2.1 hj'
      exact Or.inr (.rel hlt)

/-! ### What an item rests on -/

/-- A label of the order stands behind all that it rests on, not only behind what it uses. -/
theorem Linear.mem_front (h : Linear c.toList ls) (hls : ls = front ++ l :: rest)
    (hrest : Relation.TransGen c.KnownUses l m) : m ∈ front := by
  have hstep : ∀ {a b front rest}, ls = front ++ a :: rest → c.KnownUses a b → b ∈ front := by
    rintro a b front rest hls ⟨⟨i, hi, hl, hu⟩, hb⟩
    obtain ⟨j, hj, rfl⟩ := SortedBy.contains_iff.mp hb
    exact h.behind front a rest hls i hi hl j hj hu
  induction hrest with
  | single hu => exact hstep hls hu
  | tail _ hu ih =>
    -- What stands behind a label in front of `l` stands in front of `l`.
    obtain ⟨front₁, front₂, rfl⟩ := List.append_of_mem ih
    rw [List.append_assoc, List.cons_append] at hls
    exact List.mem_append_left _ (hstep hls hu)

/-! ### The linear order of a catalog -/

theorem linearOrder_eq_ok_iff :
    c.linearOrder = .ok order ↔ (place c.waiting).1 = order ∧ (place c.waiting).2 = [] := by
  unfold linearOrder
  obtain ⟨placed, stuck⟩ := place c.waiting
  cases stuck <;> simp

theorem placing_of_linearOrder (h : c.linearOrder = .ok order) : Placing c.toList order [] := by
  obtain ⟨rfl, hst⟩ := linearOrder_eq_ok_iff.mp h
  have hp := c.placing_waiting
  rwa [hst] at hp

theorem Placing.linearOrder_eq_ok (h : Placing c.toList order []) : c.linearOrder = .ok order := by
  have hplace := h.place_eq c.nodup_labels
  rw [← waiting_eq_ofItems] at hplace
  exact linearOrder_eq_ok_iff.mpr (by rw [hplace]; exact ⟨rfl, rfl⟩)

theorem linear_of_linearOrder (h : c.linearOrder = .ok order) :
    Linear c.toList (order.map Item.label) :=
  (placing_of_linearOrder h).linear c.nodup_labels

/-- **The linear order of a catalog without cycles is the least one** of all that list each label
once and behind the known labels that its item uses. -/
theorem linearOrder_least (hc : ∀ l, ¬ Relation.TransGen c.KnownUses l l) :
    ∃ order, c.linearOrder = .ok order ∧ Linear c.toList (order.map Item.label) ∧
      ∀ ls, Linear c.toList ls →
        ls = order.map Item.label ∨ List.Lex (· < ·) (order.map Item.label) ls := by
  obtain ⟨order, ho⟩ := exists_linearOrder_iff.mpr (acyclic_iff_knownUses.mpr hc)
  exact ⟨order, ho, linear_of_linearOrder ho,
    fun ls hls => (placing_of_linearOrder ho).eq_or_lex c.sorted hls⟩

/-- A label without an item, and a first label that has to wait for the last one. -/
theorem linearOrder_least_waiting :
    let item (l : String) (uses : LabelSet) : Item :=
      { label := l, kind := .lem, uses, attempts := .fresh 1 }
    let c : Catalog := .ofList
      [item "a" {"d"}, item "b" {"ghost"}, item "c" (.ofList ["b", "d"]), item "d" ∅]
    (∀ l, ¬ Relation.TransGen c.KnownUses l l) ∧
    ∃ order, c.linearOrder = .ok order ∧ order.map Item.label = ["b", "d", "a", "c"] ∧
      ∀ ls, Linear c.toList ls →
        ls = ["b", "d", "a", "c"] ∨ List.Lex (· < ·) ["b", "d", "a", "c"] ls := by
  intro item c
  let order := [item "b" {"ghost"}, item "d" ∅, item "a" {"d"}, item "c" (.ofList ["b", "d"])]
  have ho : c.linearOrder = .ok order := by decide +kernel
  have hc : ∀ l, ¬ Relation.TransGen c.KnownUses l l :=
    acyclic_iff_knownUses.mp (exists_linearOrder_iff.mp ⟨order, ho⟩)
  obtain ⟨order', ho', -, hleast⟩ := linearOrder_least hc
  obtain rfl : order' = order := Except.ok.inj (ho'.symm.trans ho)
  exact ⟨hc, order, ho, rfl, hleast⟩

end ProofTracker.Catalog
