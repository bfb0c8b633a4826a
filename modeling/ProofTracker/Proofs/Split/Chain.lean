import ProofTracker.Proofs.Blueprint.Put
import ProofTracker.Proofs.Catalog.Interpose
import ProofTracker.Proofs.Split.Labels

/-! # Chains of steps

A chain is put into a catalog item by item. Each step but for the target's own is put between the
target and what the target would use without it, so a sound catalog stays sound all the way
(`Sound.insert_chain`): the steps are new, and neither they nor the target are done. Nothing changes
among the old labels; a step leads where the target led and to the steps before it, and whatever
leads to the target leads to all steps (`restsOn_insert_chain_iff`). -/

namespace ProofTracker.Catalog

variable {c : Catalog} {t i : Item} {n : UInt32} {u : LabelSet} {p : String × Step} {l : String}
  {a b : String} {s : Step}
  {ls : List (String × Step)} {k : Nat}

/-- The target of a split, set back to the start over the given labels. -/
def restart (t : Item) (u : LabelSet) : Item :=
  { t with uses := u, status := .todo, attempts := .fresh t.attempts.budget }

/-- The item for a step of a split. -/
def stepItem (t : Item) (n : UInt32) (u : LabelSet) (p : String × Step) : Item :=
  .fresh p.1 (p.2.kind.getD .lem) n u p.2.statement p.2.proof t.priority none

/-! ### The items of a chain -/

theorem chain_cons : chain t n u (p :: ls) = stepItem t n u p :: chain t n {p.1} ls := rfl

theorem map_label_chain : (chain t n u ls).map Item.label = ls.map Prod.fst ++ [t.label] := by
  induction ls generalizing u with
  | nil => rfl
  | cons p ls ih => rw [chain_cons, List.map_cons, ih]; rfl

theorem mem_chain (h : i ∈ chain t n u ls) :
    (∃ u', i = restart t u') ∨ ∃ p ∈ ls, ∃ u', i = stepItem t n u' p := by
  induction ls generalizing u with
  | nil => exact Or.inl ⟨u, List.mem_singleton.mp h⟩
  | cons p ls ih =>
    rcases List.mem_cons.mp h with rfl | h
    · exact Or.inr ⟨p, List.mem_cons_self, u, rfl⟩
    · rcases ih h with h | ⟨q, hq, h⟩
      · exact Or.inl h
      · exact Or.inr ⟨q, List.mem_cons_of_mem _ hq, h⟩

/-- The first step rests on the given labels and each other one on the step before it. -/
theorem stepItem_mem_chain (h : ls[k]? = some p) :
    ∃ u', stepItem t n u' p ∈ chain t n u ls ∧ (k = 0 → u' = u) ∧
      ∀ j q, k = j + 1 → ls[j]? = some q → u' = {q.1} := by
  induction ls generalizing u k with
  | nil => simp at h
  | cons p' ls ih =>
    rw [chain_cons]
    cases k with
    | zero =>
      obtain rfl : p' = p := Option.some.inj h
      exact ⟨u, List.mem_cons_self, fun _ => rfl, fun j q hj => by omega⟩
    | succ k =>
      obtain ⟨u', hmem, hfirst, hlater⟩ := ih (u := {p'.1}) (k := k) h
      refine ⟨u', List.mem_cons_of_mem _ hmem, fun h0 => by omega, fun j q hj hq => ?_⟩
      obtain rfl : k = j := by omega
      cases k with
      | zero =>
        obtain rfl : p' = q := Option.some.inj hq
        exact hfirst rfl
      | succ k => exact hlater k q rfl hq

/-- The target rests on the last step. -/
theorem restart_mem_chain (h : ls.getLast? = some p) :
    restart t {p.1} ∈ chain t n u ls := by
  induction ls generalizing u with
  | nil => simp at h
  | cons p' ls ih =>
    rw [chain_cons]
    refine List.mem_cons_of_mem _ ?_
    cases ls with
    | nil =>
      obtain rfl : p' = p := Option.some.inj h
      exact List.mem_singleton.mpr rfl
    | cons q ls => exact ih (by rwa [List.getLast?_cons_cons] at h)

theorem normalize_restart (hn : t.normalize = t) : (restart t u).normalize = restart t u := by
  show restart t.normalize u = restart t u
  rw [hn]

theorem admissible_restart (ht : t.Admissible) (u : LabelSet) :
    (restart t u).normalize.Admissible := by
  rw [normalize_restart ht.normalize]
  exact { ht with budget := UInt32.zero_le }

theorem admissible_stepItem (hp : Label.Valid p.1) (t : Item) (n : UInt32) (u : LabelSet) :
    (stepItem t n u p).normalize.Admissible := by
  have hn := Item.normalize_eq_self_iff.mp (stepItem t n u p).normalize_normalize
  exact ⟨hp, UInt32.zero_le, hn.2.1, hn.2.2, hn.1, fun x hx => by cases hx⟩

/-! ### Putting a chain in -/

/-- The next step goes between the target and what the target would use without it. -/
theorem interpose_restart :
    Catalog.interpose (c.insert (restart t u)) (restart t u) (stepItem t n u p).normalize =
      (c.insert (stepItem t n u p).normalize).insert (restart t {p.1}) :=
  SortedBy.insert_insert_insert c (stepItem t n u p).normalize rfl

theorem restart_mem_insert : restart t u ∈ SortedBy.insert c (restart t u) :=
  SortedBy.mem_insert.mpr (Or.inl rfl)

section

variable (hc : Sound (c.insert (restart t u))) (hpc : c.contains p.1 = false) (hpt : p.1 ≠ t.label)
include hc hpc hpt

omit hc in
theorem contains_insert_restart : SortedBy.contains (c.insert (restart t u)) p.1 = false := by
  rw [SortedBy.contains_insert]
  show (decide (t.label = p.1) || c.contains p.1) = false
  rw [hpc, decide_eq_false hpt.symm, Bool.false_or]

/-- The next step keeps the catalog sound. -/
theorem Sound.insert_step :
    Sound ((c.insert (stepItem t n u p).normalize).insert (restart t {p.1})) := by
  rw [← interpose_restart]
  exact hc.interpose restart_mem_insert (contains_insert_restart hpc hpt) rfl (by rintro ⟨⟩)
    (by rintro ⟨⟩)

end

/-- The other steps are new after the first one has been put in. -/
theorem new_insert_step (hnew : ∀ q ∈ p :: ls, c.contains q.1 = false ∧ q.1 ≠ t.label)
    (hp : p.1 ∉ ls.map Prod.fst) : ∀ q ∈ ls,
    SortedBy.contains (c.insert (stepItem t n u p).normalize) q.1 = false ∧ q.1 ≠ t.label := by
  intro q hq
  obtain ⟨hqc, hqt⟩ := hnew q (List.mem_cons_of_mem _ hq)
  refine ⟨?_, hqt⟩
  rw [SortedBy.contains_insert, hqc, Bool.or_false, decide_eq_false_iff_not]
  intro he
  exact hp (List.mem_map.mpr ⟨q, hq, he.symm⟩)

/-- A catalog that is sound with the target at the start is so with a chain of new steps. -/
theorem Sound.insert_chain (hn : t.normalize = t) (hc : Sound (c.insert (restart t u)))
    (hnew : ∀ p ∈ ls, c.contains p.1 = false ∧ p.1 ≠ t.label) (hd : (ls.map Prod.fst).Nodup) :
    Sound (((chain t n u ls).map Item.normalize).foldl SortedBy.insert c) := by
  induction ls generalizing c u with
  | nil =>
    show Sound (c.insert (restart t u).normalize)
    rwa [normalize_restart hn]
  | cons p ls ih =>
    obtain ⟨hp, hd⟩ := List.nodup_cons.mp hd
    obtain ⟨hpc, hpt⟩ := hnew p List.mem_cons_self
    rw [chain_cons, List.map_cons, List.foldl_cons]
    exact ih (hc.insert_step hpc hpt) (new_insert_step hnew hp) hd

/-! ### Where labels lead -/

/-- The label from which ways lead on in the catalog without the chain: a step has taken over what the
target used. -/
def origin (t : Item) (labels : List String) (a : String) : String :=
  if a ∈ labels then t.label else a

theorem oldLabel_origin {labels : List String} (hpt : p.1 ≠ t.label) :
    oldLabel (restart t u) (stepItem t n u p).normalize (origin t labels a) =
      origin t (p.1 :: labels) a := by
  show (if origin t labels a = p.1 then t.label else origin t labels a) = _
  unfold origin
  by_cases ha : a ∈ labels
  · simp [ha, hpt.symm]
  · simp [ha]

theorem origin_eq_label_iff {labels : List String} :
    origin t labels a = t.label ↔ a ∈ labels ∨ a = t.label := by
  unfold origin
  split_ifs with ha <;> simp [ha]

theorem pair_sublist_cons_iff {labels : List String} :
    [b, a].Sublist (l :: labels) ↔ b = l ∧ a ∈ labels ∨ [b, a].Sublist labels := by
  rw [List.sublist_cons_iff]
  simp only [List.cons.injEq]
  constructor
  · rintro (h | ⟨r, ⟨rfl, rfl⟩, h⟩)
    · exact Or.inr h
    · exact Or.inl ⟨rfl, List.singleton_sublist.mp h⟩
  · rintro (⟨rfl, h⟩ | h)
    · exact Or.inr ⟨[a], ⟨rfl, rfl⟩, List.singleton_sublist.mpr h⟩
    · exact Or.inl h

/-- **Where labels lead after a chain has been put in.** -/
theorem restsOn_insert_chain_iff (hn : t.normalize = t) (hc : Sound (c.insert (restart t u)))
    (hnew : ∀ p ∈ ls, c.contains p.1 = false ∧ p.1 ≠ t.label) (hd : (ls.map Prod.fst).Nodup) :
    RestsOn (((chain t n u ls).map Item.normalize).foldl SortedBy.insert c) a b ↔
      RestsOn (c.insert (restart t u)) (origin t (ls.map Prod.fst) a) b ∨
      (b ∈ ls.map Prod.fst ∧ (a = t.label ∨
        RestsOn (c.insert (restart t u)) (origin t (ls.map Prod.fst) a) t.label)) ∨
      [b, a].Sublist (ls.map Prod.fst) := by
  induction ls generalizing c u with
  | nil =>
    show RestsOn (c.insert (restart t u).normalize) a b ↔ _
    rw [normalize_restart hn]
    simp [origin]
  | cons p ls ih =>
    obtain ⟨hp, hd⟩ := List.nodup_cons.mp hd
    obtain ⟨hpc, hpt⟩ := hnew p List.mem_cons_self
    have hpc' := contains_insert_restart (u := u) hpc hpt
    have hstep : ∀ x y, RestsOn
        ((c.insert (stepItem t n u p).normalize).insert (restart t {p.1})) x y ↔
          RestsOn (c.insert (restart t u))
            (oldLabel (restart t u) (stepItem t n u p).normalize x) y ∨
          y = p.1 ∧ (x = t.label ∨ RestsOn (c.insert (restart t u))
            (oldLabel (restart t u) (stepItem t n u p).normalize x) t.label) := by
      intro x y
      rw [← interpose_restart]
      exact restsOn_interpose_iff restart_mem_insert hpc' rfl (hc.not_uses hpc')
    have hrest := ih (hc.insert_step (n := n) hpc hpt) (new_insert_step hnew hp) hd
    have hpt' : ∀ q : Prop, (t.label = p.1 ∧ q) ↔ False := fun q =>
      iff_false_intro fun h => hpt h.1.symm
    rw [hstep, hstep, oldLabel_origin hpt, origin_eq_label_iff, hpt', or_false] at hrest
    rw [chain_cons, List.map_cons, List.foldl_cons, hrest, List.map_cons, pair_sublist_cons_iff,
      List.mem_cons]
    constructor
    · rintro ((h | ⟨hb, (ha | ha) | h⟩) | ⟨hb, h⟩ | h)
      · exact Or.inl h
      · exact Or.inr (Or.inr (Or.inl ⟨hb, ha⟩))
      · exact Or.inr (Or.inl ⟨Or.inl hb, Or.inl ha⟩)
      · exact Or.inr (Or.inl ⟨Or.inl hb, Or.inr h⟩)
      · exact Or.inr (Or.inl ⟨Or.inr hb, h⟩)
      · exact Or.inr (Or.inr (Or.inr h))
    · rintro (h | ⟨hb | hb, h⟩ | ⟨hb, ha⟩ | h)
      · exact Or.inl (Or.inl h)
      · exact Or.inl (Or.inr ⟨hb, h.imp Or.inr id⟩)
      · exact Or.inr (Or.inl ⟨hb, h⟩)
      · exact Or.inl (Or.inr ⟨hb, Or.inl (Or.inl ha)⟩)
      · exact Or.inr (Or.inr h)

end ProofTracker.Catalog
