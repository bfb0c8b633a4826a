import ProofTracker.Catalog.Reach
import ProofTracker.Proofs.Catalog.Graph

/-! # What the search finds

The search finds what is reached from the labels to be visited by steps into the labels not yet seen
(`mem_reach_iff`). A way to a label either keeps clear of what the present label leads to, or goes
on from there after it has been there for the last time (`transGen_into_split`), so nothing is
missed when those labels are taken out. Since all that is used is in the universe of the search, an
item's ancestors are the labels that it rests on (`mem_ancestors`); and since all that uses something
is there too, its descendants are the labels that rest on it (`mem_descendants`). -/

namespace ProofTracker.Catalog

/-- A step from `a` to one of the labels `ls`. -/
def Into (next : String → List String) (ls : List String) (a b : String) : Prop :=
  b ∈ next a ∧ b ∈ ls

variable {next : String → List String} {c : Catalog} {unseen toVisit ls : List String}
  {a b l : String}

/-! ### The search -/

theorem transGen_into_mono (hsub : unseen ⊆ ls) (h : Relation.TransGen (Into next unseen) a b) :
    Relation.TransGen (Into next ls) a b :=
  Relation.TransGen.mono (fun _ _ hstep => ⟨hstep.1, hsub hstep.2⟩) _ _ h

/-- A way to `b` ends among what `l` leads to, or goes on from there clear of it, or is clear of
it. -/
theorem transGen_into_split (l : String) (h : Relation.TransGen (Into next unseen) a b) :
    b ∈ unseen.filter (· ∈ next l) ∨
    (∃ m ∈ unseen.filter (· ∈ next l),
      Relation.TransGen (Into next (unseen.filter (· ∉ next l))) m b) ∨
    Relation.TransGen (Into next (unseen.filter (· ∉ next l))) a b := by
  have hstep : ∀ {a b}, Into next unseen a b → b ∉ unseen.filter (· ∈ next l) →
      Into next (unseen.filter (· ∉ next l)) a b := by
    intro a b hab hb
    simp only [List.mem_filter, decide_eq_true_eq, not_and] at hb
    exact ⟨hab.1, List.mem_filter.mpr ⟨hab.2, by simpa using hb hab.2⟩⟩
  induction h with
  | @single b hab =>
    by_cases hb : b ∈ unseen.filter (· ∈ next l)
    · exact Or.inl hb
    · exact Or.inr (Or.inr (.single (hstep hab hb)))
  | @tail m b _ hmb ih =>
    by_cases hb : b ∈ unseen.filter (· ∈ next l)
    · exact Or.inl hb
    · have hlast := hstep hmb hb
      rcases ih with hm | ⟨k, hk, hkm⟩ | ham
      · exact Or.inr (Or.inl ⟨m, hm, .single hlast⟩)
      · exact Or.inr (Or.inl ⟨k, hk, hkm.tail hlast⟩)
      · exact Or.inr (Or.inr (ham.tail hlast))

theorem partition_mem (ls ahead : List String) :
    ls.partition (· ∈ ahead) = (ls.filter (· ∈ ahead), ls.filter (· ∉ ahead)) := by
  rw [List.partition_eq_filter_filter]
  simp [Function.comp_def]

/-- **The search finds what is reached by steps into the labels not yet seen.** -/
theorem mem_reach_iff : b ∈ reach next unseen toVisit ↔
    ∃ a ∈ toVisit, Relation.TransGen (Into next unseen) a b := by
  induction unseen, toVisit using reach.induct next with
  | case1 unseen => simp [reach]
  | case2 unseen l toVisit ahead found ih =>
    have hfound : found = (unseen.filter (· ∈ next l), unseen.filter (· ∉ next l)) :=
      partition_mem unseen (next l)
    rw [hfound] at ih
    rw [reach, partition_mem, List.mem_append, ih]
    constructor
    · rintro (hb | ⟨a, ha, hab⟩)
      · obtain ⟨hb, hl⟩ := List.mem_filter.mp hb
        exact ⟨l, List.mem_cons_self, .single ⟨by simpa using hl, hb⟩⟩
      · have hab' := transGen_into_mono (List.filter_sublist).subset hab
        rcases List.mem_append.mp ha with ha | ha
        · obtain ⟨ha, hl⟩ := List.mem_filter.mp ha
          exact ⟨l, List.mem_cons_self, .head ⟨by simpa using hl, ha⟩ hab'⟩
        · exact ⟨a, List.mem_cons_of_mem _ ha, hab'⟩
    · rintro ⟨a, ha, hab⟩
      rcases transGen_into_split l hab with hb | ⟨m, hm, hmb⟩ | hab
      · exact Or.inl hb
      · exact Or.inr ⟨m, List.mem_append_left _ hm, hmb⟩
      · rcases List.mem_cons.mp ha with rfl | ha
        · -- A way from the present label begins among what this label leads to.
          obtain ⟨m, ⟨hm, hclear⟩, -⟩ := Relation.TransGen.head'_iff.mp hab
          exact absurd hm (by simpa using (List.mem_filter.mp hclear).2)
        · exact Or.inr ⟨a, List.mem_append_right _ ha, hab⟩

/-! ### Ancestors -/

theorem mem_usesOf : b ∈ c.usesOf a ↔ c.Uses a b := by
  rw [uses_iff_get?]
  unfold usesOf
  cases c.get? a <;> simp

theorem mem_usedLabels : l ∈ c.usedLabels ↔ ∃ i ∈ c, l ∈ i.uses := by
  have hcontains : c.usedLabels.contains l = true ↔ ∃ i ∈ c, l ∈ i.uses := by
    unfold usedLabels SortedBy.ofList
    rw [SortedBy.contains_foldl_insert, SortedBy.contains_empty]
    simp
  rw [← hcontains, SortedBy.contains_iff]
  simp

/-- The search is not confined, since whatever is used is in its universe. -/
theorem mem_ancestors : l ∈ c.ancestors a ↔ c.RestsOn a l := by
  have hinto : Into c.usesOf c.usedLabels.toList = c.Uses := by
    funext a b
    refine propext ⟨fun h => mem_usesOf.mp h.1, fun h => ⟨mem_usesOf.mpr h, ?_⟩⟩
    obtain ⟨i, hi, -, hu⟩ := h
    exact mem_usedLabels.mpr ⟨i, hi, hu⟩
  have hfound : l ∈ reach c.usesOf c.usedLabels.toList [a] ↔ c.RestsOn a l := by
    rw [mem_reach_iff, hinto]
    simp [RestsOn]
  show l ∈ (c.usedLabels.toList.filter _) ↔ _
  rw [List.mem_filter, decide_eq_true_eq, hfound, and_iff_right_iff_imp]
  intro h
  obtain ⟨-, i, hi, -, hu⟩ := exists_uses_of_restsOn h
  exact mem_usedLabels.mpr ⟨i, hi, hu⟩

/-! ### Descendants -/

theorem mem_keys : l ∈ c.keys ↔ ∃ i ∈ c, i.label = l := List.mem_map

theorem mem_map_dependents : b ∈ (c.dependents a).map Item.label ↔ c.Uses b a := by
  simp only [List.mem_map, mem_dependents]
  constructor
  · rintro ⟨i, ⟨hi, hu⟩, hl⟩; exact ⟨i, hi, hl, hu⟩
  · rintro ⟨i, hi, hl, hu⟩; exact ⟨i, ⟨hi, hu⟩, hl⟩

/-- The steps of the search are those of the dependencies, taken backwards. -/
theorem mem_descendants : l ∈ c.descendants a ↔ c.RestsOn l a := by
  have hinto : Into (fun l => (c.dependents l).map Item.label) c.keys.toList =
      Function.swap c.Uses := by
    funext a b
    refine propext ⟨fun h => mem_map_dependents.mp h.1, fun h => ⟨mem_map_dependents.mpr h, ?_⟩⟩
    obtain ⟨i, hi, hl, -⟩ := h
    exact mem_keys.mpr ⟨i, hi, hl⟩
  have hfound : l ∈ reach (fun l => (c.dependents l).map Item.label) c.keys.toList [a] ↔
      c.RestsOn l a := by
    rw [mem_reach_iff, hinto]
    simp [RestsOn, Relation.transGen_swap]
  show l ∈ (c.keys.toList.filter _) ↔ _
  rw [List.mem_filter, decide_eq_true_eq, hfound, and_iff_right_iff_imp]
  intro h
  obtain ⟨i, hi, hl⟩ := exists_mem_of_restsOn h
  exact mem_keys.mpr ⟨i, hi, hl⟩

end ProofTracker.Catalog
