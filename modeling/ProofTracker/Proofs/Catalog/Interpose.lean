import ProofTracker.Proofs.Catalog.Sound

/-! # An item put in between

An item is put between another one and what that one uses: it uses these labels from now on, and the
other one uses it alone (`interpose`). Nothing changes among the old labels then, and the new one
comes after whatever rests on the other item (`restsOn_interpose_iff`). So a sound catalog stays
sound (`Sound.interpose`). -/

namespace ProofTracker.Catalog

/-- The catalog with `s` put between `t` and what `t` uses. -/
def interpose (c : Catalog) (t s : Item) : Catalog :=
  (c.insert s).insert { t with uses := {s.label} }

/-- The old label that leads where the label `a` leads after `s` has been put behind `t`. -/
def oldLabel (t s : Item) (a : String) : String := if a = s.label then t.label else a

variable {c : Catalog} {s t i : Item} {a b l : String}

theorem label_ne_of_contains_eq_false (ht : t ∈ c) (hs : c.contains s.label = false) :
    t.label ≠ s.label := by
  intro h
  rw [← h, SortedBy.contains_of_mem ht] at hs
  cases hs

theorem uses_interpose_iff (ht : t ∈ c) (hu : s.uses = t.uses) : Uses (c.interpose t s) a b ↔
    if a = t.label then b = s.label else if a = s.label then c.Uses t.label b else c.Uses a b := by
  unfold interpose
  rw [uses_insert, uses_insert, uses_label_iff ht, hu]
  simp only [SortedBy.mem_singleton, eq_comm (a := a)]

section

variable (ht : t ∈ c) (hs : c.contains s.label = false) (hu : s.uses = t.uses)
include ht hs hu

theorem restsOn_interpose_of_restsOn (h : c.RestsOn a b) : RestsOn (c.interpose t s) a b := by
  have hne := label_ne_of_contains_eq_false ht hs
  have hstep : ∀ {a b}, c.Uses a b → RestsOn (c.interpose t s) a b := by
    intro a b hab
    by_cases ha : a = t.label
    · have h1 : Uses (c.interpose t s) a s.label := by
        rw [uses_interpose_iff ht hu, if_pos ha]
      have h2 : Uses (c.interpose t s) s.label b := by
        rw [uses_interpose_iff ht hu, if_neg hne.symm, if_pos rfl, ← ha]
        exact hab
      exact .head h1 (.single h2)
    · have has : a ≠ s.label := by
        obtain ⟨i, hi, rfl, -⟩ := hab
        exact label_ne_of_contains_eq_false hi hs
      refine .single ?_
      rw [uses_interpose_iff ht hu, if_neg ha, if_neg has]
      exact hab
  induction h with
  | single hab => exact hstep hab
  | tail _ hmb ih => exact ih.trans (hstep hmb)

theorem restsOn_interpose_of_oldLabel (h : c.RestsOn (oldLabel t s a) b) :
    RestsOn (c.interpose t s) a b := by
  unfold oldLabel at h
  split_ifs at h with ha
  · -- The first step from `t` is one from `s` now.
    obtain ⟨m, hm, hmb⟩ := Relation.TransGen.head'_iff.mp h
    have hstep : Uses (c.interpose t s) a m := by
      rw [uses_interpose_iff ht hu, ha, if_neg (label_ne_of_contains_eq_false ht hs).symm,
        if_pos rfl]
      exact hm
    rcases Relation.reflTransGen_iff_eq_or_transGen.mp hmb with rfl | hmb
    · exact .single hstep
    · exact .head hstep (restsOn_interpose_of_restsOn ht hs hu hmb)
  · exact restsOn_interpose_of_restsOn ht hs hu h

variable (hno : ∀ a, ¬ c.Uses a s.label)
include hno

/-- A way goes the old way, or has come to `s` through `t`. -/
theorem restsOn_of_restsOn_interpose (h : RestsOn (c.interpose t s) a b) :
    c.RestsOn (oldLabel t s a) b ∨
      b = s.label ∧ (a = t.label ∨ c.RestsOn (oldLabel t s a) t.label) := by
  have hne := label_ne_of_contains_eq_false ht hs
  have hstep : ∀ {a b}, Uses (c.interpose t s) a b →
      a = t.label ∧ b = s.label ∨ c.Uses (oldLabel t s a) b := by
    intro a b hab
    rw [uses_interpose_iff ht hu] at hab
    by_cases hat : a = t.label
    · rw [if_pos hat] at hab
      exact Or.inl ⟨hat, hab⟩
    · rw [if_neg hat] at hab
      unfold oldLabel
      split_ifs at hab ⊢ <;> exact Or.inr hab
  induction h with
  | single hab =>
    rcases hstep hab with ⟨rfl, rfl⟩ | hab
    · exact Or.inr ⟨rfl, Or.inl rfl⟩
    · exact Or.inl (.single hab)
  | @tail m b _ hmb ih =>
    rcases hstep hmb with ⟨rfl, rfl⟩ | hmb
    · -- The way has come to `t`, so one of the old labels rests on `t`.
      rcases ih with ih | ⟨h, -⟩
      · exact Or.inr ⟨rfl, Or.inr ih⟩
      · exact absurd h hne
    · rcases ih with ih | ⟨rfl, ih⟩
      · have hms : m ≠ s.label := by
          rintro rfl
          obtain ⟨k, hk⟩ := exists_uses_of_restsOn ih
          exact hno k hk
        have hm : oldLabel t s m = m := if_neg hms
        rw [hm] at hmb
        exact Or.inl (ih.tail hmb)
      · -- The way has come to `s` through `t`, and `s` leads where `t` led.
        have hs' : oldLabel t s s.label = t.label := if_pos rfl
        rw [hs'] at hmb
        rcases ih with rfl | ih
        · have hold : oldLabel t s t.label = t.label := if_neg hne
          rw [hold]
          exact Or.inl (.single hmb)
        · exact Or.inl (ih.tail hmb)

/-- **Where labels lead after an item has been put in between.** -/
theorem restsOn_interpose_iff : RestsOn (c.interpose t s) a b ↔ c.RestsOn (oldLabel t s a) b ∨
    b = s.label ∧ (a = t.label ∨ c.RestsOn (oldLabel t s a) t.label) := by
  constructor
  · exact restsOn_of_restsOn_interpose ht hs hu hno
  · have hlast : Uses (c.interpose t s) t.label s.label := by
      rw [uses_interpose_iff ht hu, if_pos rfl]
    rintro (h | ⟨rfl, rfl | h⟩)
    · exact restsOn_interpose_of_oldLabel ht hs hu h
    · exact .single hlast
    · exact (restsOn_interpose_of_oldLabel ht hs hu h).tail hlast

theorem acyclic_interpose (hc : c.Acyclic) : Acyclic (c.interpose t s) := by
  have hne := label_ne_of_contains_eq_false ht hs
  intro l hl
  rcases (restsOn_interpose_iff ht hs hu hno).mp hl with h | ⟨rfl, h | h⟩
  · by_cases hls : l = s.label
    · obtain ⟨m, hm⟩ := exists_uses_of_restsOn h
      exact hno m (hls ▸ hm)
    · have hl' : oldLabel t s l = l := if_neg hls
      rw [hl'] at h
      exact hc l h
  · exact hne h.symm
  · have hs' : oldLabel t s s.label = t.label := if_pos rfl
    rw [hs'] at h
    exact hc t.label h

omit hno

/-- A catalog stays sound if neither of the two items is done. -/
theorem Sound.interpose (hc : c.Sound) (htd : t.status ≠ .done) (hsd : s.status ≠ .done) :
    Sound (c.interpose t s) := by
  have hno : ∀ a, ¬ c.Uses a s.label := hc.not_uses hs
  have hcontains : ∀ {l}, c.contains l = true → SortedBy.contains (c.interpose t s) l = true := by
    intro l hl
    unfold Catalog.interpose
    rw [SortedBy.contains_insert, SortedBy.contains_insert, hl, Bool.or_true, Bool.or_true]
  have hmem : ∀ {k}, k ∈ c.interpose t s →
      k = { t with uses := {s.label} } ∨ k = s ∨ k ∈ c ∧ k.label ≠ t.label ∧ k.label ≠ s.label := by
    intro k hk
    rcases SortedBy.mem_insert.mp hk with rfl | ⟨hk, hkt⟩
    · exact Or.inl rfl
    · rcases SortedBy.mem_insert.mp hk with rfl | ⟨hk, hks⟩
      · exact Or.inr (Or.inl rfl)
      · exact Or.inr (Or.inr ⟨hk, hkt, hks⟩)
  refine ⟨?_, acyclic_interpose ht hs hu hno hc.acyclic, ?_⟩
  · intro k hk l hl
    rcases hmem hk with rfl | rfl | ⟨hk, -, -⟩
    · rw [SortedBy.mem_singleton.mp hl]
      unfold Catalog.interpose
      rw [SortedBy.contains_insert, SortedBy.contains_insert, decide_eq_true rfl, Bool.true_or,
        Bool.or_true]
    · exact hcontains (hc.closed t ht l (hu ▸ hl))
    · exact hcontains (hc.closed k hk l hl)
  · intro k hk hkd l hl
    rcases hmem hk with rfl | rfl | ⟨hk, -, -⟩
    · exact absurd hkd htd
    · exact absurd hkd hsd
    · -- What a done item uses is done, so it is neither of the two.
      have hld := hc.done k hk hkd l hl
      have hlt : t.label ≠ l := by
        rintro rfl
        exact htd ((isDone_label_iff ht).mp hld)
      have hls : s.label ≠ l := by
        rintro rfl
        exact hno k.label ⟨k, hk, rfl, hl⟩
      have hlt' : isDone (c.interpose t s) l = isDone (c.insert s) l := isDone_insert_of_ne hlt
      rw [hlt', isDone_insert_of_ne hls]
      exact hld

end

end ProofTracker.Catalog
