import ProofTracker.Proofs.Blueprint.History

/-! # What rests on what after a split

The items of a chain are put between the target of a split and what the target used. So nothing
changes among the labels that were there before, the target gains the steps, and each step stands
between the steps before it and those behind it (`Reachable.ancestors_split`). -/

namespace ProofTracker.Blueprint

open Catalog

variable {b b' : Blueprint} {target l s x y : String} {t : Item} {steps : List Step} {n : UInt32}
  {labels : List String} {k : ℕ}

/-! ### Places in a list -/

theorem pair_sublist_iff_mem_take (hd : labels.Nodup) (hk : labels[k]? = some s) :
    [l, s].Sublist labels ↔ l ∈ labels.take k := by
  induction labels generalizing k with
  | nil => cases hk
  | cons m labels ih =>
    obtain ⟨hm, hd⟩ := List.nodup_cons.mp hd
    cases k with
    | zero =>
      obtain rfl : m = s := Option.some.inj hk
      have hpair : ¬ [l, m].Sublist labels := fun h => hm (h.subset (by simp))
      simp [pair_sublist_cons_iff, hm, hpair]
    | succ k =>
      have hs : s ∈ labels := List.mem_of_getElem? hk
      simp [pair_sublist_cons_iff, ih hd hk, hs]

theorem pair_sublist_iff_mem_drop (hd : labels.Nodup) (hk : labels[k]? = some s) :
    [s, l].Sublist labels ↔ l ∈ labels.drop (k + 1) := by
  induction labels generalizing k with
  | nil => cases hk
  | cons m labels ih =>
    obtain ⟨hm, hd⟩ := List.nodup_cons.mp hd
    cases k with
    | zero =>
      obtain rfl : m = s := Option.some.inj hk
      simp
    | succ k =>
      have hne : s ≠ m := by
        rintro rfl
        exact hm (List.mem_of_getElem? hk)
      rw [pair_sublist_cons_iff, ih hd hk, or_iff_right fun h => hne h.1, List.drop_succ_cons]

/-! ### The chain in the blueprint -/

/-- **Where labels lead after a split.** -/
theorem restsOn_merge_chain_iff (hb : b.Sound) (ht : b.items.get? target = some t)
    (hl : Labelled b.items target steps labels) (htd : t.status ≠ .done) :
    RestsOn (b.merge (chain t n t.uses (labels.zip steps))) x y ↔
      b.items.RestsOn (origin t labels x) y ∨
      (y ∈ labels ∧ (x = target ∨ b.items.RestsOn (origin t labels x) target)) ∨
      [y, x].Sublist labels := by
  have hmem := SortedBy.mem_of_get?_eq_some ht
  have hkey := SortedBy.key_eq_of_get?_eq_some ht
  have hfst : (labels.zip steps).map Prod.fst = labels := List.map_fst_zip hl.length.le
  have hold : RestsOn (b.items.insert (restart t t.uses)) = b.items.RestsOn := by
    unfold RestsOn
    rw [uses_insert_of_uses_eq (j := restart t t.uses) hmem rfl rfl]
  have hchain := restsOn_insert_chain_iff (n := n) (a := x) (b := y) (hb.admissible t hmem).normalize
    (sound_insert_restart ht hb htd) (new_of_mem_zip ht hl) (by rw [hfst]; exact hl.nodup)
  rwa [hfst, hold, hkey] at hchain

/-! ### Ancestors and descendants -/

section

variable (hl : Labelled b.items target steps labels)
include hl

theorem notMem_labels_of_contains (hx : b.items.contains x = true) : x ∉ labels := fun h => by
  rw [hl.new x h] at hx
  cases hx

variable (hb : b.Sound) (ht : b.items.get? target = some t)
include hb ht

/-- A step leads where the target led, and never to the target. -/
theorem restsOn_origin_target_iff :
    b.items.RestsOn (origin t labels x) target ↔ b.items.RestsOn x target := by
  unfold origin
  split_ifs with hx
  · rw [SortedBy.key_eq_of_get?_eq_some ht]
    refine iff_of_false (hb.catalog.acyclic target) fun h => ?_
    obtain ⟨i, hi, rfl⟩ := exists_mem_of_restsOn h
    exact notMem_labels_of_contains hl (SortedBy.contains_of_mem hi) hx
  · rfl

variable (htd : t.status ≠ .done)
include htd

theorem restsOn_merge_chain_old_iff (hx : b.items.contains x = true)
    (hy : b.items.contains y = true) :
    RestsOn (b.merge (chain t n t.uses (labels.zip steps))) x y ↔ b.items.RestsOn x y := by
  have hx' := notMem_labels_of_contains hl hx
  have hy' := notMem_labels_of_contains hl hy
  have hpair : ¬ [y, x].Sublist labels := fun h => hy' (h.subset (by simp))
  rw [restsOn_merge_chain_iff hb ht hl htd, origin, if_neg hx']
  simp [hy', hpair]

theorem restsOn_merge_chain_target_iff :
    RestsOn (b.merge (chain t n t.uses (labels.zip steps))) target y ↔
      b.items.RestsOn target y ∨ y ∈ labels := by
  have htl := target_notMem_labels ht hl
  have hpair : ¬ [y, target].Sublist labels := fun h => htl (h.subset (by simp))
  rw [restsOn_merge_chain_iff hb ht hl htd, origin, if_neg htl]
  simp [hpair]

theorem restsOn_merge_chain_step_iff (hx : x ∈ labels) :
    RestsOn (b.merge (chain t n t.uses (labels.zip steps))) x y ↔
      b.items.RestsOn target y ∨ [y, x].Sublist labels := by
  have hne : x ≠ target := by
    rintro rfl
    exact target_notMem_labels ht hl hx
  rw [restsOn_merge_chain_iff hb ht hl htd, origin, if_pos hx, SortedBy.key_eq_of_get?_eq_some ht]
  simp [hne, hb.catalog.acyclic target]

theorem restsOn_step_merge_chain_iff (hy : y ∈ labels) :
    RestsOn (b.merge (chain t n t.uses (labels.zip steps))) x y ↔
      x = target ∨ b.items.RestsOn x target ∨ [y, x].Sublist labels := by
  -- Nothing led to the label of a step before.
  have hnew : ∀ a, ¬ b.items.RestsOn a y := fun a h => by
    obtain ⟨m, hm⟩ := exists_uses_of_restsOn h
    exact hb.catalog.not_uses (hl.new y hy) m hm
  rw [restsOn_merge_chain_iff hb ht hl htd, restsOn_origin_target_iff hl hb ht]
  simp [hnew, hy, or_assoc]

end

/-- **What rests on what after a split.** Between labels that were there before nothing changes. The
target gains the steps. Each step rests on what the target rested on and on the steps before it, and
the steps behind it, the target and what rested on the target rest on it. -/
theorem Reachable.ancestors_split (h : b.Reachable)
    (hs : b.split target steps n = .ok (b', labels)) :
    (∀ x y, b.items.contains x = true → b.items.contains y = true →
      (x ∈ b'.items.ancestors y ↔ x ∈ b.items.ancestors y)) ∧
    (∀ l, l ∈ b'.items.ancestors target ↔ l ∈ b.items.ancestors target ∨ l ∈ labels) ∧
    ∀ k s, labels[k]? = some s →
      (∀ l, l ∈ b'.items.ancestors s ↔ l ∈ b.items.ancestors target ∨ l ∈ labels.take k) ∧
      ∀ l, l ∈ b'.items.descendants s ↔
        l ∈ labels.drop (k + 1) ∨ l = target ∨ l ∈ b.items.descendants target := by
  have hb := h.sound
  obtain ⟨t, ht, -, htd, -, hlabels, -, rfl⟩ := hb.split_eq_ok_iff.mp hs
  have hl := labelled_of_stepLabels hlabels
  refine ⟨fun x y hx hy => ?_, fun l => ?_, fun k s hk => ⟨fun l => ?_, fun l => ?_⟩⟩
  · rw [mem_ancestors, mem_ancestors, restsOn_merge_chain_old_iff hl hb ht htd hy hx]
  · rw [mem_ancestors, mem_ancestors, restsOn_merge_chain_target_iff hl hb ht htd]
  · rw [mem_ancestors, mem_ancestors,
      restsOn_merge_chain_step_iff hl hb ht htd (List.mem_of_getElem? hk),
      pair_sublist_iff_mem_take hl.nodup hk]
  · rw [mem_descendants, mem_descendants,
      restsOn_step_merge_chain_iff hl hb ht htd (List.mem_of_getElem? hk),
      pair_sublist_iff_mem_drop hl.nodup hk, ← or_assoc, or_comm]

/-- Between two items a middle one is split into three steps; the last step is given its label. -/
theorem Reachable.ancestors_split_between :
    let item (l : String) (uses : LabelSet) : Item :=
      { label := l, kind := .lem, uses, attempts := ⟨0, 3⟩ }
    let b := (∅ : Blueprint).after (.upsertBatch [item "a" ∅, item "b" {"a"}, item "c" {"b"}])
    let steps : List Step := [{ statement := "s" }, { statement := "t" },
      { label := some "z", statement := "u" }]
    let b' := b.after (.split "b" steps 7)
    b.split "b" steps 7 = .ok (b', ["b_1", "b_2", "z"]) ∧
    ("a" ∈ b'.items.ancestors "c" ↔ "a" ∈ b.items.ancestors "c") ∧
    "b_1" ∈ b'.items.ancestors "b" ∧ "a" ∈ b'.items.ancestors "b_2" ∧
    "c" ∈ b'.items.descendants "b_2" ∧ "b_1" ∉ b'.items.descendants "b_2" := by
  intro item b steps b'
  have hb : b.Reachable := .after _ .empty
  have hs : b.split "b" steps 7 = .ok (b', ["b_1", "b_2", "z"]) := by decide +kernel
  obtain ⟨hold, htarget, hstep⟩ := hb.ancestors_split hs
  obtain ⟨hup, hdown⟩ := hstep 1 "b_2" rfl
  have ha : ∀ m ∈ ["b", "c"], "a" ∈ b.items.ancestors m := by
    have hall : ∀ m ∈ ["b", "c"], "a" ∈ (b.items.ancestors m).toList := by decide +kernel
    exact hall
  have hc : (b.items.descendants "b").toList = ["c"] := by decide +kernel
  have hc' : ∀ m, m ∈ b.items.descendants "b" ↔ m = "c" := fun m => by
    rw [← SortedBy.mem_toList, hc, List.mem_singleton]
  refine ⟨hs, hold "a" "c" (by decide +kernel) (by decide +kernel), (htarget _).mpr (by simp),
    (hup _).mpr (Or.inl (ha "b" (by simp))), (hdown _).mpr (by simp [hc']), fun h => ?_⟩
  have := (hdown _).mp h
  simp [hc'] at this

end ProofTracker.Blueprint
