import ProofTracker.Proofs.Blueprint.Run
import ProofTracker.Proofs.Split.Chain
import ProofTracker.Proofs.Split.Plan

/-! # Splitting an item of a blueprint

A planned chain is put in iff the labels of its steps are valid (`Sound.put_chain_iff`): nothing
else that is checked of a batch can fail, since the blueprint was sound before. So a split fails for
the reasons of its plan or for a label, and what it leads to can be told item by item. -/

namespace ProofTracker

variable {i : Item} {e : Error}

/-- An item whose label is all that can be wrong with it is refused for its label. -/
theorem Item.accept_eq_error (hi : Label.Valid i.label → i.normalize.Admissible)
    (h : i.accept = .error e) : e = .badLabel i.label := by
  by_cases hl : Label.Valid i.label
  · rw [Item.accept_eq_ok_iff.mpr ⟨rfl, hi hl⟩] at h
    cases h
  · unfold accept at h
    rw [if_neg hl] at h
    exact (Except.error.inj h).symm

namespace Blueprint

open Catalog

variable {b b' : Blueprint} {target l : String} {t : Item} {steps : List Step} {n : UInt32}
  {labels : List String}

/-! ### Putting the chain in -/

theorem Sound.valid_of_get? (hb : b.Sound) (ht : b.items.get? target = some t) :
    Label.Valid target := by
  rw [← SortedBy.key_eq_of_get?_eq_some ht]
  exact (hb.admissible t (SortedBy.mem_of_get?_eq_some ht)).label

theorem Sound.admissible_of_mem_chain (hb : b.Sound) (ht : b.items.get? target = some t)
    (hi : i ∈ chain t n t.uses (labels.zip steps)) (hv : Label.Valid i.label) :
    i.normalize.Admissible := by
  have hadm : t.Admissible := hb.admissible t (SortedBy.mem_of_get?_eq_some ht)
  rcases mem_chain hi with ⟨u, rfl⟩ | ⟨p, -, u, rfl⟩
  · exact admissible_restart hadm u
  · exact admissible_stepItem hv t n u

section

variable (ht : b.items.get? target = some t) (hl : Labelled b.items target steps labels)
include ht hl

theorem map_label_chain_zip :
    (chain t n t.uses (labels.zip steps)).map Item.label = labels ++ [target] := by
  rw [map_label_chain, List.map_fst_zip hl.length.le, SortedBy.key_eq_of_get?_eq_some ht]

theorem target_notMem_labels : target ∉ labels := by
  intro h
  have hnew := hl.new target h
  rw [SortedBy.contains_of_get?_eq_some ht] at hnew
  cases hnew

theorem new_of_mem_zip : ∀ p ∈ labels.zip steps,
    b.items.contains p.1 = false ∧ p.1 ≠ t.label := by
  intro p hp
  have hpl : p.1 ∈ labels := (List.of_mem_zip hp).1
  refine ⟨hl.new _ hpl, fun he => target_notMem_labels ht hl ?_⟩
  rwa [← SortedBy.key_eq_of_get?_eq_some ht, ← he]

theorem nodup_labels_chain : ((chain t n t.uses (labels.zip steps)).map Item.label).Nodup := by
  rw [map_label_chain_zip ht hl, List.nodup_append]
  refine ⟨hl.nodup, List.nodup_singleton _, ?_⟩
  rintro m hm _ hmt rfl
  rw [List.mem_singleton.mp hmt] at hm
  exact target_notMem_labels ht hl hm

/-- The answer to a split is the labels of the steps. -/
theorem filter_label_chain :
    ((chain t n t.uses (labels.zip steps)).map Item.label).filter (· ≠ target) = labels := by
  have hne : ∀ l ∈ labels, l ≠ target := by
    rintro l h rfl
    exact target_notMem_labels ht hl h
  rw [map_label_chain_zip ht hl, List.filter_append,
    List.filter_eq_self.mpr fun l h => by simpa using hne l h, List.filter_cons_of_neg (by simp),
    List.filter_nil, List.append_nil]

/-- The labels of the steps are the new ones of the chain, and the target is the one that is not. -/
theorem anchor?_and_newLabels_chain :
    b.anchor? (chain t n t.uses (labels.zip steps)) = some target ∧
      b.newLabels (chain t n t.uses (labels.zip steps)) = labels := by
  have hstored : b.items.contains target = true := SortedBy.contains_of_get?_eq_some ht
  have hnone : labels.find? b.items.contains = none :=
    List.find?_eq_none.mpr fun l h => by simp [hl.new l h]
  have hall : labels.filter (!b.items.contains ·) = labels :=
    List.filter_eq_self.mpr fun l h => by rw [hl.new l h]; rfl
  unfold anchor? newLabels
  rw [map_label_chain_zip ht hl]
  constructor
  · rw [List.find?_append, hnone, Option.none_or, List.find?_cons_of_pos hstored]
  · rw [List.filter_append, hall, List.filter_cons_of_neg (by simp [hstored]), List.filter_nil,
      List.append_nil, eraseDups_of_nodup hl.nodup]

variable (hb : b.Sound) (htd : t.status ≠ .done)
include hb htd

omit hl in
/-- Set back to the start, the target is no more done than before. -/
theorem sound_insert_restart : Catalog.Sound (b.items.insert (restart t t.uses)) :=
  hb.catalog.insert (SortedBy.mem_of_get?_eq_some ht) rfl rfl (by rintro ⟨⟩) fun hd => absurd hd htd

theorem sound_merge_chain : (b.merge (chain t n t.uses (labels.zip steps))).Sound := by
  have hmem := SortedBy.mem_of_get?_eq_some ht
  refine Catalog.Sound.insert_chain (hb.admissible t hmem).normalize
    (sound_insert_restart ht hb htd) (new_of_mem_zip ht hl) ?_
  rw [List.map_fst_zip hl.length.le]
  exact hl.nodup

/-- **A planned chain is put in iff the labels of the steps are valid.** -/
theorem put_chain_eq_ok_iff : b.put (chain t n t.uses (labels.zip steps)) = .ok b' ↔
    (∀ l ∈ labels, Label.Valid l) ∧
      b' = ⟨b.merge (chain t n t.uses (labels.zip steps)), place b.order (some target) labels⟩ := by
  have hlabels := map_label_chain_zip (n := n) ht hl
  obtain ⟨hanchor, hnew⟩ := anchor?_and_newLabels_chain (n := n) ht hl
  rw [put_eq_ok_iff, hanchor, hnew]
  constructor
  · rintro ⟨hadm, -, rfl⟩
    refine ⟨fun l h => ?_, rfl⟩
    have hlm : l ∈ (chain t n t.uses (labels.zip steps)).map Item.label := by
      rw [hlabels]
      exact List.mem_append_left _ h
    obtain ⟨i, hi, rfl⟩ := List.mem_map.mp hlm
    exact (hadm i hi).label
  · rintro ⟨hv, rfl⟩
    refine ⟨fun i hi => hb.admissible_of_mem_chain ht hi ?_, sound_merge_chain ht hl hb htd, rfl⟩
    have hil : i.label ∈ labels ++ [target] := hlabels ▸ List.mem_map_of_mem hi
    rcases List.mem_append.mp hil with h | h
    · exact hv _ h
    · rw [List.mem_singleton.mp h]
      exact hb.valid_of_get? ht

theorem put_chain_eq_error (h : b.put (chain t n t.uses (labels.zip steps)) = .error e) :
    ∃ l, e = .badLabel l := by
  have hput := h
  unfold put at hput
  rcases bind_eq_error_iff.mp hput with hput | ⟨is, his, -⟩
  · obtain ⟨i, hi, hrefused⟩ := exists_of_mapM_eq_error hput
    exact ⟨i.label, i.accept_eq_error (hb.admissible_of_mem_chain ht hi) hrefused⟩
  · -- All items of the chain are accepted, so the chain is put in.
    obtain ⟨-, hadm⟩ := (mapM_eq_ok_iff_map fun i j => Item.accept_eq_ok_iff).mp his
    have hok := (put_eq_ok_iff (b := b)).mpr ⟨hadm, sound_merge_chain ht hl hb htd, rfl⟩
    rw [hok] at h
    cases h

end

/-! ### The split -/

/-- **When an item is split, and into what.** -/
theorem Sound.split_eq_ok_iff (hb : b.Sound) : b.split target steps n = .ok (b', labels) ↔
    ∃ t, b.items.get? target = some t ∧ steps ≠ [] ∧ t.status ≠ .done ∧
      (∀ i ∈ b.items, b.items.RestsOn target i.label → i.status ≠ .underway) ∧
      b.items.stepLabels target steps = .ok labels ∧ (∀ l ∈ labels, Label.Valid l) ∧
      b' = ⟨b.merge (chain t n t.uses (labels.zip steps)),
        place b.order (some target) labels⟩ := by
  unfold Blueprint.split
  simp only [bind_eq_ok_iff, pure_eq_ok_iff, Catalog.split_eq_ok_iff]
  constructor
  · rintro ⟨batch, ⟨t, ht, hne, htd, hup, labels', hlabels, rfl⟩, b'', hput, heq⟩
    have hl := labelled_of_stepLabels hlabels
    rw [filter_label_chain ht hl] at heq
    obtain ⟨rfl, rfl⟩ := Prod.mk.inj heq
    obtain ⟨hv, rfl⟩ := (put_chain_eq_ok_iff ht hl hb htd).mp hput
    exact ⟨t, ht, hne, htd, hup, hlabels, hv, rfl⟩
  · rintro ⟨t, ht, hne, htd, hup, hlabels, hv, rfl⟩
    have hl := labelled_of_stepLabels hlabels
    refine ⟨_, ⟨t, ht, hne, htd, hup, labels, hlabels, rfl⟩, _,
      (put_chain_eq_ok_iff ht hl hb htd).mpr ⟨hv, rfl⟩, ?_⟩
    rw [filter_label_chain ht hl]

/-- A split complains about the target, the steps or a label. -/
theorem Sound.split_eq_error (hb : b.Sound) (h : b.split target steps n = .error e) :
    b.items.split target steps n = .error e ∨ ∃ l, e = .badLabel l := by
  unfold Blueprint.split at h
  rcases bind_eq_error_iff.mp h with h | ⟨batch, hplan, h⟩
  · exact Or.inl h
  · obtain ⟨t, ht, -, htd, -, labels, hlabels, rfl⟩ := Catalog.split_eq_ok_iff.mp hplan
    have hl := labelled_of_stepLabels hlabels
    rcases bind_eq_error_iff.mp h with h | ⟨b', -, h⟩
    · exact Or.inr (put_chain_eq_error ht hl hb htd h)
    · cases h

/-- A split fails iff it is not planned or a step is given a label that is not valid. -/
theorem Sound.exists_split_eq_ok_iff (hb : b.Sound) :
    (∃ x, b.split target steps n = .ok x) ↔
      ∃ t, b.items.get? target = some t ∧ steps ≠ [] ∧ t.status ≠ .done ∧
        (∀ i ∈ b.items, b.items.RestsOn target i.label → i.status ≠ .underway) ∧
        (∀ l ∈ givenLabels steps, Label.Valid l ∧ b.items.contains l = false) ∧
        (givenLabels steps).Nodup := by
  constructor
  · rintro ⟨⟨b', labels⟩, h⟩
    obtain ⟨t, ht, hne, htd, hup, hlabels, hv, -⟩ := hb.split_eq_ok_iff.mp h
    obtain ⟨hgiven, hd⟩ := exists_stepLabels_iff.mp ⟨labels, hlabels⟩
    have hv := ((labelled_of_stepLabels hlabels).valid_iff (hb.valid_of_get? ht)).mp hv
    exact ⟨t, ht, hne, htd, hup, fun l hl => ⟨hv l hl, (hgiven l hl).2⟩, hd⟩
  · rintro ⟨t, ht, hne, htd, hup, hgiven, hd⟩
    obtain ⟨labels, hlabels⟩ := exists_stepLabels_iff.mpr
      ⟨fun l hl => ⟨(hgiven l hl).1.solid, (hgiven l hl).2⟩, hd⟩
    have hl := labelled_of_stepLabels hlabels
    have hv := (hl.valid_iff (hb.valid_of_get? ht)).mpr fun l hl => (hgiven l hl).1
    exact ⟨_, hb.split_eq_ok_iff.mpr ⟨t, ht, hne, htd, hup, hlabels, hv, rfl⟩⟩

/-- **When a split fails.** -/
theorem Sound.exists_split_eq_error_iff (hb : b.Sound) :
    (∃ e, b.split target steps n = .error e) ↔
      b.items.get? target = none ∨ steps = [] ∨
      (∃ t, b.items.get? target = some t ∧ t.status = .done) ∨
      (∃ i ∈ b.items, b.items.RestsOn target i.label ∧ i.status = .underway) ∨
      (∃ l ∈ givenLabels steps, l = "" ∨
        (∃ c ∈ l.toList, Text.isBlank c = true ∨ c = '[' ∨ c = ']' ∨ c = ',') ∨
        b.items.contains l = true) ∨
      ¬ (givenLabels steps).Nodup := by
  rw [exists_error_iff, hb.exists_split_eq_ok_iff]
  constructor
  · intro hno
    by_contra hcon
    push Not at hcon
    obtain ⟨hg, hne, hdone, hup, hgiven, hd⟩ := hcon
    obtain ⟨t, ht⟩ := Option.ne_none_iff_exists'.mp hg
    refine hno ⟨t, ht, hne, hdone t ht, hup, fun l hl => ?_, hd⟩
    obtain ⟨h0, hchars, hc⟩ := hgiven l hl
    refine ⟨Label.valid_iff.mpr ⟨h0, fun c hcl => ?_⟩, by simpa using hc⟩
    simpa using hchars c hcl
  · rintro hfail ⟨t, ht, hne, htd, hup, hgiven, hd⟩
    rcases hfail with h | h | ⟨t', ht', h⟩ | ⟨i, hi, hrest, h⟩ | ⟨l, hl, h⟩ | h
    · rw [h] at ht
      cases ht
    · exact hne h
    · rw [ht] at ht'
      obtain rfl : t = t' := Option.some.inj ht'
      exact htd h
    · exact hup i hi hrest h
    · obtain ⟨hv, hc⟩ := hgiven l hl
      obtain ⟨h0, hchars⟩ := Label.valid_iff.mp hv
      rcases h with h | ⟨c, hcl, h⟩ | h
      · exact h0 h
      · obtain ⟨h1, h2, h3, h4⟩ := hchars c hcl
        simp [h1, h2, h3, h4] at h
      · rw [hc] at h
        cases h
    · exact h hd

/-! ### What a split leads to -/

section

variable (ht : b.items.get? target = some t) (hl : Labelled b.items target steps labels)
include ht hl

theorem get?_merge_chain_step {k : Nat} {s : Step} (hk : labels[k]? = some l)
    (hs : steps[k]? = some s) : ∃ u,
      (b.merge (chain t n t.uses (labels.zip steps))).get? l =
        some (stepItem t n u (l, s)).normalize ∧
      (k = 0 → u = t.uses) ∧ ∀ j m, k = j + 1 → labels[j]? = some m → u = {m} := by
  have hzip : (labels.zip steps)[k]? = some (l, s) := List.getElem?_zip_eq_some.mpr ⟨hk, hs⟩
  obtain ⟨u, hmem, hfirst, hlater⟩ := stepItem_mem_chain (t := t) (n := n) (u := t.uses) hzip
  refine ⟨u, get?_merge_of_mem (nodup_labels_chain ht hl) hmem, hfirst, fun j m hj hm => ?_⟩
  have hjk : j < steps.length := by
    have := (List.getElem?_eq_some_iff.mp hs).1
    omega
  exact hlater j (m, steps[j]) hj
    (List.getElem?_zip_eq_some.mpr ⟨hm, List.getElem?_eq_getElem hjk⟩)

theorem get?_merge_chain_target (hb : b.Sound) (hlast : labels.getLast? = some l) :
    (b.merge (chain t n t.uses (labels.zip steps))).get? target = some (restart t {l}) := by
  have hkey := SortedBy.key_eq_of_get?_eq_some ht
  have hlen := hl.length
  rw [List.getLast?_eq_getElem?] at hlast
  have hlt := (List.getElem?_eq_some_iff.mp hlast).1
  obtain ⟨s, hs⟩ : ∃ s, steps[labels.length - 1]? = some s :=
    ⟨_, List.getElem?_eq_getElem (by omega)⟩
  have hzip : (labels.zip steps).getLast? = some (l, s) := by
    rw [List.getLast?_eq_getElem?, List.length_zip, ← hlen, Nat.min_self]
    exact List.getElem?_zip_eq_some.mpr ⟨hlast, hs⟩
  have hmem := restart_mem_chain (t := t) (n := n) (u := t.uses) hzip
  have hget := get?_merge_of_mem (b := b) (nodup_labels_chain ht hl) hmem
  have hnormal := (hb.admissible t (SortedBy.mem_of_get?_eq_some ht)).normalize
  rw [normalize_restart hnormal] at hget
  rw [← hkey]
  exact hget

theorem get?_merge_chain_other {m : String} (hm : m ≠ target) (hml : m ∉ labels) :
    (b.merge (chain t n t.uses (labels.zip steps))).get? m = b.items.get? m := by
  refine get?_merge_of_notMem ?_
  rw [map_label_chain_zip ht hl]
  simp [hm, hml]

end

/-- **What a split of a reachable blueprint does.** It fails iff the target is not there, there are
no steps, the target is done, something the target rests on is underway, or a step is given a label
that is not valid, taken or given twice. No check of the changed items as a whole ever fails.
Otherwise the first step uses what the target used, each other one the one before, and the target
the last one; all of them start anew, nothing else changes, and in the order the steps stand right
before the target. -/
theorem Reachable.split_spec (h : b.Reachable) (target : String) (steps : List Step) (n : UInt32) :
    ((∃ e, b.split target steps n = .error e) ↔
      b.items.get? target = none ∨ steps = [] ∨
      (∃ t, b.items.get? target = some t ∧ t.status = .done) ∨
      (∃ i ∈ b.items, b.items.RestsOn target i.label ∧ i.status = .underway) ∨
      (∃ l ∈ givenLabels steps, l = "" ∨
        (∃ c ∈ l.toList, Text.isBlank c = true ∨ c = '[' ∨ c = ']' ∨ c = ',') ∨
        b.items.contains l = true) ∨
      ¬ (givenLabels steps).Nodup) ∧
    (∀ e, b.split target steps n = .error e →
      (∀ ls, e ≠ .cycle ls) ∧ (∀ l f, e ≠ .badItem l f) ∧
      (∀ l, e = .notFound l → l = target ∧ b.items.get? target = none) ∧
      ∀ l s s' m, e ≠ .transition l s s' (.doneOver m)) ∧
    ∀ b' labels, b.split target steps n = .ok (b', labels) →
      labels.length = steps.length ∧ labels.Nodup ∧ (∀ l ∈ labels, b.items.get? l = none) ∧
      ∃ t, b.items.get? target = some t ∧
        (∀ k l s, labels[k]? = some l → steps[k]? = some s → ∃ i, b'.items.get? l = some i ∧
          (k = 0 → i.uses = t.uses) ∧ (∀ j m, k = j + 1 → labels[j]? = some m → i.uses = {m}) ∧
          i.status = .todo ∧ i.attempts = ⟨0, n⟩ ∧ i.kind = s.kind.getD .lem ∧
          i.priority = t.priority) ∧
        (∃ l, labels.getLast? = some l ∧ b'.items.get? target =
          some { t with uses := {l}, status := .todo, attempts := ⟨0, t.attempts.budget⟩ }) ∧
        (∀ l, l ≠ target → l ∉ labels → b'.items.get? l = b.items.get? l) ∧
        ∃ front rest, b.order = front ++ target :: rest ∧
          b'.order = front ++ labels ++ target :: rest := by
  have hb := h.sound
  refine ⟨hb.exists_split_eq_error_iff, ?_, ?_⟩
  · intro e he
    rcases hb.split_eq_error he with he | ⟨l, rfl⟩
    · rcases Catalog.split_eq_error he with ⟨rfl, hnone⟩ | rfl | ⟨s, r, rfl, hr⟩
      · simp [hnone]
      · simp
      · refine ⟨by simp, by simp, by simp, ?_⟩
        rintro l s s' m ⟨⟩
        rcases hr with hr | ⟨ls, hr⟩ | ⟨l, hr | hr⟩ <;> cases hr
    · simp
  · intro b' labels hsplit
    obtain ⟨t, ht, hne, htd, hup, hlabels, hv, rfl⟩ := hb.split_eq_ok_iff.mp hsplit
    have hl := labelled_of_stepLabels hlabels
    refine ⟨hl.length, hl.nodup, fun l hll => ?_, t, ht, ?_, ?_, ?_, ?_⟩
    · exact SortedBy.contains_eq_false_iff.mp (hl.new l hll)
    · intro k l s hk hs
      obtain ⟨u, hget, hfirst, hlater⟩ := get?_merge_chain_step (n := n) ht hl hk hs
      exact ⟨_, hget, hfirst, hlater, rfl, rfl, rfl, rfl⟩
    · have hnil : labels ≠ [] := by
        intro h0
        have hlen := hl.length
        rw [h0] at hlen
        exact hne (List.eq_nil_of_length_eq_zero hlen.symm)
      have hlast := List.getLast?_eq_some_getLast hnil
      exact ⟨_, hlast, get?_merge_chain_target ht hl hb hlast⟩
    · exact fun l => get?_merge_chain_other ht hl
    · have hstored := SortedBy.contains_of_get?_eq_some ht
      exact exists_place_eq ((hb.mem_order target).mpr hstored) labels

/-- A step is given a label with a comma; another one is given the first numbered label. -/
theorem Reachable.split_spec_numbered :
    let i : Item := { label := "a", kind := .defn, attempts := ⟨0, 3⟩ }
    let j : Item := { label := "b", kind := .thm, uses := {"a"}, attempts := ⟨0, 2⟩, priority := 4 }
    let b := (∅ : Blueprint).after (.upsertBatch [j, i])
    let steps : List Step := [{ statement := "s" }, { label := some " b_1 ", statement := "t" }]
    let b' := b.after (.split "b" steps 7)
    b.Reachable ∧ (∃ e, b.split "b" [{ label := some "x,y", statement := "s" }] 7 = .error e) ∧
    b.split "b" steps 7 = .ok (b', ["b_2", "b_1"]) ∧
    (∃ i, b'.items.get? "b_2" = some i ∧ i.uses = {"a"} ∧ i.priority = 4) ∧
    ∃ front rest, b.order = front ++ "b" :: rest ∧
      b'.order = front ++ ["b_2", "b_1"] ++ "b" :: rest := by
  intro i j b steps b'
  have hb : b.Reachable := .after _ .empty
  have hok : b.split "b" steps 7 = .ok (b', ["b_2", "b_1"]) := by decide +kernel
  have ht : b.items.get? "b" = some j := by decide +kernel
  obtain ⟨hfail, -, -⟩ := hb.split_spec "b" [{ label := some "x,y", statement := "s" }] 7
  obtain ⟨-, -, hsplit⟩ := hb.split_spec "b" steps 7
  obtain ⟨-, -, -, t, ht', hstep, -, -, horder⟩ := hsplit _ _ hok
  obtain rfl : j = t := Option.some.inj (ht.symm.trans ht')
  obtain ⟨k, hk, huses, -, -, -, -, hpriority⟩ := hstep 0 "b_2" _ rfl rfl
  have hcomma : "x,y" ∈ givenLabels [{ label := some "x,y", statement := "s" }] := by
    decide +kernel
  refine ⟨hb, hfail.mpr ?_, hok, ⟨k, hk, huses rfl, hpriority⟩, horder⟩
  exact Or.inr (Or.inr (Or.inr (Or.inr (Or.inl
    ⟨"x,y", hcomma, Or.inr (Or.inl ⟨',', by decide, by decide⟩)⟩))))

end Blueprint

end ProofTracker
