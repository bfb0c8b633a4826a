import ProofTracker.Proofs.Blueprint.History
import ProofTracker.Proofs.Catalog.Eligible

/-! # Items that wait

An item that is to be done can be started, or waits for one that it uses and that is not done. If
that one is to be done too, it waits in turn. As no item rests on itself, the waiting ends with an
item that can be started, is being worked on or has been given up (`Sound.exists_moveable`). So a
blueprint never comes to a standstill by itself (`Reachable.exists_eligible`). -/

namespace ProofTracker

namespace Catalog

variable {c : Catalog} {i j : Item}

/-- The item can be started, is being worked on or has been given up: what happens to it next is up to
whoever works on it. -/
def Moveable (c : Catalog) (i : Item) : Prop :=
  i ∈ c.eligible ∨ i.status = .underway ∨ i.status = .hard

/-- The item is to be done, and neither it nor anything that it rests on can be moved. -/
def Stranded (c : Catalog) (i : Item) : Prop :=
  i ∈ c ∧ i.status = .todo ∧ ¬ c.Moveable i ∧
    ∀ j ∈ c, c.RestsOn i.label j.label → ¬ c.Moveable j

/-- What strands an item is another one that is stranded. -/
theorem Stranded.exists_mem_uses (hc : c.Sound) (hi : c.Stranded i) :
    ∃ j, c.Stranded j ∧ j.label ∈ i.uses := by
  obtain ⟨hmem, htodo, hself, hup⟩ := hi
  have hnot : ¬ c.usesDone i = true := fun h =>
    hself (Or.inl (mem_eligible.mpr ⟨hmem, htodo, h⟩))
  obtain ⟨l, hl, hundone⟩ : ∃ l ∈ i.uses, ¬ c.isDone l = true := by
    simpa [usesDone_iff] using hnot
  obtain ⟨j, hj, rfl⟩ := SortedBy.contains_iff.mp (hc.closed i hmem l hl)
  have hstep : c.RestsOn i.label j.label := .single ((uses_label_iff hmem).mpr hl)
  have hstuck := hup j hj hstep
  have hstatus : j.status = .todo := by
    cases hs : j.status with
    | todo => rfl
    | underway => exact absurd (Or.inr (Or.inl hs)) hstuck
    | done => exact absurd ((isDone_label_iff hj).mpr hs) hundone
    | hard => exact absurd (Or.inr (Or.inr hs)) hstuck
  exact ⟨j, ⟨hj, hstatus, hstuck, fun k hk hrest => hup k hk (hstep.trans hrest)⟩, hl⟩

/-- No item of a sound catalog is stranded. -/
theorem Sound.not_stranded (hc : c.Sound) (i : Item) : ¬ c.Stranded i := by
  classical
  intro hi
  let is := c.toList.filter fun j => decide (c.Stranded j)
  have his : ∀ j, j ∈ is ↔ c.Stranded j := fun j => by
    simp only [is, List.mem_filter, decide_eq_true_eq, SortedBy.mem_toList]
    exact ⟨And.right, fun h => ⟨h.1, h⟩⟩
  have hne : is ≠ [] := List.ne_nil_of_mem ((his i).mpr hi)
  have hmem : ∀ j ∈ is, j ∈ c := fun j hj => ((his j).mp hj).1
  have hblocked : ∀ j ∈ is, ∃ k ∈ is, k.label ∈ j.uses := fun j hj => by
    obtain ⟨k, hk, hu⟩ := ((his j).mp hj).exists_mem_uses hc
    exact ⟨k, (his k).mpr hk, hu⟩
  obtain ⟨j, -, hloop⟩ := exists_restsOn_self hne hmem hblocked
  exact hc.acyclic j.label hloop

theorem Sound.exists_moveable (hc : c.Sound) (hi : i ∈ c) (htodo : i.status = .todo) :
    i ∈ c.eligible ∨ ∃ j ∈ c, j.label ∈ c.ancestors i.label ∧ c.Moveable j := by
  by_contra hno
  push Not at hno
  obtain ⟨hself, hup⟩ := hno
  refine hc.not_stranded i ⟨hi, htodo, ?_, fun j hj hrest => hup j hj (mem_ancestors.mpr hrest)⟩
  simp [Moveable, hself, htodo]

end Catalog

namespace Blueprint

variable {b : Blueprint}

/-- **A blueprint does not come to a standstill by itself.** Each item that is to be done can be
started, or rests on one that can be, is underway or has been given up. So if something is to be done
and nothing is underway or given up, something can be started. -/
theorem Reachable.exists_eligible (h : b.Reachable) :
    (∀ i ∈ b.items, i.status = .todo → i ∈ b.items.eligible ∨
      ∃ j ∈ b.items, j.label ∈ b.items.ancestors i.label ∧
        (j ∈ b.items.eligible ∨ j.status = .underway ∨ j.status = .hard)) ∧
    ((∃ i ∈ b.items, i.status = .todo) →
      (∀ i ∈ b.items, i.status ≠ .underway ∧ i.status ≠ .hard) → b.items.eligible ≠ []) := by
  have hall := fun i hi htodo => h.sound.catalog.exists_moveable (i := i) hi htodo
  refine ⟨hall, ?_⟩
  rintro ⟨i, hi, htodo⟩ hnone
  rcases hall i hi htodo with he | ⟨j, hj, -, he | hs | hs⟩
  · exact List.ne_nil_of_mem he
  · exact List.ne_nil_of_mem he
  · exact absurd hs (hnone j hj).1
  · exact absurd hs (hnone j hj).2

/-- The last of three items waits for the first, which is given up; after a split it waits for the step
that can be started. -/
theorem Reachable.exists_eligible_chain :
    let item (l : String) (uses : LabelSet) : Item :=
      { label := l, kind := .lem, uses, attempts := ⟨0, 1⟩ }
    let b := (∅ : Blueprint).run
      [.upsertBatch [item "a" ∅, item "b" {"a"}, item "c" {"b"}], .advance "a" .underway 1]
    let b' := b.after (.split "a" [{ statement := "s" }] 5)
    b.items.eligible = [] ∧
    (∃ j ∈ b.items, j.label ∈ b.items.ancestors "c" ∧
      (j ∈ b.items.eligible ∨ j.status = .underway ∨ j.status = .hard)) ∧
    b'.items.eligible ≠ [] := by
  intro item b b'
  have hb : b.Reachable := Reachable.empty.run _
  have hnil : b.items.eligible = [] := by decide +kernel
  have hc : item "c" {"b"} ∈ b.items := by
    have hmem : item "c" {"b"} ∈ b.items.toList := by decide +kernel
    exact hmem
  have htodo : ∀ i ∈ b'.items, i.status = .todo := by
    have hall : ∀ i ∈ b'.items.toList, i.status = .todo := by decide +kernel
    exact hall
  have hc' : item "c" {"b"} ∈ b'.items := by
    have hmem : item "c" {"b"} ∈ b'.items.toList := by decide +kernel
    exact hmem
  refine ⟨hnil, ?_, ?_⟩
  · rcases hb.exists_eligible.1 _ hc rfl with he | hup
    · rw [hnil] at he
      cases he
    · exact hup
  · refine (hb.after _).exists_eligible.2 ⟨_, hc', rfl⟩ fun i hi => ?_
    rw [htodo i hi]
    decide

end Blueprint

end ProofTracker
