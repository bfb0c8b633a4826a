import ProofTracker.Proofs.Blueprint.Sound

/-! # Runs of calls

Whoever holds a blueprint changes it by calls, some of which fail and change nothing (`after`). The
reachable blueprints are those that runs of calls lead to, from the empty blueprint, listed items or
a document. They are all sound, since one call leads from a sound blueprint to a sound one
(`Sound.after`). -/

namespace ProofTracker.Blueprint

/-- A call that changes a blueprint if it succeeds. -/
inductive Call where
  | upsert (i : Item)
  | upsertBatch (batch : List Item)
  | advance (label : String) (requested : Status) (delta : UInt32)
  | revert (label : String)
  | split (target : String) (steps : List Step) (budget : UInt32)

/-- What the call makes of the blueprint. -/
def Call.carryOut (b : Blueprint) : Call → Except Error Blueprint
  | .upsert i => b.upsert i
  | .upsertBatch batch => b.upsertBatch batch
  | .advance l s n => (b.advance l s n).map Prod.fst
  | .revert l => (b.revert l).map Prod.fst
  | .split l steps n => (b.split l steps n).map Prod.fst

/-- The blueprint after the call, which is the same one if the call fails. -/
def after (b : Blueprint) (k : Call) : Blueprint :=
  match k.carryOut b with
  | .ok b' => b'
  | .error _ => b

/-- The blueprints that calls lead to. -/
inductive Reachable : Blueprint → Prop
  | empty : Reachable ∅
  | ofItems {items : List Item} {b : Blueprint} (h : ofItems items = .ok b) : Reachable b
  | parse {doc : String} {b : Blueprint} (h : parse doc = .ok b) : Reachable b
  | after {b : Blueprint} (k : Call) (h : Reachable b) : Reachable (b.after k)

variable {b b' : Blueprint} {k : Call}

theorem map_fst_eq_ok_iff {α β ε : Type} {x : Except ε (α × β)} {a : α} :
    x.map Prod.fst = .ok a ↔ ∃ c, x = .ok (a, c) := by
  cases x with
  | error e => simp [Except.map]
  | ok p => obtain ⟨a', c⟩ := p; simp [Except.map]

/-- One call leads from a sound blueprint to a sound one. -/
theorem Sound.carryOut (hb : b.Sound) (h : k.carryOut b = .ok b') : b'.Sound := by
  cases k with
  | upsert i => exact hb.upsertBatch h
  | upsertBatch batch => exact hb.upsertBatch h
  | advance l s n =>
    obtain ⟨t, h⟩ := map_fst_eq_ok_iff.mp h
    exact hb.advance h
  | revert l =>
    obtain ⟨t, h⟩ := map_fst_eq_ok_iff.mp h
    exact hb.revert h
  | split l steps n =>
    obtain ⟨labels, h⟩ := map_fst_eq_ok_iff.mp h
    exact hb.split h

theorem Sound.after (hb : b.Sound) (k : Call) : (b.after k).Sound := by
  unfold Blueprint.after
  cases h : k.carryOut b with
  | ok b' => exact hb.carryOut h
  | error e => exact hb

theorem Sound.of_ofItems {items : List Item} (h : ofItems items = .ok b) : b.Sound :=
  sound_empty.put h

theorem Sound.of_parse {doc : String} (h : Blueprint.parse doc = .ok b) : b.Sound := by
  obtain ⟨items, -, h⟩ := bind_eq_ok_iff.mp h
  exact .of_ofItems h

theorem Reachable.sound (h : b.Reachable) : b.Sound := by
  induction h with
  | empty => exact sound_empty
  | ofItems h => exact .of_ofItems h
  | parse h => exact .of_parse h
  | after k _ ih => exact ih.after k

open Document Text in
/-- **In every reachable blueprint** each item stands under its label, the order lists the labels of
the items once each, labels are valid, all that is used is there, no item rests on itself, attempts
are within the budget, what a done item uses is done, and all texts are in normal form. -/
theorem Reachable.wellFormed (h : b.Reachable) :
    (∀ l i, b.items.get? l = some i → i.label = l) ∧
    (b.order.Nodup ∧ ∀ l, l ∈ b.order ↔ ∃ i, b.items.get? l = some i) ∧
    (∀ i ∈ b.items, i.label ≠ "" ∧
      ∀ c ∈ i.label.toList, isBlank c = false ∧ c ≠ '[' ∧ c ≠ ']' ∧ c ≠ ',') ∧
    (∀ i ∈ b.items, ∀ l ∈ i.uses, ∃ j, b.items.get? l = some j) ∧
    (∀ l, ¬ Relation.TransGen b.items.Uses l l) ∧
    (∀ i ∈ b.items, i.attempts.current ≤ i.attempts.budget) ∧
    (∀ i ∈ b.items, i.status = .done →
      ∀ l ∈ i.uses, ∃ j, b.items.get? l = some j ∧ j.status = .done) ∧
    (∀ i ∈ b.items, normalText i.statement.toList = i.statement.toList ∧
      normalText i.proof.toList = i.proof.toList ∧ normalLocation i.location = i.location ∧
      ∀ x ∈ i.location, '\n' ∉ x.toList ∧ '\r' ∉ x.toList) := by
  have hb := h.sound
  have hget : ∀ l, b.items.contains l = true ↔ ∃ i, b.items.get? l = some i := fun l => by
    rw [SortedBy.contains_eq_isSome, Option.isSome_iff_exists]
  refine ⟨hb.key_eq, ⟨hb.order_nodup, fun l => ?_⟩, fun i hi => ?_, fun i hi l hl => ?_,
    hb.catalog.acyclic, fun i hi => (hb.admissible i hi).budget, fun i hi hd l hl => ?_,
    fun i hi => ?_⟩
  · rw [hb.mem_order, hget]
  · obtain ⟨hne, hall⟩ := (hb.admissible i hi).label
    refine ⟨hne, fun c hc => ?_⟩
    simpa [Label.allows, and_assoc] using List.all_eq_true.mp hall c hc
  · exact (hget l).mp (hb.catalog.closed i hi l hl)
  · exact Catalog.isDone_iff.mp (hb.catalog.done i hi hd l hl)
  · have ha := hb.admissible i hi
    exact ⟨ha.statement, ha.proof, ha.location, ha.oneLine⟩

/-- A run with a batch, a start too early, which fails, and a split. -/
theorem Reachable.wellFormed_split :
    let i : Item := { label := "a", kind := .lem, attempts := ⟨0, 3⟩, statement := " x " }
    let j : Item := { label := "b", kind := .thm, uses := {"a"}, attempts := ⟨0, 2⟩ }
    let b := (((∅ : Blueprint).after (.upsertBatch [j, i])).after (.advance "b" .underway 1)).after
      (.split "b" [{ statement := "s" }, { statement := "t" }] 7)
    b.order = ["b_1", "b_2", "b", "a"] ∧ ∀ l, ¬ Relation.TransGen b.items.Uses l l := by
  intro i j b
  have hb : b.Reachable := .after _ (.after _ (.after _ .empty))
  obtain ⟨-, -, -, -, hacyclic, -⟩ := hb.wellFormed
  exact ⟨by decide +kernel, hacyclic⟩

end ProofTracker.Blueprint
