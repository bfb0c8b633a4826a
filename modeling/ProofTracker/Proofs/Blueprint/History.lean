import ProofTracker.Proofs.Blueprint.Progress

/-! # Items along a run

An item that is stored once is stored for good, with the budget it had. It leaves `done` only by its
own revert and `hard` only by its own split, and only its own split takes attempts back
(`Reachable.run_keeps`). What is underway has an attempt left, if that was so at the start
(`attempts_lt_of_run`). Both follow from what one call does to an item, by induction on the run. -/

namespace ProofTracker.Blueprint

variable {b b' : Blueprint} {k : Call} {ks : List Call} {i i' j : Item} {l : String}
  {p : Call → Prop}

/-- The blueprint after the calls, one after the other. -/
def run (b : Blueprint) (ks : List Call) : Blueprint := ks.foldl after b

/-- In the course of the run a call that passes the test succeeds. -/
def Succeeds (b : Blueprint) (ks : List Call) (p : Call → Prop) : Prop :=
  ∃ front k back b', ks = front ++ k :: back ∧ p k ∧ k.carryOut (b.run front) = .ok b'

theorem after_cases (b : Blueprint) (k : Call) :
    k.carryOut b = .ok (b.after k) ∨ b.after k = b := by
  unfold after
  cases h : k.carryOut b with
  | ok b' => exact Or.inl rfl
  | error e => exact Or.inr rfl

theorem Reachable.run (h : b.Reachable) (ks : List Call) : (b.run ks).Reachable := by
  induction ks generalizing b with
  | nil => exact h
  | cons k ks ih => exact ih (h.after k)

theorem Succeeds.head (h : k.carryOut b = .ok b') (hp : p k) (ks : List Call) :
    b.Succeeds (k :: ks) p := ⟨[], k, ks, b', rfl, hp, h⟩

theorem Succeeds.tail (h : (b.after k).Succeeds ks p) : b.Succeeds (k :: ks) p := by
  obtain ⟨front, k', back, b', rfl, hp, hok⟩ := h
  exact ⟨k :: front, k', back, b', rfl, hp, hok⟩

theorem order_sublist_run (b : Blueprint) (ks : List Call) :
    b.order.Sublist (b.run ks).order := by
  induction ks generalizing b with
  | nil => exact .refl _
  | cons k ks ih =>
    show b.order.Sublist ((b.after k).run ks).order
    rcases after_cases b k with hok | hsame
    · exact (order_sublist hok).trans (ih _)
    · rw [hsame]
      exact ih b

/-! ### Items that stay -/

/-- What a run has done to the item with the label `l`. -/
structure Followed (b : Blueprint) (ks : List Call) (l : String) (i j : Item) : Prop where
  budget : j.attempts.budget = i.attempts.budget
  done : i.status = .done → j.status ≠ .done → b.Succeeds ks (· = .revert l)
  hard : i.status = .hard → j.status ≠ .hard → b.Succeeds ks fun k => ∃ steps n, k = .split l steps n
  current : j.attempts.current < i.attempts.current →
    b.Succeeds ks fun k => ∃ steps n, k = .split l steps n

theorem Followed.refl (b : Blueprint) (ks : List Call) (l : String) (i : Item) :
    Followed b ks l i i :=
  ⟨rfl, fun h hn => absurd h hn, fun h hn => absurd h hn, fun h => absurd h (UInt32.lt_irrefl _)⟩

theorem Followed.after (h : Followed (b.after k) ks l i j) : Followed b (k :: ks) l i j where
  budget := h.budget
  done hd hn := (h.done hd hn).tail
  hard hd hn := (h.hard hd hn).tail
  current hlt := (h.current hlt).tail

/-- A change is due to the first call, or to one of the others. -/
theorem Followed.cons (hok : k.carryOut b = .ok b') (hp : Progress l k i i')
    (hi : i.attempts.current ≤ i.attempts.budget) (h : Followed (b.after k) ks l i' j) :
    Followed b (k :: ks) l i j where
  budget := h.budget.trans hp.budget
  done hd hn := by
    rcases hp.turns with hsame | hturns
    · exact (h.done (hsame.trans hd) hn).tail
    · exact .head hok (hturns.eq_revert hd) ks
  hard hd hn := by
    rcases hp.turns with hsame | hturns
    · exact (h.hard (hsame.trans hd) hn).tail
    · exact .head hok (hturns.eq_split hd) ks
  current hlt := by
    rcases hp.current hi with hle | ⟨hsplit, -⟩
    · exact (h.current (UInt32.lt_of_lt_of_le hlt hle)).tail
    · exact .head hok hsplit ks

theorem exists_followed (hb : b.Sound) (hi : b.items.get? l = some i) (ks : List Call) :
    ∃ j, (b.run ks).items.get? l = some j ∧ Followed b ks l i j := by
  induction ks generalizing b i with
  | nil => exact ⟨i, hi, .refl b [] l i⟩
  | cons k ks ih =>
    rcases after_cases b k with hok | hsame
    · obtain ⟨i', hi', hp⟩ := exists_progress hok hi
      obtain ⟨j, hj, h⟩ := ih (hb.after k) hi'
      have hle := (hb.admissible i (SortedBy.mem_of_get?_eq_some hi)).budget
      exact ⟨j, hj, h.cons hok hp hle⟩
    · have hi' : (b.after k).items.get? l = some i := by rwa [hsame]
      obtain ⟨j, hj, h⟩ := ih (hb.after k) hi'
      exact ⟨j, hj, h.after⟩

/-- **What happens to a stored item, whatever calls are made.** The order of the document keeps the
old order. The item stays, with its budget; it has left `done` only if it was reverted, and `hard`
only if it was split, and only then it has fewer attempts. A further call gives it another status
only along the ways of its life, and takes attempts back only by splitting it. -/
theorem Reachable.run_keeps (h : b.Reachable) (ks : List Call) :
    b.order.Sublist (b.run ks).order ∧
    ∀ l i, b.items.get? l = some i → ∃ j, (b.run ks).items.get? l = some j ∧
      j.attempts.budget = i.attempts.budget ∧
      (i.status = .done → j.status ≠ .done → b.Succeeds ks (· = .revert l)) ∧
      (i.status = .hard → j.status ≠ .hard →
        b.Succeeds ks fun k => ∃ steps n, k = .split l steps n) ∧
      (j.attempts.current < i.attempts.current →
        b.Succeeds ks fun k => ∃ steps n, k = .split l steps n) ∧
      ∀ k b', k.carryOut (b.run ks) = .ok b' → ∃ j', b'.items.get? l = some j' ∧
        (j'.status = j.status ∨ Turns l j k j'.status) ∧
        (j.attempts.current ≤ j'.attempts.current ∨
          (∃ steps n, k = .split l steps n) ∧ j'.attempts.current = 0) := by
  refine ⟨order_sublist_run b ks, fun l i hi => ?_⟩
  obtain ⟨j, hj, hf⟩ := exists_followed h.sound hi ks
  refine ⟨j, hj, hf.budget, hf.done, hf.hard, hf.current, fun k b' hok => ?_⟩
  obtain ⟨j', hj', hp⟩ := exists_progress hok hj
  have hle := ((h.run ks).sound.admissible j (SortedBy.mem_of_get?_eq_some hj)).budget
  exact ⟨j', hj', hp.turns, hp.current hle⟩

/-- A done item is offered again as if it were new, reverted, started with too many attempts and
split. -/
theorem Reachable.run_keeps_restarted :
    let i : Item := { label := "a", kind := .lem, attempts := ⟨0, 2⟩ }
    let b := (∅ : Blueprint).run [.upsert i, .advance "a" .underway 1, .advance "a" .done 0]
    let ks : List Call := [.upsertBatch [{ i with attempts := ⟨0, 9⟩ }, { i with label := "b" }],
      .revert "a", .advance "a" .underway 7, .split "a" [{ statement := "s" }] 5]
    b.Reachable ∧ b.items.get? "a" = some { i with status := .done, attempts := ⟨1, 2⟩ } ∧
    b.order.Sublist (b.run ks).order ∧ (b.run ks).order = ["b", "a_1", "a"] ∧
    (b.run ks).items.get? "a" = some { i with uses := {"a_1"} } ∧
    b.Succeeds ks (· = .revert "a") ∧
    b.Succeeds ks (fun k => ∃ steps n, k = .split "a" steps n) := by
  intro i b ks
  have hb : b.Reachable := Reachable.empty.run _
  have hi : b.items.get? "a" = some { i with status := .done, attempts := ⟨1, 2⟩ } := by
    decide +kernel
  have hj : (b.run ks).items.get? "a" = some { i with uses := {"a_1"} } := by decide +kernel
  obtain ⟨hsub, hitems⟩ := hb.run_keeps ks
  obtain ⟨j, hj', -, hdone, -, hcurrent, -⟩ := hitems "a" _ hi
  obtain rfl := Option.some.inj (hj.symm.trans hj')
  exact ⟨hb, hi, hsub, by decide +kernel, hj, hdone rfl (by decide), hcurrent (by decide)⟩

/-! ### Attempts that are left -/

theorem attempts_lt_after
    (h : ∀ i ∈ b.items, i.status = .underway → i.attempts.current < i.attempts.budget) (k : Call) :
    ∀ j ∈ (b.after k).items, j.status = .underway → j.attempts.current < j.attempts.budget := by
  rcases after_cases b k with hok | hsame
  · intro j hj hs
    have hget := SortedBy.get?_of_mem hj
    cases hl : b.items.get? j.label with
    | none =>
      rw [status_of_new hok hl hget] at hs
      cases hs
    | some i =>
      obtain ⟨j', hj', hp⟩ := exists_progress hok hl
      obtain rfl : j = j' := Option.some.inj (hget.symm.trans hj')
      exact hp.attempts_lt (h i (SortedBy.mem_of_get?_eq_some hl)) hs
  · rwa [hsame]

/-- **Nothing is ever underway with its attempts used up**, if nothing was at the start. -/
theorem attempts_lt_of_run
    (h : ∀ i ∈ b.items, i.status = .underway → i.attempts.current < i.attempts.budget)
    (ks : List Call) :
    ∀ j ∈ (b.run ks).items, j.status = .underway → j.attempts.current < j.attempts.budget := by
  induction ks generalizing b with
  | nil => exact h
  | cons k ks ih => exact ih (attempts_lt_after h k)

/-- An item is started with its last attempt left, another one without any; the first is offered again
with all attempts used up. -/
theorem attempts_lt_of_run_last :
    let i : Item := { label := "a", kind := .lem, attempts := ⟨4294967294, 4294967295⟩ }
    let j : Item := { i with status := .underway }
    let z : Item := { label := "z", kind := .lem, attempts := ⟨0, 0⟩ }
    let ks : List Call := [.upsertBatch [i, z], .advance "z" .underway 0, .advance "a" .underway 0,
      .upsert { i with attempts := ⟨4294967295, 4294967295⟩ }]
    ((∅ : Blueprint).run ks).items.toList = [j, { z with status := .hard }] ∧
    j ∈ ((∅ : Blueprint).run ks).items ∧ j.attempts.current < j.attempts.budget := by
  intro i j z ks
  have hlist : ((∅ : Blueprint).run ks).items.toList = [j, { z with status := .hard }] := by
    decide +kernel
  have hj : j ∈ ((∅ : Blueprint).run ks).items := by
    rw [← SortedBy.mem_toList, hlist]
    exact List.mem_cons_self
  have hempty : ∀ i ∈ (∅ : Blueprint).items,
      i.status = .underway → i.attempts.current < i.attempts.budget :=
    fun i hi => absurd hi SortedBy.notMem_empty
  exact ⟨hlist, hj, attempts_lt_of_run hempty ks j hj rfl⟩

end ProofTracker.Blueprint
