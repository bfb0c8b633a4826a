import ProofTracker.Proofs.Lifecycle

/-! # Moves of one item

An item is asked to move again and again, with any status and any number of attempts. Moves that are
refused change nothing; the others change the status and the counter of this item only. The counter
shows the exact sum of all attempts as long as this is within the budget, and the budget from then on
(`Tally.Counts`), although a single addition stops at the greatest number there is
(`current_record_eq`). So the sum tells which move makes the item hard, and once the item is hard or
done it does not move any more (`foldl_ask_of_ended`). All this together is
`advance_after_moves`. -/

namespace ProofTracker

/-! ### Counting attempts -/

/-- The sum of two numbers, or the greatest number if there is no such sum. -/
def addSaturating (a b : UInt32) : UInt32 :=
  if a.toNat + b.toNat < UInt32.size then a + b else .ofNatLT (UInt32.size - 1) (by decide)

theorem toNat_addSaturating (a b : UInt32) :
    (addSaturating a b).toNat = min (a.toNat + b.toNat) (UInt32.size - 1) := by
  unfold addSaturating
  split_ifs with h
  · rw [UInt32.toNat_add]
    simp only [UInt32.size] at h ⊢
    omega
  · rw [UInt32.toNat_ofNatLT]
    omega

theorem toNat_min (a b : UInt32) : (min a b).toNat = min a.toNat b.toNat := by
  show (if a ≤ b then a else b).toNat = _
  split_ifs with h <;> rw [UInt32.le_iff_toNat_le] at h <;> omega

/-- A counter that is cut down to its budget does not show whether the sum has been exact. -/
theorem current_record_eq (a : Attempts) (delta : UInt32) :
    (a.record delta).current = min (addSaturating a.current delta) a.budget := by
  have hbudget := a.budget.toNat_lt
  rw [← UInt32.toNat_inj, Attempts.toNat_current_record, toNat_min, toNat_addSaturating]
  simp only [UInt32.size]
  omega

/-! ### Moves in a row -/

/-- A move that is asked for, with the attempts made since the last one. -/
structure Move where
  requested : Status
  delta : UInt32

/-- A catalog, and the sum of the attempts that moves have counted on the way to it. -/
structure Tally where
  catalog : Catalog
  spent : Nat

/-- The item with the label is asked to move. A refused move counts nothing. -/
def Tally.ask (l : String) (s : Tally) (m : Move) : Tally :=
  match s.catalog.advance l m.requested m.delta with
  | .ok (c, _) => ⟨c, s.spent + m.delta.toNat⟩
  | .error _ => s

/-- The item has got this status and these attempts on the way from `c`, everything else is as it has
been, and the counter is the sum of all attempts, cut down to the budget. -/
structure Tally.Counts (c : Catalog) (i : Item) (s : Tally) (status : Status) (a : Attempts) :
    Prop where
  catalog : s.catalog = c.insert { i with status, attempts := a }
  budget : a.budget = i.attempts.budget
  current : a.current.toNat = min i.attempts.budget.toNat (i.attempts.current.toNat + s.spent)

/-- The item with the label is asked to move, again and again. -/
def Catalog.moves (c : Catalog) (l : String) (ms : List Move) : Tally :=
  ms.foldl (Tally.ask l) ⟨c, 0⟩

variable {c c' : Catalog} {s : Tally} {i : Item} {l : String} {t : Transition} {m : Move}
  {status requested : Status} {a : Attempts} {delta : UInt32}

theorem Tally.ask_of_ok (h : s.catalog.advance l m.requested m.delta = .ok (c', t)) :
    s.ask l m = ⟨c', s.spent + m.delta.toNat⟩ := by
  unfold ask; rw [h]

theorem Tally.ask_of_error {e : Error} (h : s.catalog.advance l m.requested m.delta = .error e) :
    s.ask l m = s := by
  unfold ask; rw [h]

namespace Tally.Counts

theorem start (hi : i ∈ c) (hle : i.attempts.current ≤ i.attempts.budget) :
    Tally.Counts c i ⟨c, 0⟩ i.status i.attempts where
  catalog := (SortedBy.insert_self (SortedBy.get?_of_mem hi)).symm
  budget := rfl
  current := by
    rw [UInt32.le_iff_toNat_le] at hle
    exact (Nat.min_eq_right hle).symm

theorem get?_catalog (h : s.Counts c i status a) :
    s.catalog.get? i.label = some { i with status, attempts := a } := by
  rw [h.catalog]
  exact SortedBy.get?_insert_self _ _

theorem get?_catalog_of_ne (h : s.Counts c i status a) (hl : l ≠ i.label) :
    s.catalog.get? l = c.get? l := by
  rw [h.catalog, SortedBy.get?_insert_of_ne]
  exact hl.symm

theorem advance (h : s.Counts c i status a)
    (hm : s.catalog.advance i.label requested delta = .ok (c', t)) :
    t.attempts = a.record delta ∧ t.applied = t.attempts.settle requested ∧
      Tally.Counts c i ⟨c', s.spent + delta.toNat⟩ t.applied t.attempts := by
  obtain ⟨j, hj, -, -, rfl, rfl⟩ := Catalog.advance_eq_ok_iff.mp hm
  obtain rfl := Option.some.inj (hj.symm.trans h.get?_catalog)
  refine ⟨rfl, rfl, ?_, h.budget, ?_⟩
  · rw [h.catalog]
    exact SortedBy.insert_insert c rfl
  · -- What has been cut off before is cut off now, too.
    show (a.record delta).current.toNat = _
    rw [Attempts.toNat_current_record, h.current, h.budget]
    show min (min _ (_ + s.spent) + _) _ = min _ (_ + (s.spent + _))
    omega

theorem ask (h : s.Counts c i status a) (m : Move) :
    ∃ status' a', (s.ask i.label m).Counts c i status' a' := by
  cases hm : s.catalog.advance i.label m.requested m.delta with
  | ok r =>
    rw [ask_of_ok hm]
    exact ⟨_, _, (h.advance hm).2.2⟩
  | error e =>
    rw [ask_of_error hm]
    exact ⟨_, _, h⟩

/-- The counter is the sum that has been cut down, however many moves there are. -/
theorem foldl_ask (h : s.Counts c i status a) (ms : List Move) :
    ∃ status' a', (ms.foldl (Tally.ask i.label) s).Counts c i status' a' := by
  induction ms generalizing s status a with
  | nil => exact ⟨_, _, h⟩
  | cons m ms ih =>
    obtain ⟨status', a', h'⟩ := h.ask m
    exact ih h'

end Tally.Counts

/-! ### The end of the moves -/

/-- A hard or done item does not move. -/
theorem advance_of_ended (hi : c.get? l = some i) (hend : i.status = .hard ∨ i.status = .done)
    (requested : Status) (delta : UInt32) : c.advance l requested delta =
      .error (.transition l i.status requested (i.status.refusal requested)) := by
  have hm : i.status.mayBecome requested = false := by
    rcases hend with hend | hend <;> rw [hend] <;> rfl
  unfold Catalog.advance
  simp only [hi, hm]
  rfl

theorem foldl_ask_of_ended (hi : s.catalog.get? l = some i)
    (hend : i.status = .hard ∨ i.status = .done) (ms : List Move) :
    ms.foldl (Tally.ask l) s = s := by
  induction ms with
  | nil => rfl
  | cons m ms ih =>
    rw [List.foldl_cons, Tally.ask_of_error (advance_of_ended hi hend m.requested m.delta), ih]

/-- The status that an item gets whose counter is a sum that has been cut down. -/
theorem settle_eq_hard_iff {sum : ℕ} (h : a.current.toNat = min a.budget.toNat sum) :
    a.settle requested = .hard ↔
      requested = .hard ∨ a.budget.toNat ≤ sum ∧ requested ≠ .done := by
  have hex : a.exhausted = true ↔ a.budget.toNat ≤ sum := by
    rw [Catalog.exhausted_iff, UInt32.le_iff_toNat_le, h]
    omega
  rw [← hex]
  unfold Attempts.settle
  split_ifs with hs
  · exact iff_of_true rfl (Or.inr hs)
  · rw [or_iff_left hs]

namespace Catalog

/-- **The counter of an item that is moved again and again is the sum of all attempts, cut down to the
budget**, and the item is hard as soon as the sum has reached the budget, unless it has just been
finished. A hard or done item does not move any more, and no other item is ever changed. -/
theorem advance_after_moves (hi : c.get? l = some i)
    (hle : i.attempts.current ≤ i.attempts.budget) (ms : List Move) :
    let s := c.moves l ms
    let sum := i.attempts.current.toNat + s.spent
    ∃ status a, s.catalog.get? l = some { i with status, attempts := a } ∧
      (∀ k ≠ l, s.catalog.get? k = c.get? k) ∧
      a.budget = i.attempts.budget ∧ a.current.toNat = min i.attempts.budget.toNat sum ∧
      ∀ (m : Move) c' t, s.catalog.advance l m.requested m.delta = .ok (c', t) →
        c'.get? l = some { i with status := t.applied, attempts := t.attempts } ∧
        (∀ k ≠ l, c'.get? k = c.get? k) ∧
        t.attempts.budget = i.attempts.budget ∧
        t.attempts.current = min (addSaturating a.current m.delta) i.attempts.budget ∧
        t.attempts.current.toNat = min i.attempts.budget.toNat (sum + m.delta.toNat) ∧
        (t.applied = .hard ↔ m.requested = .hard ∨
          i.attempts.budget.toNat ≤ sum + m.delta.toNat ∧ m.requested ≠ .done) ∧
        (t.applied ≠ .hard → t.applied = m.requested) ∧
        (t.applied = .hard ∨ t.applied = .done → ∀ (later : List Move) (n : Move),
          (c'.moves l later).catalog = c' ∧ c'.advance l n.requested n.delta =
            .error (.transition l t.applied n.requested (t.applied.refusal n.requested))) := by
  intro s sum
  obtain ⟨hmem, rfl⟩ := SortedBy.get?_eq_some_iff.mp hi
  obtain ⟨status, a, hs⟩ := (Tally.Counts.start hmem hle).foldl_ask ms
  refine ⟨status, a, hs.get?_catalog, fun k => hs.get?_catalog_of_ne, hs.budget, hs.current, ?_⟩
  intro m c' t hm
  obtain ⟨hattempts, happlied, ht⟩ := hs.advance hm
  have hbudget : t.attempts.budget = i.attempts.budget := ht.budget
  have hsum : t.attempts.current.toNat = min i.attempts.budget.toNat (sum + m.delta.toNat) := by
    rw [ht.current, ← Nat.add_assoc]
    rfl
  refine ⟨ht.get?_catalog, fun k => ht.get?_catalog_of_ne, hbudget, ?_, hsum, ?_, ?_, ?_⟩
  · rw [hattempts, current_record_eq, hs.budget]
  · rw [happlied, ← hbudget]
    exact settle_eq_hard_iff (by rw [hsum, hbudget])
  · rw [happlied]
    intro hne
    exact (settle_cases _ _).resolve_right fun h => hne h.1
  · intro hend later n
    have hlater : c'.moves i.label later = ⟨c', 0⟩ :=
      foldl_ask_of_ended (s := ⟨c', 0⟩) ht.get?_catalog hend later
    exact ⟨by rw [hlater], advance_of_ended ht.get?_catalog hend _ _⟩

/-- A move beyond the greatest number there is. The first move is refused, as the item has not been
started, and nothing moves it after the last one. -/
theorem advance_after_moves_greatest :
    let i : Item := { label := "a", kind := .lem, uses := {"b"}, attempts := ⟨4294967290, 4294967295⟩ }
    let j : Item := { label := "b", kind := .defn, status := .done, attempts := ⟨1, 1⟩ }
    let c : Catalog := .ofList [i, j]
    let s := c.moves "a" [⟨.done, 7⟩, ⟨.underway, 3⟩, ⟨.underway, 1⟩]
    s.spent = 4 ∧ UInt32.size ≤ i.attempts.current.toNat + s.spent + 4294967295 ∧
      ∃ c' t, s.catalog.advance "a" .todo 4294967295 = .ok (c', t) ∧ t.applied = .hard ∧
        t.attempts.current = 4294967295 ∧ c'.get? "b" = some j ∧
        (c'.moves "a" [⟨.done, 0⟩, ⟨.underway, 9⟩]).catalog = c' ∧
        c'.advance "a" .todo 0 = .error (.transition "a" .hard .todo .needsSplit) := by
  intro i j c s
  obtain ⟨status, a, -, -, -, -, h⟩ := advance_after_moves (c := c) (l := "a") (i := i)
    (by decide +kernel) (by decide) [⟨.done, 7⟩, ⟨.underway, 3⟩, ⟨.underway, 1⟩]
  have hspent : s.spent = 4 := by decide +kernel
  have hmove : s.catalog.advance "a" .todo 4294967295 =
      .ok (.ofList [{ i with status := .hard, attempts := ⟨4294967295, 4294967295⟩ }, j],
        ⟨"a", .underway, .todo, .hard, ⟨4294967295, 4294967295⟩⟩) := by
    decide +kernel
  obtain ⟨-, hothers, -, -, -, -, -, hend⟩ := h ⟨.todo, 4294967295⟩ _ _ hmove
  obtain ⟨hlater, hrefused⟩ := hend (Or.inl rfl) [⟨.done, 0⟩, ⟨.underway, 9⟩] ⟨.todo, 0⟩
  refine ⟨hspent, by rw [hspent]; decide, _, _, hmove, rfl, rfl, ?_, hlater, hrefused⟩
  rw [hothers "b" (by decide)]
  decide +kernel

end Catalog

end ProofTracker
