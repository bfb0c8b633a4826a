import ProofTracker.Proofs.Blueprint.Run
import ProofTracker.Proofs.Catalog.Eligible
import ProofTracker.Proofs.Catalog.Linear

/-! # Working through a blueprint

A worker starts the best item that may be started, finishes it, and goes on (`work`). Between two
rounds all is at rest. A round never fails (`exists_round`) and takes one item that is not blocked
out of those to be done, so a run handles the labels in a linear order (`exists_worked`). If no item
has priority over another one, the item taken is the first that is not blocked, which is how items
are placed one after the other. -/

namespace ProofTracker

namespace Blueprint

/-- One round of work: the item is started, and finished after further attempts. -/
def round (b : Blueprint) (label : String) (delta : UInt32) : Except Error Blueprint := do
  let (b, _) ← b.advance label .underway 0
  let (b, _) ← b.advance label .done delta
  return b

/-- Rounds of work, one for each number of attempts, each on the best item that may be started. The
work stops when there is none. The result has the labels in the order in which they were handled. -/
def work (b : Blueprint) : List UInt32 → Except Error (Blueprint × List String)
  | [] => return (b, [])
  | delta :: deltas =>
    match b.items.eligible with
    | [] => return (b, [])
    | i :: _ => do
      let (b, labels) ← work (← b.round i.label delta) deltas
      return (b, i.label :: labels)

end Blueprint

namespace Catalog

variable {c : Catalog} {i j : Item} {a : Attempts} {offers : List Item}

/-! ### One round -/

/-- The item when it has been finished. -/
def finish (i : Item) (a : Attempts) : Item := { i with status := .done, attempts := a }

namespace AtRest

variable (hc : c.AtRest)
include hc

theorem attempts_lt (hi : i ∈ c.eligible) : i.attempts.current < i.attempts.budget := by
  obtain ⟨him, hit, -⟩ := Catalog.mem_eligible.mp hi
  rcases hc.status i him with hid | ⟨-, hlt⟩
  · rw [hit] at hid
    cases hid
  · exact hlt

/-- An item that is offered can be started and then finished. -/
theorem exists_advance (hi : i ∈ c.eligible) (delta : UInt32) : ∃ c₁ t₁ a t₂,
    c.advance i.label .underway 0 = .ok (c₁, t₁) ∧
      c₁.advance i.label .done delta = .ok (c.insert (finish i a), t₂) := by
  obtain ⟨him, hit, huses⟩ := Catalog.mem_eligible.mp hi
  have hlt := hc.attempts_lt hi
  let i₁ : Item := { i with status := .underway }
  have hstart : c.advance i.label .underway 0 =
      .ok (c.insert i₁, ⟨i.label, i.status, .underway, .underway, i.attempts⟩) := by
    rw [advance_eq_ok_iff]
    refine ⟨i, SortedBy.get?_of_mem him, by rw [hit]; rfl, fun _ => huses, ?_, rfl⟩
    rw [record_zero (UInt32.le_of_lt hlt), settle_underway, if_pos hlt]
  have hget : SortedBy.get? (c.insert i₁) i.label = some i₁ :=
    SortedBy.get?_insert_self c i₁
  have huses₁ : usesDone (c.insert i₁) i₁ = true := by
    rw [Catalog.usesDone_iff] at huses ⊢
    intro l hl
    -- What is used is done already, so it is not the item itself.
    have hld := huses l hl
    have hne : i₁.label ≠ l := by
      rintro rfl
      rw [isDone_label_iff him, hit] at hld
      cases hld
    rw [isDone_insert_of_ne hne]
    exact hld
  refine ⟨_, _, i.attempts.record delta, _, hstart, advance_eq_ok_iff.mpr
    ⟨i₁, hget, rfl, fun _ => huses₁, rfl, ?_⟩⟩
  rw [settle_done]
  have hlabel : (finish i (i.attempts.record delta)).label = i₁.label := rfl
  exact (SortedBy.insert_insert c hlabel).symm

theorem insert_finish (hi : i ∈ c.eligible) (a : Attempts) : AtRest (c.insert (finish i a)) := by
  obtain ⟨him, hit, huses⟩ := Catalog.mem_eligible.mp hi
  refine ⟨hc.sound.insert him rfl rfl (fun _ => Catalog.usesDone_iff.mp huses) ?_, ?_⟩
  · intro hid
    rw [hit] at hid
    cases hid
  · intro k hk
    rcases SortedBy.mem_insert.mp hk with rfl | ⟨hk, -⟩
    · exact Or.inl rfl
    · exact hc.status k hk

end AtRest

/-- A finished item is taken out of those to be done, and these keep their order. -/
theorem exists_todoItems_eq (hi : i ∈ c.todoItems) (a : Attempts) : ∃ before after,
    c.todoItems = before ++ i :: after ∧
      todoItems (c.insert (finish i a)) = before ++ after ∧ ∀ j ∈ before, j.label < i.label := by
  obtain ⟨him, hit⟩ := mem_todoItems.mp hi
  obtain ⟨l₁, l₂, hsplit⟩ := List.append_of_mem him
  have hfinished : SortedBy.toList (c.insert (finish i a)) = l₁ ++ finish i a :: l₂ :=
    SortedBy.toList_insert_of_eq hsplit rfl
  have hlt : ∀ j ∈ l₁, j.label < i.label := by
    have hs := c.sorted
    rw [hsplit, List.pairwise_append] at hs
    exact fun j hj => hs.2.2 j hj i List.mem_cons_self
  refine ⟨l₁.filter (·.status = .todo), l₂.filter (·.status = .todo), ?_, ?_, fun j hj => ?_⟩
  · unfold todoItems
    rw [hsplit, List.filter_append, List.filter_cons_of_pos (by simpa using hit)]
  · unfold todoItems
    rw [hfinished, List.filter_append, List.filter_cons_of_neg (by simp [finish])]
  · exact hlt j (List.mem_filter.mp hj).1

/-- If no item has priority, the first item that is not blocked is offered first. -/
theorem AtRest.blocked_of_lt (hc : c.AtRest) {p : UInt32} (hp : ∀ i ∈ c, i.priority = p)
    (he : c.eligible = i :: offers) (hj : j ∈ c.todoItems) (hlt : j.label < i.label) :
    Blocked c.todoItems j := by
  by_contra hb
  have hje : j ∈ c.eligible := hc.mem_eligible.mpr ⟨hj, hb⟩
  have hie : i ∈ c.eligible := by rw [he]; exact List.mem_cons_self
  have hoffered := offeredBefore_iff.mp (offeredBefore_of_eligible he hje)
  rw [hp i (Catalog.mem_eligible.mp hie).1, hp j (mem_todoItems.mp hj).1] at hoffered
  rcases hoffered with h | ⟨-, h⟩
  · exact absurd h (UInt32.lt_irrefl p)
  · exact String.not_lt.mpr h hlt

end Catalog

namespace Blueprint

open Catalog

variable {b b' : Blueprint} {deltas : List UInt32} {labels rest : List String}

/-- A round finishes the item that is offered first. -/
theorem exists_round (hb : b.items.AtRest) {i : Item} (hi : i ∈ b.items.eligible) (delta : UInt32) :
    ∃ a, b.round i.label delta = .ok { b with items := b.items.insert (finish i a) } := by
  obtain ⟨c₁, t₁, a, t₂, hstart, hfinish⟩ := hb.exists_advance hi delta
  refine ⟨a, ?_⟩
  unfold round advance
  rw [hstart]
  show (do let x ← (do let y ← c₁.advance i.label .done delta; pure _); pure _) = _
  rw [hfinish]
  rfl

/-! ### A run -/

/-- What a run of rounds does: it handles `labels` and leaves `rest` to be done, and both make a
linear order of what was to be done. -/
structure Worked (b : Blueprint) (rounds : Nat) (b' : Blueprint) (labels rest : List String) :
    Prop where
  atRest : b'.items.AtRest
  contains : ∀ l, b'.items.contains l = b.items.contains l
  linear : Linear b.items.todoItems (labels ++ rest)
  length : labels.length = min rounds b.items.todoItems.length
  remaining : rest.length = b'.items.todoItems.length
  least : ∀ p, (∀ i ∈ b.items, i.priority = p) →
    ∃ order, Placing b.items.todoItems order [] ∧ order.map Item.label = labels ++ rest

/-- Without a round everything is left. -/
theorem exists_worked_zero (hb : b.items.AtRest) : ∃ rest, Worked b 0 b [] rest := by
  obtain ⟨order, hp⟩ := hb.exists_placing
  have hl := hp.linear b.items.nodup_label_todoItems
  exact ⟨order.map Item.label, hb, fun _ => rfl, hl, by simp,
    by simpa using hl.perm.length_eq, fun _ _ => ⟨order, hp, rfl⟩⟩

/-- When nothing is offered, nothing is left. -/
theorem worked_of_eligible_eq_nil (hb : b.items.AtRest) (hnil : b.items.eligible = [])
    (rounds : Nat) : Worked b rounds b [] [] := by
  have htodo := hb.eligible_eq_nil_iff.mp hnil
  refine ⟨hb, fun _ => rfl, ?_, ?_, ?_, fun _ _ => ⟨[], ?_, rfl⟩⟩
  · rw [htodo]; exact linear_nil
  · rw [htodo]; simp
  · rw [htodo]; rfl
  · rw [htodo]; exact .stuck fun _ h => absurd h List.not_mem_nil

/-- A round, and then a run. -/
theorem Worked.cons (hb : b.items.AtRest) {i : Item} {offers : List Item} {a : Attempts}
    {rounds : Nat} (he : b.items.eligible = i :: offers)
    (h : Worked { b with items := b.items.insert (finish i a) } rounds b' labels rest) :
    Worked b (rounds + 1) b' (i.label :: labels) rest := by
  have hi : i ∈ b.items.eligible := by rw [he]; exact List.mem_cons_self
  obtain ⟨hit, hnb⟩ := hb.mem_eligible.mp hi
  have him := (mem_todoItems.mp hit).1
  obtain ⟨before, after, htodo, hleft, hlt⟩ := exists_todoItems_eq hit a
  have hd := b.items.nodup_label_todoItems
  rw [htodo] at hd hnb
  have hlinear := h.linear
  have hlength := h.length
  simp only [hleft] at hlinear hlength
  refine ⟨h.atRest, fun l => ?_, ?_, ?_, h.remaining, fun p hp => ?_⟩
  · rw [h.contains]
    exact contains_insert_of_mem him rfl
  · rw [htodo]
    exact (linear_cons_iff hd).mpr ⟨hnb, hlinear⟩
  · rw [htodo, List.length_cons, hlength]
    simp only [List.length_append, List.length_cons]
    omega
  · obtain ⟨order, hplacing, horder⟩ := h.least p (fun k hk => by
      rcases SortedBy.mem_insert.mp hk with rfl | ⟨hk, -⟩
      · exact hp i him
      · exact hp k hk)
    simp only [hleft] at hplacing
    refine ⟨i :: order, ?_, by rw [List.map_cons, horder]; rfl⟩
    rw [htodo]
    refine .next (fun j hj => ?_) hnb hplacing
    have hjt : j ∈ b.items.todoItems := by rw [htodo]; exact List.mem_append_left _ hj
    have hblocked := hb.blocked_of_lt hp he hjt (hlt j hj)
    rwa [htodo] at hblocked

/-- **A run never fails**, whatever attempts its rounds take. -/
theorem exists_worked (hb : b.items.AtRest) (deltas : List UInt32) : ∃ b' labels rest,
    b.work deltas = .ok (b', labels) ∧ Worked b deltas.length b' labels rest := by
  induction deltas generalizing b with
  | nil =>
    obtain ⟨rest, h⟩ := exists_worked_zero hb
    exact ⟨b, [], rest, rfl, h⟩
  | cons delta deltas ih =>
    rw [work]
    cases he : b.items.eligible with
    | nil => exact ⟨b, [], [], rfl, worked_of_eligible_eq_nil hb he _⟩
    | cons i offers =>
      have hi : i ∈ b.items.eligible := by rw [he]; exact List.mem_cons_self
      obtain ⟨a, hround⟩ := exists_round hb hi delta
      obtain ⟨b', labels, rest, hwork, h⟩ :=
        ih (b := { b with items := b.items.insert (finish i a) }) (hb.insert_finish hi a)
      refine ⟨b', i.label :: labels, rest, ?_, h.cons hb he⟩
      dsimp only
      rw [hround]
      show (do let x ← work _ deltas; pure _) = _
      rw [hwork]
      rfl

namespace Worked

variable {rounds : Nat} (h : Worked b rounds b' labels rest)
include h

theorem nodup : (labels ++ rest).Nodup :=
  h.linear.perm.nodup_iff.mpr b.items.nodup_label_todoItems

/-- Nothing is left iff there were enough rounds. -/
theorem rest_eq_nil_iff : rest = [] ↔ b.items.todoItems.length ≤ rounds := by
  have hlen := h.linear.perm.length_eq
  rw [List.length_append, List.length_map, h.length] at hlen
  rw [← List.length_eq_zero_iff]
  omega

theorem todoItems_eq_nil_iff : b'.items.todoItems = [] ↔ b.items.todoItems.length ≤ rounds := by
  rw [← h.rest_eq_nil_iff, ← List.length_eq_zero_iff, ← List.length_eq_zero_iff, h.remaining]

/-- If nothing is left, all is done. -/
theorem status_eq_done (hr : b.items.todoItems.length ≤ rounds) {i : Item} (hi : i ∈ b'.items) :
    i.status = .done := by
  rcases h.atRest.status i hi with hid | ⟨hit, -⟩
  · exact hid
  · have hmem := mem_todoItems.mpr ⟨hi, hit⟩
    rw [h.todoItems_eq_nil_iff.mpr hr] at hmem
    cases hmem

end Worked

/-! ### From the start -/

theorem todoItems_eq_toList {c : Catalog} (hc : ∀ i ∈ c, i.status = .todo) :
    c.todoItems = c.toList :=
  List.filter_eq_self.mpr fun i hi => decide_eq_true (hc i hi)

/-- **Working through a blueprint of which nothing has been started.** No round fails, whatever
attempts it takes; the work ends after as many rounds as there are items, with all of them done;
each label is handled once, after all that it rests on. If no item has priority over another one,
the labels are handled in the linear order of the blueprint. -/
theorem Reachable.work_spec (h : b.Reachable)
    (hstart : ∀ i ∈ b.items, i.status = .todo ∧ i.attempts.current < i.attempts.budget)
    (deltas : List UInt32) : ∃ b' labels, b.work deltas = .ok (b', labels) ∧
      labels.length = min deltas.length b.items.size ∧
      (b'.items.eligible = [] ↔ b.items.size ≤ deltas.length) ∧
      labels.Nodup ∧
      (∀ front l rest, labels = front ++ l :: rest → ∀ m, b.items.RestsOn l m → m ∈ front) ∧
      (b.items.size ≤ deltas.length →
        (∀ l, l ∈ labels ↔ b.items.contains l = true) ∧
        (∀ l, b'.items.contains l = b.items.contains l) ∧ ∀ i ∈ b'.items, i.status = .done) ∧
      ∀ p, (∀ i ∈ b.items, i.priority = p) → ∃ order, b.items.linearOrder = .ok order ∧
        labels = (order.map Item.label).take deltas.length := by
  have hb : b.items.AtRest := ⟨h.sound.catalog, fun i hi => Or.inr (hstart i hi)⟩
  have htodo := todoItems_eq_toList fun i hi => (hstart i hi).1
  have hsize : b.items.todoItems.length = b.items.size := by rw [htodo]; rfl
  obtain ⟨b', labels, rest, hwork, hw⟩ := exists_worked hb deltas
  have hlinear := hw.linear
  rw [htodo] at hlinear
  have hlength := hw.length
  have hnil := hw.rest_eq_nil_iff
  have hdone := hw.todoItems_eq_nil_iff
  rw [hsize] at hlength hnil hdone
  refine ⟨b', labels, hwork, hlength, hw.atRest.eligible_eq_nil_iff.trans hdone,
    (List.nodup_append.mp hw.nodup).1, ?_, ?_, ?_⟩
  · intro front l back hlabels m hm
    obtain ⟨-, i, hi, -, hu⟩ := exists_uses_of_restsOn hm
    have hknown := transGen_knownUses_iff.mpr ⟨hm, h.sound.catalog.closed i hi m hu⟩
    have hsplit : labels ++ rest = front ++ l :: (back ++ rest) := by
      rw [hlabels, List.append_assoc, List.cons_append]
    exact hlinear.mem_front hsplit hknown
  · intro hall
    have hrest := hnil.mpr hall
    rw [hrest, List.append_nil] at hlinear
    refine ⟨fun l => ?_, hw.contains, fun i hi => hw.status_eq_done (hsize ▸ hall) hi⟩
    rw [hlinear.perm.mem_iff, List.mem_map, SortedBy.contains_iff]
    rfl
  · intro p hp
    obtain ⟨order, hplacing, horder⟩ := hw.least p hp
    rw [htodo] at hplacing
    refine ⟨order, hplacing.linearOrder_eq_ok, ?_⟩
    rw [horder]
    by_cases hall : b.items.size ≤ deltas.length
    · rw [hnil.mpr hall, List.append_nil, List.take_of_length_le (by omega)]
    · rw [List.take_left' (by omega)]

/-- An item that two items use, and one that uses these, with more attempts than there are left. -/
theorem Reachable.work_spec_diamond :
    let item (l : String) (uses : LabelSet) : Item :=
      { label := l, kind := .lem, uses, attempts := ⟨1, 2⟩ }
    let b := (∅ : Blueprint).after
      (.upsertBatch [item "d" (.ofList ["b", "c"]), item "c" {"e"}, item "e" ∅, item "b" {"e"}])
    b.Reachable ∧ (∀ i ∈ b.items, i.status = .todo ∧ i.attempts.current < i.attempts.budget) ∧
    ∃ b', b.work [0, 9, 1, 5] = .ok (b', ["e", "b", "c", "d"]) ∧ b'.items.eligible = [] ∧
      ∀ i ∈ b'.items, i.status = .done := by
  intro item b
  have hb : b.Reachable := .after _ .empty
  have hstart : ∀ i ∈ b.items, i.status = .todo ∧ i.attempts.current < i.attempts.budget := by
    have h : ∀ i ∈ b.items.toList, i.status = .todo ∧ i.attempts.current < i.attempts.budget := by
      decide +kernel
    exact h
  have hp : ∀ i ∈ b.items, i.priority = 0 := by
    have h : ∀ i ∈ b.items.toList, i.priority = 0 := by decide +kernel
    exact h
  have hsize : b.items.size = 4 := by decide +kernel
  have ho : b.items.linearOrder.toOption.map (·.map Item.label) = some ["e", "b", "c", "d"] := by
    decide +kernel
  obtain ⟨b', labels, hwork, -, hend, -, -, hall, hsame⟩ := hb.work_spec hstart [0, 9, 1, 5]
  obtain ⟨order, horder, rfl⟩ := hsame 0 hp
  rw [horder] at ho
  have hlabels : order.map Item.label = ["e", "b", "c", "d"] := Option.some.inj ho
  rw [hlabels] at hwork
  exact ⟨hb, hstart, b', hwork, hend.mpr (by rw [hsize]; decide),
    (hall (by rw [hsize]; decide)).2.2⟩

end Blueprint

end ProofTracker
