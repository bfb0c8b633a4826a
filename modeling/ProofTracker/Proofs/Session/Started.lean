import ProofTracker.Proofs.Session.Claim

/-! # What a claimed item becomes

Requests keep the blueprint of a session sound (`sound_serve`), so the attempts of its items stay
within their budgets and a claim, which counts none, leaves them as they are. Whether an item is
offered depends on its status and on what it uses, and not on its attempts. So an item may be claimed
that has none left, such as one that took all of them, was finished and then reverted; it is hard at
once. Any other one is started (`claimed_status`). -/

namespace ProofTracker.Session

open Catalog

variable {σ κ : Type} {h : Host (StateM σ)} {s : Settings} {b b' b'' : Blueprint} {w₀ w w' w'' : σ}
  {i : Item} {t : Transition} {turns : List (κ × Request)} {es : List (Event κ)}

/-! ### Sound blueprints -/

theorem sound_perform (hb : b.Sound) (r : Request) (w : σ) : (perform h s b r w).1.1.Sound := by
  rcases perform_cases h s b r w with ⟨hsame, -⟩ | ⟨o, ho, hp⟩
  · rw [hsame]
    exact hb
  · rw [hp]
    rcases outcome_cases ho with ⟨hnone, -⟩ | ⟨_, k, heq, -, hok, -⟩
    · cases hnone
    · obtain rfl := Option.some.inj heq
      exact hb.carryOut hok

/-- Whatever the callers ask for, and whichever saves fail. -/
theorem sound_serve (hb : b.Sound) : (serve h s b turns w).1.1.Sound := by
  induction turns generalizing b w with
  | nil => exact hb
  | cons turn turns ih =>
    obtain ⟨caller, r⟩ := turn
    rw [serve_cons]
    exact ih (sound_perform hb r w)

/-! ### The claimed item -/

/-- An item with an attempt left is started, and one without is given up. -/
theorem Claimed.transition (hc : Claimed b i b' t) (hb : b.Sound) : t =
    ⟨i.label, .todo, .underway,
      if i.attempts.current < i.attempts.budget then .underway else .hard, i.attempts⟩ := by
  obtain ⟨hi, htodo, -⟩ := hc.ready
  obtain ⟨c, hadv, -⟩ := Blueprint.exists_items_of_advance hc.started
  obtain ⟨j, hj, -, -, rfl, -⟩ := Catalog.advance_eq_ok_iff.mp hadv
  obtain rfl : i = j := Option.some.inj ((SortedBy.get?_of_mem hi).symm.trans hj)
  rw [record_zero (hb.admissible i hi).budget, settle_underway, htodo]

/-- **A claimed item is started, or is hard at once.** However the session has come to its present
state, a claim that answers with a move has found an item that was ready, and this item has the
status that the answer tells: it is started if it has an attempt left, and hard if its attempts are
used up. Nothing else of it changes. -/
theorem claimed_status (hload : (load h s w₀).1 = .ok b)
    (hrun : serve h s b turns w = ((b', es), w'))
    (hclaim : perform h s b' .claim w' = ((b'', .ok (.moved t)), w'')) :
    ∃ i, b'.items.Ready i ∧ t.label = i.label ∧ t.before = .todo ∧ t.requested = .underway ∧
      t.applied = (if i.attempts.current < i.attempts.budget then .underway else .hard) ∧
      b''.items.get? i.label = some { i with status := t.applied } := by
  have hb : b'.Sound := by
    have hs : (serve h s b turns w).1.1.Sound := sound_serve (load_eq_ok_iff.mp hload).sound
    rwa [hrun] at hs
  have hmoved : (perform h s b' .claim w').1.2 = .ok (.moved t) := by rw [hclaim]
  obtain ⟨i, hc⟩ := exists_claimed_of_moved hmoved
  rw [hclaim] at hc
  have ht := hc.transition hb
  refine ⟨i, hc.ready, hc.label, by rw [ht], by rw [ht], by rw [ht], ?_⟩
  rw [hc.item, ht]

/-- An item that is finished, reverted and claimed again, with an attempt left. -/
theorem claimed_status_again :
    let s : Settings := {}
    let i : Item := { label := "a", kind := .lem, attempts := .fresh 2 }
    let t : Transition := ⟨"a", .todo, .underway, .underway, ⟨1, 2⟩⟩
    let r := serve Shelf.host s ∅ [(0, .upsert i), (1, .claim), (1, .claim),
      (1, .advance "a" .done 1), (0, .revert "a")] ⟨[], [true, false]⟩
    let r' := perform Shelf.host s r.1.1 .claim r.2
    r'.1.2 = .ok (.moved t) ∧ ∃ j : Item, "a" = j.label ∧
      r'.1.1.items.get? j.label = some { j with status := .underway } := by
  intro s i t r r'
  have hload : (load Shelf.host s ⟨[], [true, false]⟩).1 = .ok ∅ := by decide +kernel
  have hrun : r = ((r.1.1, r.1.2), r.2) := rfl
  have hmoved : r'.1.2 = .ok (.moved t) := by decide +kernel
  have hclaim : r' = ((r'.1.1, .ok (.moved t)), r'.2) := by
    rw [← hmoved]
    rfl
  obtain ⟨j, -, hl, -, -, -, hget⟩ := claimed_status hload hrun hclaim
  exact ⟨hmoved, j, hl, hget⟩

/-- An item that took all its attempts, was finished and reverted: claiming it gives it up. -/
theorem claimed_status_hard :
    let s : Settings := {}
    let i : Item := { label := "a", kind := .lem, attempts := .fresh 1 }
    let r := serve Shelf.host s ∅ [(0, .upsert i), (0, .claim), (0, .advance "a" .done 1),
      (0, .revert "a")] ⟨[], []⟩
    let r' := perform Shelf.host s r.1.1 .claim r.2
    (load Shelf.host s ⟨[], []⟩).1 = .ok ∅ ∧
      r'.1.2 = .ok (.moved ⟨"a", .todo, .underway, .hard, ⟨1, 1⟩⟩) ∧
      r'.1.1.items.get? "a" = some { i with status := .hard, attempts := ⟨1, 1⟩ } := by
  decide +kernel

end ProofTracker.Session
