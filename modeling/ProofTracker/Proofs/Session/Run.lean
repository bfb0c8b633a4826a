import ProofTracker.Proofs.Session.Shelf
import ProofTracker.Proofs.Session.Synced

/-! # Runs of a session

A session lives through calls: requests, requests for a first document, and moments at which it is
closed and opened again. Each call keeps it in step with its host (`Ended.synced`), so opening it
again gives the blueprint that it had (`step_reopen`). Hence a session that is opened for each call
does the same as one that stays open (`run_filter_isReopen`). -/

namespace ProofTracker.Session

/-- What happens to a session. -/
inductive Call where
  | ask (r : Request)
  | init
  | reopen

/-- What a call is answered. -/
inductive Answer where
  | replied (x : Except Error Reply)
  | made (x : Except Error Bool)
  | reopened (x : Except Error Unit)
deriving DecidableEq

def Call.isReopen : Call → Bool
  | .reopen => true
  | _ => false

def Answer.isReopened : Answer → Bool
  | .reopened _ => true
  | _ => false

def Answer.failed : Answer → Bool
  | .replied x => !x.isOk
  | .made x => !x.isOk
  | .reopened x => !x.isOk

/-- Whether the answer tells that the call has changed something. -/
def Call.changes : Call → Answer → Bool
  | .ask r, .replied x => Session.changes r x
  | .init, .made x => x.toOption.getD false
  | _, _ => false

section

variable {m : Type → Type} [Monad m]

/-- One call. -/
def step (h : Host m) (s : Settings) (b : Blueprint) : Call → m (Blueprint × Answer)
  | .ask r => do
    let (b', x) ← perform h s b r
    return (b', .replied x)
  | .init => return (b, .made (← init h s b))
  | .reopen => do
    match ← load h s with
    | .ok b' => return (b', .reopened (.ok ()))
    | .error e => return (b, .reopened (.error e))

/-- One call after the other. -/
def run (h : Host m) (s : Settings) : Blueprint → List Call → m (Blueprint × List Answer)
  | b, [] => return (b, [])
  | b, k :: ks => do
    let (b', a) ← step h s b k
    let (b'', as) ← run h s b' ks
    return (b'', a :: as)

end

variable {σ : Type} {h : Host (StateM σ)} {s : Settings} {b b' : Blueprint} {w w' : σ} {k : Call}
  {ks : List Call} {as : List Answer}

theorem run_cons : run h s b (k :: ks) w =
    (((run h s (step h s b k w).1.1 ks (step h s b k w).2).1.1,
      (step h s b k w).1.2 :: (run h s (step h s b k w).1.1 ks (step h s b k w).2).1.2),
      (run h s (step h s b k w).1.1 ks (step h s b k w).2).2) := rfl

/-! ### One call -/

/-- A session that is opened again is as it was. -/
theorem step_reopen (hh : h.Keeps s) (hs : Synced h s b w) :
    step h s b .reopen w = ((b, .reopened (.ok ())), w) := by
  have hl : load h s w = (.ok b, w) := Prod.ext (load_eq_ok_iff.mpr hs) (snd_load hh w)
  show (load h s >>= _) w = _
  rw [run_bind, hl]
  rfl

theorem ended_step (hh : h.Keeps s) (hs : Synced h s b w) (k : Call) :
    Ended h s b w (step h s b k w).1.2.failed (k.changes (step h s b k w).1.2)
      (step h s b k w).1.1 (step h s b k w).2 := by
  cases k with
  | ask r => exact ended_perform hh hs.sound r w
  | init => exact ended_init hh hs.sound w
  | reopen => rw [step_reopen hh hs]; exact .idle

theorem isReopened_step (hh : h.Keeps s) (hs : Synced h s b w) :
    (step h s b k w).1.2.isReopened = k.isReopen := by
  cases k with
  | ask r => rfl
  | init => rfl
  | reopen => rw [step_reopen hh hs]; rfl

/-! ### Many calls -/

theorem synced_run (hh : h.Keeps s) (hs : Synced h s b w) (ks : List Call) :
    Synced h s (run h s b ks w).1.1 (run h s b ks w).2 := by
  induction ks generalizing b w with
  | nil => exact hs
  | cons k ks ih => exact ih ((ended_step hh hs k).synced hs)

/-- Opening the session again never fails. -/
theorem not_failed_of_isReopened (hh : h.Keeps s) (hs : Synced h s b w) (ks : List Call) {a : Answer}
    (ha : a ∈ (run h s b ks w).1.2) (hr : a.isReopened = true) : a.failed = false := by
  induction ks generalizing b w with
  | nil => cases ha
  | cons k ks ih =>
    replace ha : a ∈ (step h s b k w).1.2 ::
      (run h s (step h s b k w).1.1 ks (step h s b k w).2).1.2 := ha
    rcases List.mem_cons.mp ha with rfl | ha
    · rw [isReopened_step hh hs] at hr
      cases k with
      | ask r => cases hr
      | init => cases hr
      | reopen => rw [step_reopen hh hs]; rfl
    · exact ih ((ended_step hh hs k).synced hs) ha

/-- Leaving out the moments at which the session is opened again changes no other answer, and neither
blueprint nor host. -/
theorem run_filter_isReopen (hh : h.Keeps s) (hs : Synced h s b w) (ks : List Call) :
    run h s b (ks.filter (!·.isReopen)) w =
      (((run h s b ks w).1.1, (run h s b ks w).1.2.filter (!·.isReopened)),
        (run h s b ks w).2) := by
  induction ks generalizing b w with
  | nil => rfl
  | cons k ks ih =>
    have hk := isReopened_step (k := k) hh hs
    cases hr : k.isReopen with
    | true =>
      cases k with
      | ask r => cases hr
      | init => cases hr
      | reopen =>
        -- Opened again, the session has the blueprint it had, so the rest of the run is the same.
        rw [List.filter_cons_of_neg (by simp [hr]), run_cons, step_reopen hh hs]
        exact ih hs
    | false =>
      rw [hr] at hk
      rw [List.filter_cons_of_pos (by simp [hr]), run_cons, run_cons,
        ih ((ended_step hh hs k).synced hs), List.filter_cons_of_pos (by simp [hk])]

/-! ### The session and its document -/

/-- **What a session does, whatever is asked of it and whichever saves fail.** If it has been opened on
a document that loads, or on none, then after every run it is in step with its host; a further call that
fails leaves blueprint, document and journal as they were, and one that changes something leaves the
document of the blueprint behind. That the session was opened again on the way never failed and made no
difference to the other answers, the blueprint or the host. -/
theorem run_faithful (hh : h.Keeps s) (hopen : (load h s w).1 = .ok b)
    (hrun : run h s b ks w = ((b', as), w')) :
    Synced h s b' w' ∧
    (∀ k b'' a w'', step h s b' k w' = ((b'', a), w'') →
      (a.failed = true → b'' = b' ∧ Untouched h s w' w'') ∧
      (k.changes a = true → h.found s.path w'' = .text b''.toDocument)) ∧
    (∀ a ∈ as, a.isReopened = true → a.failed = false) ∧
    run h s b (ks.filter (!·.isReopen)) w = ((b', as.filter (!·.isReopened)), w') := by
  have hs : Synced h s b w := load_eq_ok_iff.mp hopen
  have hs' : Synced h s b' w' := by
    have := synced_run hh hs ks
    rwa [hrun] at this
  refine ⟨hs', ?_, ?_, ?_⟩
  · intro k b'' a w'' hstep
    have he := ended_step hh hs' k
    rw [hstep] at he
    constructor
    · intro ha
      rw [ha] at he
      exact he.untouched
    · intro ha
      rw [ha] at he
      exact he.found
  · intro a ha hr
    refine not_failed_of_isReopened hh hs ks ?_ hr
    rw [hrun]
    exact ha
  · rw [run_filter_isReopen hh hs, hrun]

/-- A document written by hand, on which a first save fails; the session is opened again before the
item is started. -/
theorem run_faithful_shelf :
    let s : Settings := { journal := some "journal" }
    let i : Item := { label := "a", kind := .lem, attempts := .fresh 3 }
    let doc := "# lemma a\n\n## meta\n- attempts: 0/3\n- status: todo\n- label: a\n## statement"
    let w : Shelf := ⟨[(s.path, doc)], [false]⟩
    let b := (∅ : Blueprint).after (.upsert i)
    let r := run Shelf.host s b [.ask .claim, .reopen, .ask .claim, .ask .claim, .init] w
    r.1.2 = [.replied (.error .storage), .reopened (.ok ()),
      .replied (.ok (.moved ⟨"a", .todo, .underway, .underway, .fresh 3⟩)),
      .replied (.ok .nothing), .made (.ok false)] ∧ Synced Shelf.host s r.1.1 r.2 := by
  intro s i doc w b r
  have hs : s.path ∉ s.journal := by decide
  have hopen : (load Shelf.host s w).1 = .ok b := by decide +kernel
  exact ⟨by decide +kernel, (run_faithful (Shelf.keeps_host hs) hopen rfl).1⟩

end ProofTracker.Session
