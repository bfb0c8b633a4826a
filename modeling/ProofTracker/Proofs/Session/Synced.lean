import ProofTracker.Proofs.Session.Host

/-! # The document and the blueprint in memory

A session is in step with its host if there is no document and the blueprint is empty, or the
document is loaded as the blueprint (`Synced`). This is what loading establishes (`load_eq_ok_iff`),
and it makes the blueprint sound. What is asked of the session then has one of three ends (`Ended`):
it fails and leaves blueprint, document and journal as they were, it finds nothing to do, or the
document is that of the blueprint afterwards (`ended_perform`, `ended_init`). -/

namespace ProofTracker.Session

variable {σ : Type} {h : Host (StateM σ)} {s : Settings} {b b' : Blueprint} {w w' : σ} {r : Request}
  {journal text : String}

/-- There is no document and the blueprint is empty, or the document is loaded as the blueprint. -/
def Synced (h : Host (StateM σ)) (s : Settings) (b : Blueprint) (w : σ) : Prop :=
  (h.found s.path w = .nothing ∧ b = ∅) ∨
    ∃ doc, h.found s.path w = .text doc ∧ Blueprint.parse doc = .ok b

theorem Synced.sound (hs : Synced h s b w) : b.Sound := by
  rcases hs with ⟨-, rfl⟩ | ⟨doc, -, hdoc⟩
  · exact Blueprint.sound_empty
  · exact .of_parse hdoc

/-- The document of the blueprint has been saved. -/
theorem Synced.of_saved (hb : b.Sound) (hw : h.found s.path w = .text b.toDocument) :
    Synced h s b w :=
  Or.inr ⟨b.toDocument, hw, hb.reload⟩

theorem Synced.of_untouched (hs : Synced h s b w) (hw : Untouched h s w w') : Synced h s b w' := by
  unfold Synced
  rw [hw s.path (Or.inl rfl)]
  exact hs

/-! ### Loading -/

theorem run_bind {α β : Type} (x : StateM σ α) (f : α → StateM σ β) (w : σ) :
    (x >>= f) w = f (x w).1 (x w).2 := rfl

/-- Loading gives the one blueprint that is in step with the host. -/
theorem load_eq_ok_iff : (load h s w).1 = .ok b ↔ Synced h s b w := by
  unfold load Synced Host.found
  rw [run_bind]
  cases (h.look s.path w).1 with
  | nothing =>
    show Except.ok ∅ = Except.ok b ↔ _
    simp [eq_comm]
  | text doc =>
    show Blueprint.parse doc = .ok b ↔ _
    simp
  | unreadable =>
    show Except.error Error.storage = Except.ok b ↔ _
    simp

theorem snd_load (hh : h.Keeps s) (w : σ) : (load h s w).2 = w := by
  unfold load
  rw [run_bind, hh.look]
  cases (h.look s.path w).1 <;> rfl

/-- The journal is read from the text that there is. -/
theorem fst_history : (history h journal w).1 =
    ((h.found journal w).read >>= fun old => Journal.parse (old.getD "")) := by
  unfold history Host.found
  rw [run_bind]
  cases (h.look journal w).1.read <;> rfl

theorem fst_history_of_text (hw : h.found journal w = .text text) :
    (history h journal w).1 = Journal.parse text := by
  rw [fst_history, hw]
  rfl

/-! ### Requests -/

/-- Whether a request with this answer has changed something. One to start the best item may have found
none. -/
def changes (r : Request) : Except Error Reply → Bool
  | .error _ => false
  | .ok x => !(r matches .claim) || x ≠ .nothing

/-- The call that the request makes. -/
def call? (b : Blueprint) : Request → Option Blueprint.Call
  | .upsert i => some (.upsert i)
  | .advance l requested n => some (.advance l requested n)
  | .claim => b.items.eligible.head?.map fun i => .advance i.label .underway 0
  | .revert l => some (.revert l)
  | .split l steps n => some (.split l steps n)

/-- A request that succeeds finds nothing to do, if it is one to start the best item, or its call is
carried out and the answer tells of the change. -/
theorem outcome_cases {o? : Option Outcome} (ho : r.outcome? b = .ok o?) :
    (o? = none ∧ r = .claim) ∨ ∃ o k, o? = some o ∧ call? b r = some k ∧
      k.carryOut b = .ok o.blueprint ∧ changes r (.ok o.reply) = true := by
  cases r with
  | upsert i =>
    obtain ⟨b', hup, ho⟩ := bind_eq_ok_iff.mp ho
    cases ho
    exact Or.inr ⟨_, _, rfl, rfl, hup, rfl⟩
  | advance l requested n =>
    obtain ⟨⟨b', t⟩, hadv, ho⟩ := bind_eq_ok_iff.mp ho
    cases ho
    exact Or.inr ⟨_, _, rfl, rfl, Blueprint.map_fst_eq_ok_iff.mpr ⟨t, hadv⟩, rfl⟩
  | claim =>
    unfold Request.outcome? at ho
    unfold call?
    cases he : b.items.eligible with
    | nil =>
      rw [he] at ho
      cases ho
      exact Or.inl ⟨rfl, rfl⟩
    | cons i rest =>
      rw [he] at ho
      obtain ⟨⟨b', t⟩, hadv, ho⟩ := bind_eq_ok_iff.mp ho
      cases ho
      exact Or.inr ⟨_, _, rfl, rfl, Blueprint.map_fst_eq_ok_iff.mpr ⟨t, hadv⟩,
        by simp [changes, Outcome.ofMove]⟩
  | revert l =>
    obtain ⟨⟨b', t⟩, hrev, ho⟩ := bind_eq_ok_iff.mp ho
    cases ho
    exact Or.inr ⟨_, _, rfl, rfl, Blueprint.map_fst_eq_ok_iff.mpr ⟨t, hrev⟩, rfl⟩
  | split l steps n =>
    obtain ⟨⟨b', labels⟩, hsplit, ho⟩ := bind_eq_ok_iff.mp ho
    cases ho
    exact Or.inr ⟨_, _, rfl, rfl, Blueprint.map_fst_eq_ok_iff.mpr ⟨labels, hsplit⟩, rfl⟩

/-- The three ends of what is asked of a session, with the blueprint and the host afterwards. -/
inductive Ended (h : Host (StateM σ)) (s : Settings) (b : Blueprint) (w : σ) :
    (failed changed : Bool) → Blueprint → σ → Prop
  | refused {w' : σ} (hw : Untouched h s w w') : Ended h s b w true false b w'
  | idle : Ended h s b w false false b w
  | saved {b' : Blueprint} {w' : σ} (hb : b'.Sound)
      (hw : h.found s.path w' = .text b'.toDocument) : Ended h s b w false true b' w'

namespace Ended

variable {failed changed : Bool}

/-- At each end the session is in step with its host again. -/
theorem synced (he : Ended h s b w failed changed b' w') (hs : Synced h s b w) :
    Synced h s b' w' := by
  cases he with
  | refused hw => exact hs.of_untouched hw
  | idle => exact hs
  | saved hb hw => exact .of_saved hb hw

theorem untouched (he : Ended h s b w true changed b' w') : b' = b ∧ Untouched h s w w' := by
  cases he with
  | refused hw => exact ⟨rfl, hw⟩

theorem found (he : Ended h s b w failed true b' w') :
    h.found s.path w' = .text b'.toDocument := by
  cases he with
  | saved hb hw => exact hw

end Ended

theorem ended_perform (hh : h.Keeps s) (hb : b.Sound) (r : Request) (w : σ) :
    Ended h s b w (!(perform h s b r w).1.2.isOk) (changes r (perform h s b r w).1.2)
      (perform h s b r w).1.1 (perform h s b r w).2 := by
  unfold perform
  cases ho : r.outcome? b with
  | error e => exact .refused (.refl h s w)
  | ok o? =>
    rcases outcome_cases ho with ⟨rfl, rfl⟩ | ⟨o, k, rfl, -, hok, hc⟩
    · exact .idle
    · simp only [run_bind]
      cases hr : (h.replace s.path o.blueprint.toDocument w).1 with
      | false => exact .refused (hh.failed _ w hr)
      | true =>
        have hdoc := (steady_publish hh o.change _).trans (hh.saved _ w hr)
        show Ended h s b w false (changes r (.ok o.reply)) _ _
        rw [hc]
        exact .saved (hb.carryOut hok) hdoc

/-! ### The first document -/

theorem ended_init (hh : h.Keeps s) (hb : b.Sound) (w : σ) :
    Ended h s b w (!(init h s b w).1.isOk) ((init h s b w).1.toOption.getD false) b
      (init h s b w).2 := by
  unfold init
  rw [run_bind, hh.look]
  by_cases hf : (h.look s.path w).1 ≠ .nothing
  · rw [if_pos hf]
    exact .idle
  · rw [if_neg hf, run_bind]
    cases hr : (h.replace s.path b.toDocument w).1 with
    | false => exact .refused (hh.failed _ w hr)
    | true => exact .saved hb (hh.saved _ w hr)

end ProofTracker.Session
