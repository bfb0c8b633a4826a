import ProofTracker.Proofs.Blueprint.Progress
import ProofTracker.Proofs.Catalog.Eligible
import ProofTracker.Proofs.Session.Shelf
import ProofTracker.Proofs.Session.Synced

/-! # Callers that share a session

Any number of callers make requests of one session. It is locked while a request is carried out, so
whatever the callers do together is a row of requests, each of which is carried out as a whole
(`serve`). A claim starts the item that is offered first, and finds none only if none is ready
(`perform_claim`). The item is not to be done any more then, and only three kinds of requests can
change that (`exists_reopens_of_outcome`), so before it is claimed again one of them has succeeded
(`exists_reopens_between`). The saves may fail or not; nothing is asked of the host. -/

namespace ProofTracker.Session

open Catalog

variable {σ κ : Type}

/-- A request, the caller that made it, and the answer. -/
structure Event (κ : Type) where
  caller : κ
  request : Request
  answer : Except Error Reply
deriving DecidableEq

/-- The requests of callers, in the order in which the lock lets them in. -/
def serve {m : Type → Type} [Monad m] (h : Host m) (s : Settings) :
    Blueprint → List (κ × Request) → m (Blueprint × List (Event κ))
  | b, [] => return (b, [])
  | b, (caller, r) :: turns => do
    let (b', x) ← perform h s b r
    let (b'', es) ← serve h s b' turns
    return (b'', ⟨caller, r, x⟩ :: es)

/-- The item with the label has successfully been put back, reverted or split. -/
def Event.Reopens (e : Event κ) (l : String) : Prop :=
  (∃ requested n t, e.request = .advance l requested n ∧ e.answer = .ok (.moved t) ∧
    t.applied = .todo) ∨
  (e.request = .revert l ∧ ∃ x, e.answer = .ok x) ∨
  ∃ steps n, e.request = .split l steps n ∧ ∃ x, e.answer = .ok x

variable {h : Host (StateM σ)} {s : Settings} {b b' : Blueprint} {w w' : σ} {r : Request}
  {o : Outcome} {i j : Item} {l : String} {t : Transition} {offers : List Item}
  {turns : List (κ × Request)} {es es' : List (Event κ)} {caller : κ}

/-! ### One request -/

theorem fst_perform_of_some (ho : r.outcome? b = .ok (some o)) : (perform h s b r w).1 =
    if (h.replace s.path o.blueprint.toDocument w).1 = true then (o.blueprint, .ok o.reply)
    else (b, .error .storage) := by
  unfold perform
  rw [ho]
  simp only [run_bind]
  cases (h.replace s.path o.blueprint.toDocument w).1 with
  | true => rfl
  | false => rfl

/-- A request leaves the blueprint alone and fails, unless it is a claim that finds nothing, or it is
carried out. -/
theorem perform_cases (h : Host (StateM σ)) (s : Settings) (b : Blueprint) (r : Request) (w : σ) :
    ((perform h s b r w).1.1 = b ∧
      ∀ x, (perform h s b r w).1.2 = .ok x → r = .claim ∧ x = .nothing) ∨
      ∃ o, r.outcome? b = .ok (some o) ∧ (perform h s b r w).1 = (o.blueprint, .ok o.reply) := by
  cases ho : r.outcome? b with
  | error e =>
    left
    unfold perform
    rw [ho]
    exact ⟨rfl, by rintro x ⟨⟩⟩
  | ok o? =>
    rcases outcome_cases ho with ⟨rfl, rfl⟩ | ⟨o, -, rfl, -⟩
    · left
      unfold perform
      rw [ho]
      exact ⟨rfl, by rintro x ⟨⟩; exact ⟨rfl, rfl⟩⟩
    · have hperform := fst_perform_of_some (h := h) (s := s) (w := w) ho
      split_ifs at hperform
      · exact Or.inr ⟨o, rfl, hperform⟩
      · left
        rw [hperform]
        exact ⟨rfl, by rintro x ⟨⟩⟩

/-! ### One claim -/

/-- The item is the best one that is ready, and it is started and nothing else changed. -/
structure Claimed (b : Blueprint) (i : Item) (b' : Blueprint) (t : Transition) : Prop where
  ready : b.items.Ready i
  least : ∀ j, b.items.Ready j →
    i.priority < j.priority ∨ i.priority = j.priority ∧ i.label ≤ j.label
  started : b.advance i.label .underway 0 = .ok (b', t)
  label : t.label = i.label
  applied : t.applied = .underway ∨ t.applied = .hard
  item : b'.items.get? i.label = some { i with status := t.applied, attempts := t.attempts }
  others : ∀ l, l ≠ i.label → b'.items.get? l = b.items.get? l
  order : b'.order = b.order

theorem exists_claimed (he : b.items.eligible = i :: offers) : ∃ b' t, Claimed b i b' t := by
  have hmem : i ∈ b.items.eligible := by rw [he]; exact List.mem_cons_self
  have hready : b.items.Ready i := mem_eligible_iff_ready.mp hmem
  have ⟨hi, htodo, huses⟩ := hready
  have hlegal : i.status.mayBecome .underway := by rw [htodo]; rfl
  have hdone : b.items.usesDone i = true :=
    usesDone_iff.mpr fun l hl => isDone_iff.mpr (huses l hl)
  let t : Transition := ⟨i.label, i.status, .underway, (i.attempts.record 0).settle .underway,
    i.attempts.record 0⟩
  let j : Item := { i with status := t.applied, attempts := t.attempts }
  have hadv : b.items.advance i.label .underway 0 = .ok (b.items.insert j, t) :=
    Catalog.advance_eq_ok_iff.mpr ⟨i, SortedBy.get?_of_mem hi, hlegal, fun _ => hdone, rfl, rfl⟩
  refine ⟨_, t, hready, fun k hk => ?_, Blueprint.advance_of_items hadv, rfl, ?_,
    SortedBy.get?_insert_self b.items j, fun l hl => ?_, rfl⟩
  · exact offeredBefore_iff.mp (offeredBefore_of_eligible he (mem_eligible_iff_ready.mpr hk))
  · -- Without an attempt left the item is given up at once.
    rcases settle_cases (i.attempts.record 0) .underway with hs | ⟨hs, -⟩
    · exact Or.inl hs
    · exact Or.inr hs
  · exact SortedBy.get?_insert_of_ne (a := j) (Ne.symm hl) b.items

theorem Claimed.outcome (hc : Claimed b i b' t) (he : b.items.eligible = i :: offers) :
    Request.claim.outcome? b = .ok (some (.ofMove .claim (b', t))) := by
  unfold Request.outcome?
  rw [he]
  dsimp only
  rw [hc.started]
  rfl

theorem perform_claim_of_nil (he : b.items.eligible = []) :
    perform h s b .claim w = ((b, .ok .nothing), w) := by
  have ho : Request.claim.outcome? b = .ok none := by
    unfold Request.outcome?
    rw [he]
    rfl
  unfold perform
  rw [ho]
  rfl

/-- **What a claim does.** -/
theorem perform_claim (h : Host (StateM σ)) (s : Settings) (b : Blueprint) (w : σ) :
    (∀ i, ¬ b.items.Ready i) ∧ perform h s b .claim w = ((b, .ok .nothing), w) ∨
    ∃ i b' t, Claimed b i b' t ∧ (perform h s b .claim w).1 =
      if (h.replace s.path b'.toDocument w).1 = true then (b', .ok (.moved t))
      else (b, .error .storage) := by
  cases he : b.items.eligible with
  | nil =>
    refine Or.inl ⟨fun i hi => ?_, perform_claim_of_nil he⟩
    have hmem := mem_eligible_iff_ready.mpr hi
    rw [he] at hmem
    cases hmem
  | cons i offers =>
    obtain ⟨b', t, hc⟩ := exists_claimed he
    have hperform := fst_perform_of_some (h := h) (s := s) (w := w) (hc.outcome he)
    exact Or.inr ⟨i, b', t, hc, hperform⟩

theorem exists_claimed_of_moved (hx : (perform h s b .claim w).1.2 = .ok (.moved t)) :
    ∃ i, Claimed b i (perform h s b .claim w).1.1 t := by
  rcases perform_claim h s b w with ⟨-, hp⟩ | ⟨i, b', t', hc, hp⟩
  · rw [hp] at hx
    cases hx
  · rw [hp] at hx ⊢
    split_ifs at hx ⊢ with hsaved
    cases hx
    exact ⟨i, hc⟩

/-! ### Requests that reopen an item -/

theorem exists_reopens_of_outcome (ho : r.outcome? b = .ok (some o))
    (hi : b.items.get? l = some i) (hs : i.status ≠ .todo) (caller : κ) :
    ∃ j, o.blueprint.items.get? l = some j ∧
      (j.status = .todo → (⟨caller, r, .ok o.reply⟩ : Event κ).Reopens l) := by
  rcases outcome_cases ho with ⟨hnone, -⟩ | ⟨_, k, heq, hk, hok, -⟩
  · cases hnone
  obtain rfl := Option.some.inj heq
  obtain ⟨j, hj, hp⟩ := Blueprint.exists_progress hok hi
  refine ⟨j, hj, fun hjs => ?_⟩
  have hturns : Blueprint.Turns l i k .todo := by
    rcases hp.turns with hsame | hturns
    · exact absurd (hsame.symm.trans hjs) hs
    · rwa [hjs] at hturns
  -- Of the calls that requests make, three give an item this status.
  cases r with
  | upsert x =>
    cases hk
    cases hturns
  | advance m requested n =>
    cases hk
    cases hturns
    obtain ⟨⟨b', t⟩, hadv, heq⟩ := bind_eq_ok_iff.mp ho
    cases heq
    have happlied := (Blueprint.applied_of_advance hadv hj).trans hjs
    exact Or.inl ⟨_, _, t, rfl, rfl, happlied⟩
  | claim =>
    obtain ⟨x, -, rfl⟩ := Option.map_eq_some_iff.mp hk
    cases hturns
  | revert m =>
    cases hk
    cases hturns
    exact Or.inr (Or.inl ⟨rfl, _, rfl⟩)
  | split m steps n =>
    cases hk
    cases hturns
    exact Or.inr (Or.inr ⟨_, _, rfl, _, rfl⟩)

/-- An item that is not to be done stays so, or the request has reopened it. -/
theorem exists_reopens_of_perform (hi : b.items.get? l = some i) (hs : i.status ≠ .todo)
    (caller : κ) (r : Request) (w : σ) : ∃ j, (perform h s b r w).1.1.items.get? l = some j ∧
      (j.status = .todo → (⟨caller, r, (perform h s b r w).1.2⟩ : Event κ).Reopens l) := by
  rcases perform_cases h s b r w with ⟨hsame, -⟩ | ⟨o, ho, hp⟩
  · rw [hsame]
    exact ⟨i, hi, fun htodo => absurd htodo hs⟩
  · rw [hp]
    exact exists_reopens_of_outcome ho hi hs caller

/-! ### Many requests -/

theorem serve_cons (caller : κ) (r : Request) (turns : List (κ × Request)) :
    serve h s b ((caller, r) :: turns) w =
      (((serve h s (perform h s b r w).1.1 turns (perform h s b r w).2).1.1,
        ⟨caller, r, (perform h s b r w).1.2⟩ ::
          (serve h s (perform h s b r w).1.1 turns (perform h s b r w).2).1.2),
        (serve h s (perform h s b r w).1.1 turns (perform h s b r w).2).2) := rfl

theorem exists_serve_of_cons {e : Event κ} (hrun : (serve h s b turns w).1.2 = e :: es) :
    ∃ turns', e.answer = (perform h s b e.request w).1.2 ∧
      (serve h s (perform h s b e.request w).1.1 turns' (perform h s b e.request w).2).1.2 = es := by
  cases turns with
  | nil => cases hrun
  | cons turn turns =>
    obtain ⟨caller, r⟩ := turn
    rw [serve_cons] at hrun
    obtain ⟨rfl, hrest⟩ := List.cons.inj hrun
    exact ⟨turns, rfl, hrest⟩

/-- What the callers got later on is what they get from the blueprint and the host at that time. -/
theorem exists_serve_of_append (hrun : (serve h s b turns w).1.2 = es ++ es') :
    ∃ turns₁ turns₂ b₁ w₁, serve h s b turns₁ w = ((b₁, es), w₁) ∧
      (serve h s b₁ turns₂ w₁).1.2 = es' := by
  induction es generalizing b w turns with
  | nil => exact ⟨[], turns, b, w, rfl, hrun⟩
  | cons e es ih =>
    obtain ⟨turns', hx, hrest⟩ := exists_serve_of_cons hrun
    obtain ⟨turns₁, turns₂, b₁, w₁, hfirst, hsecond⟩ := ih hrest
    refine ⟨(e.caller, e.request) :: turns₁, turns₂, b₁, w₁, ?_, hsecond⟩
    rw [serve_cons, hfirst, ← hx]

/-- Some request has reopened an item that is to be done again. -/
theorem exists_reopens_of_serve (hi : b.items.get? l = some i) (hs : i.status ≠ .todo)
    (hj : (serve h s b turns w).1.1.items.get? l = some j) (hjs : j.status = .todo) :
    ∃ e ∈ (serve h s b turns w).1.2, e.Reopens l := by
  induction turns generalizing b i w with
  | nil =>
    obtain rfl : i = j := Option.some.inj (hi.symm.trans hj)
    exact absurd hjs hs
  | cons turn turns ih =>
    obtain ⟨caller, r⟩ := turn
    rw [serve_cons] at hj ⊢
    obtain ⟨i', hi', hfirst⟩ := exists_reopens_of_perform (h := h) (s := s) hi hs caller r w
    by_cases hs' : i'.status = .todo
    · exact ⟨_, List.mem_cons_self, hfirst hs'⟩
    · obtain ⟨e, he, hel⟩ := ih hi' hs' hj
      exact ⟨e, List.mem_cons_of_mem _ he, hel⟩

theorem exists_reopens_between {front mid back : List (Event κ)} {p q : κ} {t t' : Transition}
    (hrun : (serve h s b turns w).1.2 = front ++ ⟨p, .claim, .ok (.moved t)⟩ ::
      (mid ++ ⟨q, .claim, .ok (.moved t')⟩ :: back))
    (hl : t.label = t'.label) : ∃ e ∈ mid, e.Reopens t.label := by
  obtain ⟨-, turns₁, b₁, w₁, -, hafter⟩ := exists_serve_of_append hrun
  obtain ⟨turns₂, hfirst, hrest⟩ := exists_serve_of_cons hafter
  obtain ⟨i, hi⟩ := exists_claimed_of_moved hfirst.symm
  obtain ⟨turns₃, turns₄, b₂, w₂, hmid, hback⟩ := exists_serve_of_append hrest
  obtain ⟨-, hsecond, -⟩ := exists_serve_of_cons hback
  obtain ⟨j, hj⟩ := exists_claimed_of_moved hsecond.symm
  -- After the first claim the item is not to be done, before the second one it is.
  have hs : t.applied ≠ .todo := by rcases hi.applied with h | h <;> simp [h]
  obtain ⟨hjmem, hjs, -⟩ := hj.ready
  have hlabel : i.label = j.label := by rw [← hi.label, hl, hj.label]
  have hget : (serve h s (perform h s b₁ .claim w₁).1.1 turns₃
      (perform h s b₁ .claim w₁).2).1.1.items.get? i.label = some j := by
    rw [hmid, hlabel]
    exact SortedBy.get?_of_mem hjmem
  have hre := exists_reopens_of_serve hi.item hs hget hjs
  rw [hmid, ← hi.label] at hre
  exact hre

/-- **Claims of callers that share a session**, after any requests of theirs, whichever saves fail. A
claim finds nothing exactly if no item is ready. Otherwise, unless the save fails, it starts the best
item that is ready and changes no other one. And an item that has been claimed is not claimed again
until a request in between has reopened it. -/
theorem serve_claims (hrun : serve h s b turns w = ((b', es), w')) :
    ((perform h s b' .claim w').1.2 = .ok .nothing ↔ ∀ i, ¬ b'.items.Ready i) ∧
    ((∃ i, b'.items.Ready i) → ∃ i b'' t, Claimed b' i b'' t ∧ (perform h s b' .claim w').1 =
      if (h.replace s.path b''.toDocument w').1 = true then (b'', .ok (.moved t))
      else (b', .error .storage)) ∧
    ∀ front p t mid q t' back, es = front ++ ⟨p, .claim, .ok (.moved t)⟩ ::
        (mid ++ ⟨q, .claim, .ok (.moved t')⟩ :: back) →
      t.label = t'.label → ∃ e ∈ mid, e.Reopens t.label := by
  refine ⟨?_, ?_, ?_⟩
  · rcases perform_claim h s b' w' with ⟨hnone, hp⟩ | ⟨i, b'', t, hc, hp⟩
    · rw [hp]
      exact iff_of_true rfl hnone
    · refine iff_of_false (fun hx => ?_) fun hnone => hnone i hc.ready
      rw [hp] at hx
      split_ifs at hx
      all_goals cases hx
  · rintro ⟨i, hi⟩
    rcases perform_claim h s b' w' with ⟨hnone, -⟩ | hclaimed
    · exact absurd hi (hnone i)
    · exact hclaimed
  · intro front p t mid q t' back hes hl
    have hhist : (serve h s b turns w).1.2 = front ++ ⟨p, .claim, .ok (.moved t)⟩ ::
        (mid ++ ⟨q, .claim, .ok (.moved t')⟩ :: back) := by rw [hrun, hes]
    exact exists_reopens_between hhist hl

/-- A first save fails. The item is claimed, added once more, put back by another caller and claimed
again. -/
theorem serve_claims_shelf :
    let s : Settings := {}
    let i : Item := { label := "a", kind := .lem, attempts := .fresh 3 }
    let t : Transition := ⟨"a", .todo, .underway, .underway, .fresh 3⟩
    let b := (∅ : Blueprint).after (.upsert i)
    let put : Request := .advance "a" .todo 1
    let mid : List (Event ℕ) := [⟨1, .claim, .ok .nothing⟩, ⟨1, .upsert i, .ok .nothing⟩,
      ⟨1, put, .ok (.moved ⟨"a", .underway, .todo, .todo, ⟨1, 3⟩⟩)⟩]
    let r := serve Shelf.host s b
      [(0, .claim), (0, .claim), (1, .claim), (1, .upsert i), (1, put), (0, .claim)] ⟨[], [false]⟩
    r.1.2 = [⟨0, .claim, .error .storage⟩] ++ ⟨0, .claim, .ok (.moved t)⟩ ::
      (mid ++ [⟨0, .claim, .ok (.moved { t with attempts := ⟨1, 3⟩ })⟩]) ∧
    (∃ e ∈ mid, e.Reopens "a") ∧ ∀ i, ¬ r.1.1.items.Ready i := by
  intro s i t b put mid r
  have hes : r.1.2 = [⟨0, .claim, .error .storage⟩] ++ ⟨0, .claim, .ok (.moved t)⟩ ::
      (mid ++ [⟨0, .claim, .ok (.moved { t with attempts := ⟨1, 3⟩ })⟩]) := by decide +kernel
  have hnone : (perform Shelf.host s r.1.1 .claim r.2).1.2 = .ok .nothing := by decide +kernel
  have hparts (x : (Blueprint × List (Event ℕ)) × Shelf) : x = ((x.1.1, x.1.2), x.2) := rfl
  obtain ⟨hiff, -, hagain⟩ := serve_claims (hparts r)
  exact ⟨hes, hagain _ 0 t mid 0 _ [] hes rfl, hiff.mp hnone⟩

end ProofTracker.Session
