import ProofTracker.Proofs.Journal.Entry
import ProofTracker.Proofs.Session.Replay
import ProofTracker.Proofs.Session.Run

/-! # The journal tells what a session has done

A host keeps a journal if entries are added to its end, with times that the calendar and the clock
have, and nothing else writes to it (`Host.Logs`). Then whatever is asked of a session, one act adds
the entry of its change to the journal, or leaves the journal and the blueprint alone
(`entered_act`). So after every run that starts without a document and a journal, the journal has
one entry for each request that has changed something, in their order, and taken one after the other
these entries give the statuses of the items (`history_replays`). -/

namespace ProofTracker

variable {σ : Type} {h : Host (StateM σ)} {s : Settings} {journal : String}

/-- Lines are added to the end of the journal, which always works, and nothing else writes to it. The
clock gives times that there are. -/
structure Host.Logs (h : Host (StateM σ)) (s : Settings) (journal : String) : Prop where
  keeps : h.Keeps s
  configured : s.journal = some journal
  appends : ∀ text w, (h.append journal text w).1 = true
  appended : ∀ text w old, (h.append journal text w).1 = true → (h.found journal w).read = .ok old →
    h.found journal (h.append journal text w).2 = .text (old.getD "" ++ text)
  replace : ∀ text w, h.found journal (h.replace s.path text w).2 = h.found journal w
  commit : ∀ paths message w, h.found journal (h.commit paths message w).2 = h.found journal w
  now : ∀ w, h.found journal (h.now w).2 = h.found journal w
  clock : ∀ w, (h.now w).1.Valid

namespace Session

variable {b b' : Blueprint} {w w' : σ} {r : Request} {es : List Entry} {e : Entry} {c : Change}

/-! ### The text of the journal -/

/-- The journal has these entries, in this order. -/
structure Journalled (h : Host (StateM σ)) (journal : String) (es : List Entry) (w : σ) : Prop where
  found : ∃ old, (h.found journal w).read = .ok old ∧ old.getD "" = Journal.ofEntries es
  times : ∀ e ∈ es, e.time.Valid

theorem journalled_nil (hw : h.found journal w = .nothing) : Journalled h journal [] w :=
  ⟨⟨none, by rw [hw]; rfl, rfl⟩, by simp⟩

theorem Journalled.of_found_eq (hj : Journalled h journal es w)
    (hw : h.found journal w' = h.found journal w) : Journalled h journal es w' :=
  ⟨by rw [hw]; exact hj.found, hj.times⟩

/-- **The entries of the journal are read back.** -/
theorem Journalled.history (hj : Journalled h journal es w) :
    (Session.history h journal w).1 = .ok es := by
  obtain ⟨old, hread, hold⟩ := hj.found
  rw [fst_history, hread]
  show Journal.parse (old.getD "") = .ok es
  rw [hold, Journal.parse_ofEntries hj.times]

theorem snd_history (hh : h.Keeps s) (w : σ) : (history h journal w).2 = w := by
  unfold history
  rw [run_bind, hh.look]
  cases (h.look journal w).1.read <;> rfl

/-- What is entered stands at the end of the journal, whatever is done about a commit. -/
theorem Journalled.publish (hl : h.Logs s journal) (hj : Journalled h journal es w) (c : Change) :
    ∃ t, Journalled h journal (es ++ [⟨c, t⟩]) (Session.publish h s c w).2 := by
  obtain ⟨old, hread, hold⟩ := hj.found
  let t := (h.now w).1
  have happended : h.found journal (h.append journal (Journal.line ⟨c, t⟩) (h.now w).2).2 =
      .text (old.getD "" ++ Journal.line ⟨c, t⟩) :=
    hl.appended _ _ old (hl.appends _ _) (by rw [hl.now]; exact hread)
  have hrecord := steady_record { s with path := journal } hl.keeps.look hl.commit s c
  have hpublish : h.found journal (Session.publish h s c w).2 =
      .text (old.getD "" ++ Journal.line ⟨c, t⟩) := by
    unfold Session.publish
    rw [hl.configured]
    exact (hrecord _ _).trans happended
  rw [hold, Journal.ofEntries_append_line] at hpublish
  refine ⟨t, ⟨_, by rw [hpublish]; rfl, rfl⟩, fun e he => ?_⟩
  rcases List.mem_append.mp he with he | he
  · exact hj.times e he
  · rw [List.mem_singleton.mp he]
    exact hl.clock w

/-! ### Acts -/

/-- A question about the items or the journal. -/
inductive Query where
  | get (label : String)
  | list
  | eligible
  | order
  | snapshot
  | history

/-- Something that is done with a session. -/
inductive Act where
  | call (k : Call)
  | query (q : Query)

/-- What comes of it. -/
inductive Told where
  | answered (a : Answer)
  | item (x : Except Error Item)
  | items (x : Except Error (List Item))
  | blueprint (b : Blueprint)
  | entries (x : Except Error (List Entry))

/-- The change that an act is entered as, told from what comes of it. -/
def Act.entered : Act → Told → Option Change
  | .call (.ask r), .answered (.replied (.ok x)) => r.entered x
  | _, _ => none

/-- Whether the act is a request that has changed something. -/
def Act.changes : Act → Told → Bool
  | .call (.ask r), .answered (.replied x) => Session.changes r x
  | _, _ => false

section

variable {m : Type → Type} [Monad m]

/-- The answer to a question. -/
def Query.answer (h : Host m) (journal : String) (b : Blueprint) : Query → m Told
  | .get l => return .item (b.get l)
  | .list => return .items (.ok b.list)
  | .eligible => return .items (.ok b.items.eligible)
  | .order => return .items b.items.linearOrder
  | .snapshot => return .blueprint b
  | .history => return .entries (← Session.history h journal)

/-- One act. -/
def act (h : Host m) (s : Settings) (journal : String) (b : Blueprint) : Act → m (Blueprint × Told)
  | .call k => do
    let (b', a) ← step h s b k
    return (b', .answered a)
  | .query q => return (b, ← q.answer h journal b)

/-- One act after the other. -/
def acts (h : Host m) (s : Settings) (journal : String) :
    Blueprint → List Act → m (Blueprint × List Told)
  | b, [] => return (b, [])
  | b, a :: as => do
    let (b', x) ← act h s journal b a
    let (b'', xs) ← acts h s journal b' as
    return (b'', x :: xs)

end

/-! ### One act -/

/-- What has been done is in step with the host and stands in the journal, which tells the statuses. -/
structure Recorded (h : Host (StateM σ)) (s : Settings) (journal : String) (es : List Entry)
    (b : Blueprint) (w : σ) : Prop where
  synced : Synced h s b w
  journalled : Journalled h journal es w
  replay : replay (es.map Entry.toChange) = b.statuses

/-- The two things that an act can come to: it is not entered and leaves the journal and the blueprint
alone, or it is entered and the entry tells what it has changed. -/
inductive Entered (h : Host (StateM σ)) (s : Settings) (journal : String) (es : List Entry)
    (b : Blueprint) : Option Change → List Entry → Blueprint → σ → Prop
  | quiet {w' : σ} (hr : Recorded h s journal es b w') : Entered h s journal es b none es b w'
  | told {e : Entry} {b' : Blueprint} {w' : σ} (ht : e.toChange.Tells b b')
      (hr : Recorded h s journal (es ++ [e]) b' w') :
      Entered h s journal es b (some e.toChange) (es ++ [e]) b' w'

namespace Entered

variable {c? : Option Change} {es' : List Entry}

theorem recorded (he : Entered h s journal es b c? es' b' w') : Recorded h s journal es' b' w' := by
  cases he with
  | quiet hr => exact hr
  | told _ hr => exact hr

theorem entry (he : Entered h s journal es b c? es' b' w') : (c? = none ∧ es' = es) ∨
    ∃ e, c? = some e.toChange ∧ es' = es ++ [e] ∧ e.toChange.Tells b b' := by
  cases he with
  | quiet => exact Or.inl ⟨rfl, rfl⟩
  | told ht => exact Or.inr ⟨_, rfl, rfl, ht⟩

end Entered

theorem Recorded.concat (hr : Recorded h s journal es b w) (ht : e.toChange.Tells b b')
    (hs : Synced h s b' w') (hj : Journalled h journal (es ++ [e]) w') :
    Recorded h s journal (es ++ [e]) b' w' where
  synced := hs
  journalled := hj
  replay := by
    rw [List.map_append, List.map_singleton, replay_concat, hr.replay, ht.statuses]

/-- **A request is entered iff it changes something**, and its entry tells what. -/
theorem entered_perform (hl : h.Logs s journal) (hr : Recorded h s journal es b w) (r : Request) :
    let x : Told := .answered (.replied (perform h s b r w).1.2)
    (Act.entered (.call (.ask r)) x).isSome = Act.changes (.call (.ask r)) x ∧
      ∃ es', Entered h s journal es b (Act.entered (.call (.ask r)) x) es'
        (perform h s b r w).1.1 (perform h s b r w).2 := by
  have hsynced := (ended_perform hl.keeps hr.synced.sound r w).synced hr.synced
  unfold perform at hsynced ⊢
  cases ho : r.outcome? b with
  | error e => exact ⟨rfl, es, .quiet hr⟩
  | ok o? =>
    rw [ho] at hsynced
    rcases outcome_cases ho with ⟨rfl, rfl⟩ | ⟨o, k, rfl, -, -, hchanges⟩
    · exact ⟨rfl, es, .quiet hr⟩
    · obtain ⟨hentered, htells⟩ := Request.tells_of_outcome hr.synced.sound ho
      simp only [run_bind] at hsynced ⊢
      have hjournal := hr.journalled.of_found_eq (hl.replace o.blueprint.toDocument w)
      cases hsaved : (h.replace s.path o.blueprint.toDocument w).1 with
      | false =>
        rw [hsaved] at hsynced
        exact ⟨rfl, es, .quiet ⟨hsynced, hjournal, hr.replay⟩⟩
      | true =>
        rw [hsaved] at hsynced
        obtain ⟨t, hpublished⟩ := hjournal.publish hl o.change
        show (r.entered o.reply).isSome = Session.changes r (.ok o.reply) ∧
          ∃ es', Entered h s journal es b (r.entered o.reply) es' _ _
        rw [hentered, hchanges]
        exact ⟨rfl, es ++ [⟨o.change, t⟩],
          .told (e := ⟨o.change, t⟩) htells (hr.concat htells hsynced hpublished)⟩

theorem recorded_init (hl : h.Logs s journal) (hr : Recorded h s journal es b w) :
    Recorded h s journal es b (init h s b w).2 := by
  refine ⟨(ended_init hl.keeps hr.synced.sound w).synced hr.synced,
    hr.journalled.of_found_eq ?_, hr.replay⟩
  unfold init
  rw [run_bind, hl.keeps.look]
  split
  · rfl
  · rw [run_bind]
    cases (h.replace s.path b.toDocument w).1 <;> exact hl.replace _ w

/-- **What one act comes to.** -/
theorem entered_act (hl : h.Logs s journal) (hr : Recorded h s journal es b w) (a : Act) :
    (a.entered (act h s journal b a w).1.2).isSome = a.changes (act h s journal b a w).1.2 ∧
      ∃ es', Entered h s journal es b (a.entered (act h s journal b a w).1.2) es'
        (act h s journal b a w).1.1 (act h s journal b a w).2 := by
  cases a with
  | call k =>
    cases k with
    | ask r => exact entered_perform hl hr r
    | init => exact ⟨rfl, es, .quiet (recorded_init hl hr)⟩
    | reopen =>
      refine ⟨rfl, es, ?_⟩
      show Entered h s journal es b none es (step h s b .reopen w).1.1 (step h s b .reopen w).2
      rw [step_reopen hl.keeps hr.synced]
      exact .quiet hr
  | query q =>
    refine ⟨rfl, es, ?_⟩
    cases q with
    | history =>
      show Entered h s journal es b none es b (Session.history h journal w).2
      rw [snd_history hl.keeps]
      exact .quiet hr
    | get l => exact .quiet hr
    | list => exact .quiet hr
    | eligible => exact .quiet hr
    | order => exact .quiet hr
    | snapshot => exact .quiet hr

/-! ### Runs -/

/-- The entry was made behind these entries by one of the acts, and tells what that act has changed. -/
def MadeBy (h : Host (StateM σ)) (s : Settings) (journal : String) (b : Blueprint) (as : List Act)
    (w : σ) (es : List Entry) (e : Entry) : Prop :=
  ∃ as₁ a as₂, as = as₁ ++ a :: as₂ ∧
    Recorded h s journal es (acts h s journal b as₁ w).1.1 (acts h s journal b as₁ w).2 ∧
    Recorded h s journal (es ++ [e]) (acts h s journal b (as₁ ++ [a]) w).1.1
      (acts h s journal b (as₁ ++ [a]) w).2 ∧
    e.toChange.Tells (acts h s journal b as₁ w).1.1 (acts h s journal b (as₁ ++ [a]) w).1.1

variable {a : Act} {as : List Act}

theorem acts_cons : acts h s journal b (a :: as) w =
    (((acts h s journal (act h s journal b a w).1.1 as (act h s journal b a w).2).1.1,
      (act h s journal b a w).1.2 ::
        (acts h s journal (act h s journal b a w).1.1 as (act h s journal b a w).2).1.2),
      (acts h s journal (act h s journal b a w).1.1 as (act h s journal b a w).2).2) := rfl

theorem MadeBy.cons
    (hm : MadeBy h s journal (act h s journal b a w).1.1 as (act h s journal b a w).2 es e) :
    MadeBy h s journal b (a :: as) w es e := by
  obtain ⟨as₁, a', as₂, rfl, hm⟩ := hm
  exact ⟨a :: as₁, a', as₂, rfl, hm⟩

/-- **What a run comes to**: the entries of its acts stand behind the ones there were, each made by the
act that it tells of. -/
theorem recorded_acts (hl : h.Logs s journal) (hr : Recorded h s journal es b w) (as : List Act) :
    ∃ new, Recorded h s journal (es ++ new) (acts h s journal b as w).1.1
        (acts h s journal b as w).2 ∧
      new.map Entry.toChange =
        (as.zip (acts h s journal b as w).1.2).filterMap (fun p => p.1.entered p.2) ∧
      (∀ p ∈ as.zip (acts h s journal b as w).1.2, (p.1.entered p.2).isSome = p.1.changes p.2) ∧
      ∀ front e back, new = front ++ e :: back → MadeBy h s journal b as w (es ++ front) e := by
  induction as generalizing b es w with
  | nil =>
    refine ⟨[], by rw [List.append_nil]; exact hr, rfl, by simp, fun front e back h => ?_⟩
    simp at h
  | cons a as ih =>
    obtain ⟨hchanges, es', he⟩ := entered_act hl hr a
    obtain ⟨new, hnew, hmap, hall, hmade⟩ := ih he.recorded
    have hall' : ∀ p ∈ (a, (act h s journal b a w).1.2) :: as.zip _,
        (p.1.entered p.2).isSome = p.1.changes p.2 := List.forall_mem_cons.mpr ⟨hchanges, hall⟩
    rw [acts_cons, List.zip_cons_cons]
    rcases he.entry with ⟨hnone, rfl⟩ | ⟨e, hsome, rfl, htells⟩
    · refine ⟨new, hnew, ?_, hall', fun front e back h => (hmade front e back h).cons⟩
      simp only [List.filterMap_cons, hnone, hmap]
    · rw [List.append_assoc] at hnew
      refine ⟨e :: new, hnew, ?_, hall', fun front e' back h => ?_⟩
      · simp only [List.filterMap_cons, hsome, List.map_cons, hmap]
      · cases front with
        | nil =>
          obtain ⟨rfl, rfl⟩ := List.cons.inj h
          rw [List.append_nil]
          exact ⟨[], a, as, rfl, hr, he.recorded, htells⟩
        | cons d front =>
          obtain ⟨rfl, rfl⟩ := List.cons.inj h
          have := hmade front e' back rfl
          rw [List.append_assoc] at this
          exact this.cons

/-- A session that is opened where there is neither a document nor a journal. -/
theorem recorded_of_load (hdoc : h.found s.path w = .nothing)
    (hjournal : h.found journal w = .nothing) (hopen : (load h s w).1 = .ok b) :
    Recorded h s journal [] b w := by
  have hs : Synced h s b w := load_eq_ok_iff.mp hopen
  refine ⟨hs, journalled_nil hjournal, ?_⟩
  rcases hs with ⟨-, rfl⟩ | ⟨doc, hfound, -⟩
  · rfl
  · rw [hdoc] at hfound
    cases hfound

/-- **The journal tells what a session has done.** If it is opened where there is neither a document
nor a journal, then after every run the journal is read as one entry for each request that has changed
something, in their order, and as no others. Taken one after the other they give the statuses of the
items, in memory and in the document. An entry that moves an item tells the status that the entries
before it give, and was made by an act after which the item has the status and the attempts that it
tells. -/
theorem history_replays (hl : h.Logs s journal) (hdoc : h.found s.path w = .nothing)
    (hjournal : h.found journal w = .nothing) (hopen : (load h s w).1 = .ok b) {xs : List Told}
    (hrun : acts h s journal b as w = ((b', xs), w')) :
    ∃ es, (history h journal w').1 = .ok es ∧
      es.map Entry.toChange = (as.zip xs).filterMap (fun p => p.1.entered p.2) ∧
      (∀ p ∈ as.zip xs, (p.1.entered p.2).isSome = p.1.changes p.2) ∧
      replay (es.map Entry.toChange) = b'.statuses ∧ (load h s w').1 = .ok b' ∧
      ∀ front e back, es = front ++ e :: back → e.operation.moves = true →
        ∃ before, e.before = some before ∧
          replay (front.map Entry.toChange) e.subject = some before ∧
          ∃ as₁ a as₂, as = as₁ ++ a :: as₂ ∧
            (history h journal (acts h s journal b as₁ w).2).1 = .ok front ∧
            (history h journal (acts h s journal b (as₁ ++ [a]) w).2).1 = .ok (front ++ [e]) ∧
            ∃ i, (acts h s journal b (as₁ ++ [a]) w).1.1.items.get? e.subject = some i ∧
              e.after = some i.status ∧ e.attempts = some i.attempts := by
  obtain ⟨es, hr, hmap, hall, hmade⟩ := recorded_acts hl (recorded_of_load hdoc hjournal hopen) as
  rw [hrun] at hr hmap hall
  refine ⟨es, hr.journalled.history, hmap, hall, hr.replay, load_eq_ok_iff.mpr hr.synced,
    fun front e back hes hmoves => ?_⟩
  obtain ⟨as₁, a, as₂, has, hr₁, hr₂, htells⟩ := hmade front e back hes
  obtain ⟨t, hmoved, hchange⟩ := htells.move hmoves
  obtain ⟨i, hi, hstatus, hattempts⟩ := hmoved.item
  have hsubject : e.subject = t.label := by rw [hchange]; rfl
  have hbefore : e.before = some t.before := by rw [hchange]; rfl
  have hafter : e.after = some t.applied := by rw [hchange]; rfl
  have hcounted : e.attempts = some t.attempts := by rw [hchange]; rfl
  refine ⟨t.before, hbefore, ?_, as₁, a, as₂, has, hr₁.journalled.history, hr₂.journalled.history,
    i, by rw [hsubject, hi], by rw [hafter, hstatus], by rw [hcounted, hattempts]⟩
  rw [hsubject]
  exact (congrFun hr₁.replay t.label).trans hmoved.before

/-- A shelf on which the journal is not the document keeps a journal. -/
theorem logs_shelf (hs : s.journal = some journal) (hne : s.path ≠ journal) :
    Shelf.host.Logs s journal where
  keeps := Shelf.keeps_host (by rw [hs]; simpa using hne.symm)
  configured := hs
  appends _ _ := rfl
  appended text w old _ hold := by
    unfold Host.found Shelf.host at hold ⊢
    dsimp only at hold ⊢
    rw [List.lookup_cons_self]
    cases hw : w.files.lookup journal with
    | none =>
      rw [hw] at hold
      cases hold
      rfl
    | some x =>
      rw [hw] at hold
      cases hold
      rfl
  replace text w := by
    have hne' : (journal == s.path) = false := by simpa using hne.symm
    obtain ⟨files, _ | ⟨_ | _, saves⟩⟩ := w <;>
      simp [Host.found, Shelf.host, List.lookup_cons, hne']
  commit _ _ _ := rfl
  now _ := rfl
  clock _ :=
    have hvalid : (Timestamp.ofUnix 0 0).Valid := ⟨by decide, by decide, by decide, by decide⟩
    hvalid

/-- An item is started and given up; a save fails, one claim finds nothing, and the session is opened
again on the way. -/
theorem history_replays_shelf :
    let s : Settings := { journal := some "journal" }
    let i : Item := { label := "a", kind := .lem, attempts := .fresh 3 }
    let w : Shelf := ⟨[], [true, false]⟩
    let r := acts Shelf.host s "journal" ∅ [.call .init, .call (.ask (.upsert i)),
      .call (.ask (.upsert i)), .call .reopen, .call (.ask .claim), .query .history,
      .call (.ask .claim), .call (.ask (.upsert i)), .call (.ask (.advance "a" .underway 3))] w
    ∃ es, (history Shelf.host "journal" r.2).1 = .ok es ∧
      es.map Entry.toChange = [⟨.upsert, ["a"], none, none, none⟩,
        ⟨.claim, ["a"], some .todo, some .underway, some ⟨0, 3⟩⟩, ⟨.upsert, ["a"], none, none, none⟩,
        ⟨.advance, ["a"], some .underway, some .hard, some ⟨3, 3⟩⟩] ∧
      replay (es.map Entry.toChange) = r.1.1.statuses := by
  intro s i w r
  have hl : Shelf.host.Logs s "journal" := logs_shelf rfl (by decide)
  have hparts (x : (Blueprint × List Told) × Shelf) : x = ((x.1.1, x.1.2), x.2) := rfl
  obtain ⟨es, hes, hmap, -, hreplay, -⟩ := history_replays hl (w := w) rfl rfl rfl (hparts r)
  refine ⟨es, hes, ?_, hreplay⟩
  rw [hmap]
  decide +kernel

end Session

end ProofTracker
