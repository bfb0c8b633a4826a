import ProofTracker.Proofs.Blueprint.Batch
import ProofTracker.Proofs.Blueprint.Split
import ProofTracker.Proofs.Session.Replay
import ProofTracker.Proofs.Session.Run
import ProofTracker.Proofs.Session.Started

/-! # Summaries of changes

A valid label has no blanks, so the words of a change's summary are the operation, the label that the
change is about, and then the statuses or the labels that it made, each with a comma behind it except
the last (`Change.Regular.words_summary`). A label has no commas either, so the words tell them all
(`Change.Regular.summary_inj`). What a session enters into the journal and commits is of this kind,
since its blueprint stays sound on every host (`regular_run`). Hence the messages of the commits tell
what has been done (`message_eq_iff`). -/

namespace ProofTracker

open Text

variable {c d : Change} {l : String} {ls ms : List String} {o : Operation}

/-! ### Words -/

/-- The words of a list of labels with a comma and a blank between any two of them. -/
def listed : List String → List (List Char)
  | [] => []
  | [l] => [l.toList]
  | l :: ls => (l.toList ++ [',']) :: listed ls

theorem words_label (h : Label.Valid l) : words l.toList = [l.toList] :=
  words_of_forall h.solid.ne_nil fun _ => h.isBlank

theorem words_intercalate (h : ∀ l ∈ ls, Label.Valid l) :
    words (", ".intercalate ls).toList = listed ls := by
  rw [String.toList_intercalate]
  induction ls with
  | nil => rfl
  | cons l ls ih =>
    obtain ⟨hl, hls⟩ := List.forall_mem_cons.mp h
    cases ls with
    | nil => simpa [listed] using words_label hl
    | cons m ls =>
      have hcomma : ∀ c ∈ l.toList ++ [','], isBlank c = false := by
        intro c hc
        rcases List.mem_append.mp hc with hc | hc
        · exact hl.isBlank hc
        · rw [List.mem_singleton.mp hc]
          decide
      have hsplit : [',', ' '].intercalate ((l :: m :: ls).map String.toList) =
          (l.toList ++ [',']) ++ ' ' :: [',', ' '].intercalate ((m :: ls).map String.toList) := by
        rw [List.map_cons, List.intercalate_cons_of_ne_nil (by simp)]
        simp
      show words ([',', ' '].intercalate _) = _
      rw [hsplit, words_append_cons isBlank_space, words_of_forall (by simp) hcomma]
      exact congrArg _ (ih hls)

/-- The labels are the words without their commas. -/
theorem map_filter_listed (h : ∀ l ∈ ls, Label.Valid l) :
    (listed ls).map (List.filter (· ≠ ',')) = ls.map String.toList := by
  induction ls with
  | nil => rfl
  | cons l ls ih =>
    obtain ⟨hl, hls⟩ := List.forall_mem_cons.mp h
    have hcomma : l.toList.filter (· ≠ ',') = l.toList :=
      List.filter_eq_self.mpr fun c hc => by simpa using ((Label.valid_iff.mp hl).2 c hc).2.2.2
    cases ls with
    | nil => simpa [listed] using hcomma
    | cons m ls =>
      have hword : (l.toList ++ [',']).filter (· ≠ ',') = l.toList := by
        rw [List.filter_append, hcomma]
        simp
      have hrest := ih hls
      rw [List.map_cons, ← hrest, ← hword]
      rfl

theorem listed_inj (h : ∀ l ∈ ls, Label.Valid l) (h' : ∀ l ∈ ms, Label.Valid l)
    (he : listed ls = listed ms) : ls = ms := by
  have hmap := congrArg (List.map (List.filter (· ≠ ','))) he
  rw [map_filter_listed h, map_filter_listed h'] at hmap
  exact List.map_injective_iff.mpr (fun _ _ => String.toList_inj.mp) hmap

/-! ### Summaries -/

/-- A change of the kind that sessions make. -/
inductive Change.Regular : Change → Prop
  | upsert {l : String} (hl : Label.Valid l) : Regular ⟨.upsert, [l], none, none, none⟩
  | move {o : Operation} {l : String} {before after : Status} {attempts : Attempts}
      (ho : o.moves = true) (hl : Label.Valid l) :
      Regular ⟨o, [l], some before, some after, some attempts⟩
  | split {target : String} {labels : List String} (ht : Label.Valid target) (hne : labels ≠ [])
      (hlabels : ∀ l ∈ labels, Label.Valid l) :
      Regular ⟨.split, target :: labels, none, none, none⟩

/-- The words of the summary. -/
def Change.summaryWords (c : Change) : List (List Char) :=
  c.operation.name.toList :: c.subject.toList :: match c.operation, c.before, c.after with
    | .split, _, _ => "into".toList :: listed c.labels.tail
    | _, some before, some after => ['(' :: before.name.toList, ['-', '>'], after.name.toList ++ [')']]
    | _, _, _ => []

theorem words_operation (o : Operation) : words o.name.toList = [o.name.toList] := by
  cases o <;> decide

theorem words_statuses (s s' : Status) :
    words ('(' :: s.name.toList ++ ' ' :: '-' :: '>' :: ' ' :: (s'.name.toList ++ [')'])) =
      ['(' :: s.name.toList, ['-', '>'], s'.name.toList ++ [')']] := by
  cases s <;> cases s' <;> decide

/-- **The words of the summary tell what has been done.** -/
theorem Change.Regular.words_summary (h : c.Regular) : words c.summary.toList = c.summaryWords := by
  cases h with
  | @upsert l hl =>
    have htext : (Change.summary ⟨.upsert, [l], none, none, none⟩).toList =
        Operation.upsert.name.toList ++ ' ' :: l.toList := by
      simp [Change.summary, Operation.name, toString, String.toList_append]
    rw [htext, words_append_cons isBlank_space, words_operation, words_label hl]
    rfl
  | @move o l before after attempts ho hl =>
    obtain ⟨htext, hwords⟩ :
        (Change.summary ⟨o, [l], some before, some after, some attempts⟩).toList =
          o.name.toList ++ ' ' :: (l.toList ++ ' ' ::
            ('(' :: before.name.toList ++ ' ' :: '-' :: '>' :: ' ' :: (after.name.toList ++ [')']))) ∧
        Change.summaryWords ⟨o, [l], some before, some after, some attempts⟩ =
          [o.name.toList, l.toList, '(' :: before.name.toList, ['-', '>'],
            after.name.toList ++ [')']] := by
      cases o with
      | upsert => cases ho
      | split => cases ho
      | advance | claim | revert =>
        simp [Change.summary, Change.summaryWords, Change.subject, toString, String.toList_append]
    rw [htext, hwords, words_append_cons isBlank_space, words_append_cons isBlank_space,
      words_operation, words_label hl, words_statuses]
    rfl
  | @split target labels ht _ hlabels =>
    have htext : (Change.summary ⟨.split, target :: labels, none, none, none⟩).toList =
        Operation.split.name.toList ++ ' ' :: (target.toList ++ ' ' ::
          ("into".toList ++ ' ' :: (", ".intercalate labels).toList)) := by
      simp [Change.summary, Change.subject, Operation.name, toString, String.toList_append]
    have hinto : words "into".toList = ["into".toList] := by decide
    rw [htext, words_append_cons isBlank_space, words_append_cons isBlank_space,
      words_append_cons isBlank_space, words_operation, words_label ht, hinto,
      words_intercalate hlabels]
    rfl

theorem Operation.name_inj {o o' : Operation} (h : o.name.toList = o'.name.toList) : o = o' := by
  have hof := congrArg ofName? (String.toList_inj.mp h)
  rw [ofName?_name, ofName?_name] at hof
  exact Option.some.inj hof

theorem Status.name_inj {s s' : Status} (h : s.name.toList = s'.name.toList) : s = s' := by
  have hof := congrArg ofName? (String.toList_inj.mp h)
  rw [ofName?_name, ofName?_name] at hof
  exact Option.some.inj hof

/-- **A summary tells the operation, the labels and the statuses.** -/
theorem Change.Regular.summary_inj (h : c.Regular) (h' : d.Regular) (he : c.summary = d.summary) :
    c.operation = d.operation ∧ c.labels = d.labels ∧ c.before = d.before ∧ c.after = d.after := by
  have hwords : c.summaryWords = d.summaryWords := by
    rw [← h.words_summary, ← h'.words_summary, he]
  obtain ⟨ho, hrest⟩ := List.cons.inj hwords
  obtain ⟨hsubject, hrest⟩ := List.cons.inj hrest
  replace ho := Operation.name_inj ho
  replace hsubject := String.toList_inj.mp hsubject
  cases h with
  | upsert hl =>
    cases h' with
    | upsert hl' => exact ⟨rfl, congrArg ([·]) hsubject, rfl, rfl⟩
    | move ho' _ => cases ho; cases ho'
    | split => cases ho
  | @move o l before after _ hm hl =>
    cases h' with
    | upsert => cases ho; cases hm
    | @move o' l' before' after' _ hm' hl' =>
      obtain rfl : o = o' := ho
      have hstatuses : ['(' :: before.name.toList, ['-', '>'], after.name.toList ++ [')']] =
          ['(' :: before'.name.toList, ['-', '>'], after'.name.toList ++ [')']] := by
        cases o with
        | upsert => cases hm
        | split => cases hm
        | advance | claim | revert => exact hrest
      simp only [List.cons.injEq, true_and, and_true, List.append_cancel_right_eq] at hstatuses
      exact ⟨rfl, congrArg ([·]) hsubject, congrArg some (Status.name_inj hstatuses.1),
        congrArg some (Status.name_inj hstatuses.2)⟩
    | split => cases ho; cases hm
  | split ht hne hlabels =>
    cases h' with
    | upsert => cases ho
    | move ho' _ => cases ho; cases ho'
    | split ht' hne' hlabels' =>
      have hlisted := listed_inj hlabels hlabels' (List.cons.inj hrest).2
      exact ⟨rfl, congrArg₂ List.cons hsubject hlisted, rfl, rfl⟩

/-! ### Changes that sessions make -/

theorem Blueprint.Moved.regular {b b' : Blueprint} {t : Transition} (hb : b.Sound)
    (h : Blueprint.Moved b b' t) (ho : o.moves = true) : (Change.ofTransition o t).Regular := by
  obtain ⟨i, hi, -⟩ := Option.map_eq_some_iff.mp h.before
  exact .move ho (hb.valid_of_get? hi)

theorem Blueprint.valid_of_upsert {b b' : Blueprint} {i : Item} (h : b.upsert i = .ok b') :
    Label.Valid i.label := by
  obtain ⟨-, hadm, -⟩ := exists_upsertBatch_eq_ok_iff.mp ⟨b', h⟩
  have hi := (hadm i (List.mem_singleton_self i)).label
  rwa [← b.label_resumed i]

/-- **What a request leads to is a change of this kind.** -/
theorem Request.regular_of_outcome {r : Request} {b : Blueprint} {x : Outcome} (hb : b.Sound)
    (h : r.outcome? b = .ok (some x)) : x.change.Regular := by
  cases Request.leadsTo_of_outcome h with
  | upsert hup => exact .upsert (Blueprint.valid_of_upsert hup)
  | move ho hmoved _ => exact hmoved.regular hb ho
  | split hsplit =>
    obtain ⟨t, ht, hne, -, -, hlabels, hvalid, -⟩ := hb.split_eq_ok_iff.mp hsplit
    have hlength := (Catalog.labelled_of_stepLabels hlabels).length
    refine .split (hb.valid_of_get? ht) (fun hnil => hne ?_) hvalid
    rw [hnil] at hlength
    exact List.eq_nil_of_length_eq_zero hlength.symm

namespace Session

variable {σ σ' : Type} {h : Host (StateM σ)} {h' : Host (StateM σ')} {s s' : Settings}
  {b b' : Blueprint} {w : σ} {w' : σ'} {k : Call} {ks ks' : List Call}

/-- The change that a call is entered as, told from its answer. -/
def Call.entered : Call → Answer → Option Change
  | .ask r, .replied (.ok x) => r.entered x
  | _, _ => none

/-- The changes that calls with these answers are entered as. -/
def entered (ks : List Call) (as : List Answer) : List Change :=
  (ks.zip as).filterMap fun p => p.1.entered p.2

theorem regular_perform (hb : b.Sound) (r : Request) (w : σ) :
    ∀ c ∈ (Call.ask r).entered (.replied (perform h s b r w).1.2), c.Regular := by
  intro c hc
  rcases perform_cases h s b r w with ⟨-, hnothing⟩ | ⟨o, ho, hp⟩
  · cases hx : (perform h s b r w).1.2 with
    | error e =>
      rw [hx] at hc
      cases hc
    | ok x =>
      obtain ⟨rfl, rfl⟩ := hnothing x hx
      rw [hx] at hc
      cases hc
  · rw [hp] at hc
    have hchange : r.entered o.reply = some o.change := (Request.tells_of_outcome hb ho).1
    obtain rfl := Option.some.inj (hchange.symm.trans hc)
    exact Request.regular_of_outcome hb ho

/-- The blueprint stays sound, whatever the host does, and what is entered is regular. -/
theorem regular_step (hb : b.Sound) (k : Call) (w : σ) :
    (step h s b k w).1.1.Sound ∧ ∀ c ∈ k.entered (step h s b k w).1.2, c.Regular := by
  cases k with
  | ask r => exact ⟨sound_perform hb r w, regular_perform hb r w⟩
  | init => exact ⟨hb, by rintro c ⟨⟩⟩
  | reopen =>
    simp only [step, run_bind]
    cases hl : (load h s w).1 with
    | error e => exact ⟨hb, by rintro c ⟨⟩⟩
    | ok b' => exact ⟨(load_eq_ok_iff.mp hl).sound, by rintro c ⟨⟩⟩

/-- **Every change that is entered in a run is regular.** -/
theorem regular_run (hb : b.Sound) (ks : List Call) (w : σ) :
    ∀ c ∈ entered ks (run h s b ks w).1.2, c.Regular := by
  induction ks generalizing b w with
  | nil => rintro c ⟨⟩
  | cons k ks ih =>
    obtain ⟨hb', hfirst⟩ := regular_step (h := h) (s := s) hb k w
    intro c hc
    obtain ⟨p, hp, hc⟩ := List.mem_filterMap.mp hc
    rw [run_cons, List.zip_cons_cons] at hp
    rcases List.mem_cons.mp hp with rfl | hp
    · exact hfirst c hc
    · exact ih hb' _ c (List.mem_filterMap.mpr ⟨p, hp, hc⟩)

/-- **The messages of the commits tell what has been done.** Of two changes that have been entered, in
the same session or in two, the messages are the same only if the operations, the labels and the
statuses before and after are. -/
theorem message_eq_iff (hopen : (load h s w).1 = .ok b) (hopen' : (load h' s' w').1 = .ok b')
    (hc : c ∈ entered ks (run h s b ks w).1.2) (hd : d ∈ entered ks' (run h' s' b' ks' w').1.2) :
    s!"blueprint: {c.summary}" = s!"blueprint: {d.summary}" ↔
      c.operation = d.operation ∧ c.labels = d.labels ∧ c.before = d.before ∧ c.after = d.after := by
  have hmessage : s!"blueprint: {c.summary}" = s!"blueprint: {d.summary}" ↔ c.summary = d.summary := by
    simp [toString]
  have hr := regular_run (load_eq_ok_iff.mp hopen).sound ks w c hc
  have hr' := regular_run (load_eq_ok_iff.mp hopen').sound ks' w' d hd
  rw [hmessage]
  refine ⟨hr.summary_inj hr', ?_⟩
  rintro ⟨ho, hlabels, hbefore, hafter⟩
  unfold Change.summary Change.subject
  rw [ho, hlabels, hbefore, hafter]

/-- Two sessions in which an item is started after other numbers of attempts, and another one, whose
label is a word of summaries, is split into one step and into two. -/
theorem message_eq_iff_shelf :
    let s : Settings := {}
    let item (l : String) (n : UInt32) : Item := { label := l, kind := .lem, attempts := .fresh n }
    let ks (n : UInt32) (steps : List Step) : List Call := [.ask (.upsert (item "a" 9)),
      .ask (.upsert (item "into" 9)), .init, .ask (.advance "a" .underway n),
      .ask (.revert "a"), .ask (.split "into" steps 5)]
    let made (n : UInt32) (steps : List Step) : List Change :=
      entered (ks n steps) (run Shelf.host s ∅ (ks n steps) ⟨[], []⟩).1.2
    let step : Step := { statement := "x" }
    let moved (n : UInt32) : Change :=
      ⟨.advance, ["a"], some .todo, some .underway, some ⟨n, 9⟩⟩
    let split (labels : List String) : Change := ⟨.split, "into" :: labels, none, none, none⟩
    let message (c : Change) : String := s!"blueprint: {c.summary}"
    moved 1 ∈ made 1 [step] ∧ moved 2 ∈ made 2 [step, step] ∧
    message (moved 1) = message (moved 2) ∧
    split ["into_1"] ∈ made 1 [step] ∧ split ["into_1", "into_2"] ∈ made 2 [step, step] ∧
    message (split ["into_1"]) ≠ message (split ["into_1", "into_2"]) := by
  intro s item ks made step moved split message
  have hopen : (load Shelf.host s ⟨[], []⟩).1 = .ok ∅ := by decide +kernel
  have h₁ : moved 1 ∈ made 1 [step] := by decide +kernel
  have h₂ : moved 2 ∈ made 2 [step, step] := by decide +kernel
  have h₃ : split ["into_1"] ∈ made 1 [step] := by decide +kernel
  have h₄ : split ["into_1", "into_2"] ∈ made 2 [step, step] := by decide +kernel
  refine ⟨h₁, h₂, (message_eq_iff hopen hopen h₁ h₂).mpr ⟨rfl, rfl, rfl, rfl⟩, h₃, h₄, fun he => ?_⟩
  have hlabels := ((message_eq_iff hopen hopen h₃ h₄).mp he).2.1
  cases hlabels

end Session

end ProofTracker
