import ProofTracker.Proofs.Blueprint.Progress
import ProofTracker.Session.Basic

/-! # Changes tell the statuses

The changes of a journal, taken one after the other, give every label a status (`replay`). What a
request leads to is what its change tells (`Request.tells_of_outcome`): the statuses afterwards are
those that the change makes of the ones before, and a change that moves an item tells its status
before and its status and attempts afterwards (`Moved`). -/

namespace ProofTracker

/-- Whether the operation moves an item from one status to another. -/
def Operation.moves : Operation → Bool
  | .advance | .claim | .revert => true
  | .upsert | .split => false

/-- The status of a label after the change, from the statuses before. -/
def Change.replay (statuses : String → Option Status) (c : Change) (l : String) : Option Status :=
  match c.operation with
  | .upsert => if l = c.subject then some ((statuses l).getD .todo) else statuses l
  | .advance | .claim | .revert => if l = c.subject then c.after else statuses l
  | .split => if l ∈ c.labels then some .todo else statuses l

/-- The statuses that the changes lead to, where there was nothing before. -/
def replay (cs : List Change) : String → Option Status :=
  cs.foldl Change.replay fun _ => none

theorem replay_concat (cs : List Change) (c : Change) :
    replay (cs ++ [c]) = c.replay (replay cs) := by
  unfold replay
  rw [List.foldl_append]
  rfl

namespace Blueprint

/-- The statuses of the items by their labels. -/
def statuses (b : Blueprint) (l : String) : Option Status :=
  (b.items.get? l).map Item.status

variable {b b' : Blueprint} {i j : Item} {l : String} {t : Transition}

/-! ### Moves -/

/-- The transition tells of its item, and the other items are as they were. -/
structure Moved (b b' : Blueprint) (t : Transition) : Prop where
  before : b.statuses t.label = some t.before
  item : ∃ j, b'.items.get? t.label = some j ∧ j.status = t.applied ∧ j.attempts = t.attempts
  others : ∀ l, l ≠ t.label → b'.items.get? l = b.items.get? l

theorem moved_of_insert (hi : b.items.get? l = some i) (hl : j.label = i.label)
    (ht : t.label = l ∧ t.before = i.status ∧ t.applied = j.status ∧ t.attempts = j.attempts) :
    Moved b { b with items := b.items.insert j } t := by
  obtain ⟨rfl, hbefore, happlied, hattempts⟩ := ht
  have hkey : j.label = t.label := hl.trans (SortedBy.key_eq_of_get?_eq_some hi)
  refine ⟨?_, ⟨j, ?_, happlied.symm, hattempts.symm⟩, fun l hne => ?_⟩
  · rw [statuses, hi, hbefore]
    rfl
  · rw [← hkey]
    exact SortedBy.get?_insert_self b.items j
  · exact SortedBy.get?_insert_of_ne (a := j) (fun h => hne (h.symm.trans hkey)) b.items

theorem moved_of_advance {requested : Status} {delta : UInt32}
    (h : b.advance l requested delta = .ok (b', t)) : Moved b b' t := by
  obtain ⟨c, hadv, rfl⟩ := exists_items_of_advance h
  obtain ⟨i, hi, -, -, rfl, rfl⟩ := Catalog.advance_eq_ok_iff.mp hadv
  exact moved_of_insert hi rfl ⟨rfl, rfl, rfl, rfl⟩

theorem moved_of_revert (h : b.revert l = .ok (b', t)) : Moved b b' t := by
  obtain ⟨c, hrev, rfl⟩ := exists_items_of_revert h
  obtain ⟨i, hi, hd, -, rfl, rfl⟩ := Catalog.revert_eq_ok_iff.mp hrev
  exact moved_of_insert hi rfl ⟨rfl, hd.symm, rfl, rfl⟩

theorem Moved.statuses (h : Moved b b' t) {o : Operation} (ho : o.moves = true) :
    b'.statuses = (Change.ofTransition o t).replay b.statuses := by
  obtain ⟨j, hj, hs, -⟩ := h.item
  funext l
  have hreplay : (Change.ofTransition o t).replay b.statuses l =
      if l = t.label then some t.applied else b.statuses l := by
    cases o <;> first | rfl | cases ho
  rw [hreplay]
  split_ifs with hl
  · rw [hl, Blueprint.statuses, hj, Option.map_some, hs]
  · rw [Blueprint.statuses, h.others l hl]
    rfl

/-! ### Items that are added and split -/

/-- An item that is put in keeps its status, or is new and to be done. -/
theorem statuses_of_upsert (h : b.upsert i = .ok b') (l : String) :
    b'.statuses l = if l = i.label then some ((b.statuses l).getD .todo) else b.statuses l := by
  obtain ⟨is, his, hput⟩ := bind_eq_ok_iff.mp h
  obtain ⟨j, _, hj, hnil, rfl⟩ := List.forall₂_cons_left_iff.mp (mapM_eq_ok_iff.mp his)
  obtain rfl := List.forall₂_nil_left_iff.mp hnil
  obtain ⟨-, -, rfl⟩ := put_eq_ok_iff.mp hput
  have hget : (b.merge [j]).get? l = if j.label = l then some j.normalize else b.items.get? l :=
    SortedBy.get?_insert b.items j.normalize l
  rw [statuses, hget]
  rcases keepProgress_eq_ok_iff.mp hj with ⟨stored, hstored, rfl⟩ | ⟨hnone, htodo, rfl⟩
  · by_cases hl : i.label = l
    · subst hl
      simp [statuses, hstored, Item.normalize]
    · simp [statuses, hl, Ne.symm hl]
  · by_cases hl : j.label = l
    · subst hl
      simp [statuses, hnone, Item.normalize, htodo]
    · simp [statuses, hl, Ne.symm hl]

/-- The target of a split and the items that it makes are to be done. -/
theorem Sound.statuses_of_split (hb : b.Sound) {target : String} {steps : List Step} {n : UInt32}
    {labels : List String} (h : b.split target steps n = .ok (b', labels)) (l : String) :
    b'.statuses l = if l ∈ target :: labels then some .todo else b.statuses l := by
  obtain ⟨t, ht, -, -, -, hlabels, -, rfl⟩ := hb.split_eq_ok_iff.mp h
  have hmap := map_label_chain_zip (n := n) ht (Catalog.labelled_of_stepLabels hlabels)
  have hmem : l ∈ target :: labels ↔
      l ∈ (Catalog.chain t n t.uses (labels.zip steps)).map Item.label := by
    rw [hmap, List.mem_cons, List.mem_append, List.mem_singleton, or_comm]
  rcases get?_merge_cases b (Catalog.chain t n t.uses (labels.zip steps)) l with
    ⟨i, hi, rfl, hget⟩ | ⟨hnot, hget⟩
  · rw [if_pos (hmem.mpr (List.mem_map_of_mem hi)), statuses, hget]
    rcases Catalog.mem_chain hi with ⟨u, rfl⟩ | ⟨p, -, u, rfl⟩ <;> rfl
  · rw [if_neg (fun h => hnot (hmem.mp h)), statuses, hget]
    rfl

end Blueprint

/-! ### Requests -/

/-- The change that a request is entered as, told from its answer. -/
def Request.entered : Request → Reply → Option Change
  | .upsert i, _ => some ⟨.upsert, [i.label], none, none, none⟩
  | .advance .., .moved t => some (.ofTransition .advance t)
  | .claim, .moved t => some (.ofTransition .claim t)
  | .revert _, .moved t => some (.ofTransition .revert t)
  | .split target .., .created labels => some ⟨.split, target :: labels, none, none, none⟩
  | _, _ => none

/-- What a change tells about the blueprints before and after. -/
structure Change.Tells (c : Change) (b b' : Blueprint) : Prop where
  statuses : b'.statuses = c.replay b.statuses
  move : c.operation.moves = true → ∃ t, Blueprint.Moved b b' t ∧ c = .ofTransition c.operation t

theorem Blueprint.Moved.tells {b b' : Blueprint} {t : Transition} (h : Blueprint.Moved b b' t)
    {o : Operation} (ho : o.moves = true) : (Change.ofTransition o t).Tells b b' :=
  ⟨h.statuses ho, fun _ => ⟨t, h, rfl⟩⟩

/-- What a request leads to: an item is put in, moved or split. -/
inductive Request.LeadsTo (b : Blueprint) : Request → Outcome → Prop
  | upsert {i : Item} {b' : Blueprint} (h : b.upsert i = .ok b') :
      LeadsTo b (.upsert i) ⟨b', ⟨.upsert, [i.label], none, none, none⟩, .nothing⟩
  | move {r : Request} {o : Operation} {b' : Blueprint} {t : Transition} (ho : o.moves = true)
      (h : Blueprint.Moved b b' t) (hr : r.entered (.moved t) = some (.ofTransition o t)) :
      LeadsTo b r (.ofMove o (b', t))
  | split {target : String} {steps : List Step} {n : UInt32} {b' : Blueprint} {labels : List String}
      (h : b.split target steps n = .ok (b', labels)) :
      LeadsTo b (.split target steps n)
        ⟨b', ⟨.split, target :: labels, none, none, none⟩, .created labels⟩

theorem Request.leadsTo_of_outcome {r : Request} {b : Blueprint} {o : Outcome}
    (h : r.outcome? b = .ok (some o)) : r.LeadsTo b o := by
  cases r with
  | upsert i =>
    obtain ⟨b', hup, heq⟩ := bind_eq_ok_iff.mp h
    cases heq
    exact .upsert hup
  | advance l requested n =>
    obtain ⟨⟨b', t⟩, hadv, heq⟩ := bind_eq_ok_iff.mp h
    cases heq
    exact .move rfl (Blueprint.moved_of_advance hadv) rfl
  | claim =>
    unfold Request.outcome? at h
    cases he : b.items.eligible with
    | nil =>
      rw [he] at h
      cases h
    | cons i offers =>
      rw [he] at h
      obtain ⟨⟨b', t⟩, hadv, heq⟩ := bind_eq_ok_iff.mp h
      cases heq
      exact .move rfl (Blueprint.moved_of_advance hadv) rfl
  | revert l =>
    obtain ⟨⟨b', t⟩, hrev, heq⟩ := bind_eq_ok_iff.mp h
    cases heq
    exact .move rfl (Blueprint.moved_of_revert hrev) rfl
  | split l steps n =>
    obtain ⟨⟨b', labels⟩, hsplit, heq⟩ := bind_eq_ok_iff.mp h
    cases heq
    exact .split hsplit

/-- **What a request leads to is what its change tells**, and this is how the request is entered. -/
theorem Request.tells_of_outcome {r : Request} {b : Blueprint} {o : Outcome} (hb : b.Sound)
    (h : r.outcome? b = .ok (some o)) :
    r.entered o.reply = some o.change ∧ o.change.Tells b o.blueprint := by
  cases Request.leadsTo_of_outcome h with
  | upsert hup => exact ⟨rfl, funext (Blueprint.statuses_of_upsert hup), by rintro ⟨⟩⟩
  | move ho hmoved hr => exact ⟨hr, hmoved.tells ho⟩
  | split hsplit => exact ⟨rfl, funext (hb.statuses_of_split hsplit), by rintro ⟨⟩⟩

end ProofTracker
