import ProofTracker.Journal.Entry
import ProofTracker.Proofs.Checked
import ProofTracker.Proofs.Journal.Timestamp
import ProofTracker.Proofs.Json.Records
import ProofTracker.Proofs.Text.Lines

/-! # A journal is read back

The line of an entry is one line, and an entry with a time that the calendar and the clock have is
read from it (`Entry.ofJson?_reread`). So a journal made of such lines is read as these entries, in
their order (`Journal.parse_ofEntries`). -/

namespace ProofTracker

open Json

/-! ### Entries -/

namespace Entry

variable {e : Entry}

/-- The values that are read where the entry was written, by their names. -/
def members (e : Entry) : List (String × Value) :=
  [("operation", Value.rereadText e.operation.name),
    ("labels", .array (e.labels.map .rereadText))] ++
  (e.before.map fun s => ("from", Value.rereadText s.name)).toList ++
  (e.after.map fun s => ("to", Value.rereadText s.name)).toList ++
  (e.attempts.map fun a => ("attempts", a.reread)).toList ++
  [("at", .rereadText e.time.render)]

/-- A member that may be left out. -/
theorem forall₂_toList {α : Type} {name : String} {f g : α → Value}
    (h : ∀ a, Denotes (compact (f a)) (g a)) (x : Option α) :
    List.Forall₂ (fun m n : String × Value => m.1 = n.1 ∧ Denotes (compact m.2) n.2)
      (x.map fun a => (name, f a)).toList (x.map fun a => (name, g a)).toList := by
  cases x with
  | none => exact .nil
  | some a => exact .cons ⟨rfl, h a⟩ .nil

theorem denotes_toJson (e : Entry) : Denotes (compact e.toJson) (.rereadRecord e.members) := by
  refine denotes_record ?_
  unfold members
  refine List.rel_append (List.rel_append (List.rel_append (List.rel_append ?_ ?_) ?_) ?_) ?_
  · exact .cons ⟨rfl, denotes_ofText _⟩ (.cons ⟨rfl, denotes_texts _⟩ .nil)
  · exact forall₂_toList (fun s => denotes_ofText _) _
  · exact forall₂_toList (fun s => denotes_ofText _) _
  · exact forall₂_toList Attempts.denotes_toJson _
  · exact .cons ⟨rfl, denotes_ofText _⟩ .nil

theorem map_fst_members_sublist (e : Entry) : List.Sublist (e.members.map Prod.fst)
    ["operation", "labels", "from", "to", "attempts", "at"] := by
  obtain ⟨⟨o, labels, before, after, attempts⟩, time⟩ := e
  cases before <;> cases after <;> cases attempts <;> simp [members]

/-- **An entry is read back.** -/
theorem ofJson?_reread (h : e.time.Valid) : ofJson? (.rereadRecord e.members) = some e := by
  have hkeys := e.map_fst_members_sublist
  have hrecord : (Value.rereadRecord e.members).record?
      ["operation", "labels", "from", "to", "attempts", "at"] = some e.members :=
    record?_rereadRecord (fun m hm => hkeys.subset (List.mem_map_of_mem hm))
      (hkeys.nodup (by decide))
  have hstatus (s : Status) :
      Value.optional? Status.ofJson? (.rereadText s.name) = some (some s) := by
    show some <$> Status.ofJson? (.rereadText s.name) = _
    simp [Status.ofJson?, Status.ofName?_name]
  have hattempts (a : Attempts) :
      Value.optional? Attempts.ofJson? a.reread = some (some a) := by
    show some <$> Attempts.ofJson? a.reread = _
    rw [a.ofJson?_reread]
    rfl
  obtain ⟨⟨o, labels, before, after, attempts⟩, time⟩ := e
  unfold ofJson?
  rw [hrecord]
  cases before <;> cases after <;> cases attempts <;>
    simp [members, required?, orElse?, List.lookup_cons, hstatus, hattempts, Operation.ofName?_name,
      Timestamp.parse?_render h]

end Entry

/-! ### Journals -/

namespace Journal

/-- The text of a journal with these entries. -/
def ofEntries (es : List Entry) : String :=
  .ofList (Text.closeLines (es.map fun e => compact e.toJson))

/-- Adding the line of an entry to the text adds the entry. -/
theorem ofEntries_append_line (es : List Entry) (e : Entry) :
    ofEntries es ++ line e = ofEntries (es ++ [e]) := by
  rw [← String.toList_inj, String.toList_append]
  simp [ofEntries, line, Text.closeLines]

/-- **A journal is read back.** -/
theorem parse_ofEntries {es : List Entry} (h : ∀ e ∈ es, e.time.Valid) :
    parse (ofEntries es) = .ok es := by
  have hlines : Text.lines (ofEntries es).toList =
      es.map (fun e : Entry => compact e.toJson) ++ [[]] := by
    unfold ofEntries
    rw [String.toList_ofList]
    refine Text.lines_closeLines fun l hl => ?_
    obtain ⟨e, -, rfl⟩ := List.mem_map.mp hl
    exact e.denotes_toJson.oneLine
  have hfilter : (es.map (fun e : Entry => compact e.toJson) ++ [[]]).filter
      (fun l => !l.all Text.isBlank) = es.map fun e => compact e.toJson := by
    rw [List.filter_append, List.filter_eq_self.mpr fun l hl => ?_]
    · simp
    · obtain ⟨e, -, rfl⟩ := List.mem_map.mp hl
      rfl
  unfold parse
  rw [hlines, hfilter, mapM_eq_ok_iff, List.forall₂_map_left_iff, List.forall₂_same]
  exact fun e he => e.denotes_toJson.read (Entry.ofJson?_reread (h e he))

end Journal

end ProofTracker
