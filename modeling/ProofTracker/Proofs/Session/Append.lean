import ProofTracker.Proofs.Journal.Entry
import ProofTracker.Proofs.Json.Front
import ProofTracker.Proofs.Session.Shelf
import ProofTracker.Proofs.Session.Synced

/-! # Adding to a journal that is there

The line of a new entry is added to the end of a journal, whoever has written it, and so it goes
behind what stands in the last line (`lines_append_line`). If these are gaps only, the entry is read
from this line. Otherwise nothing is: an entry that no line feed follows is a complete value, and the
new one begins behind it; and other blanks are no gaps (`read_append_toJson`). So a journal that can
be read is read with the new entry iff its last line holds nothing but gaps (`parse_append_line`).
The next entry finds an empty last line, so one after the other can be added (`parse_append_lines`). -/

namespace ProofTracker

open Json Text

variable {e : Entry} {es : List Entry} {text : String} {s : List Char}

/-! ### The new line -/

theorem Entry.exists_compact_toJson (e : Entry) : ∃ t, compact e.toJson = '\x7b' :: t := ⟨_, rfl⟩

theorem isBlank_of_mem_gaps {c : Char} (h : c ∈ gaps) : isBlank c = true := by
  have hall : gaps.all isBlank = true := by decide
  exact List.all_eq_true.mp hall c h

/-- What is read where an entry stands behind other text, which is blank or an entry itself. -/
theorem read_append_toJson (ht : e.time.Valid)
    (hs : (∀ c ∈ s, isBlank c = true) ∨ ∃ e', Json.read Entry.ofJson? (.ofList s) = .ok e') :
    Json.read Entry.ofJson? (.ofList (s ++ compact e.toJson)) =
      if s.all (· ∈ gaps) then .ok e else .error .json := by
  simp only [all_gaps_iff]
  split_ifs with hgaps
  · obtain ⟨v, hv, hread⟩ := read_eq_ok_iff.mp (e.denotes_toJson.read (Entry.ofJson?_reread ht))
    refine read_eq_ok_iff.mpr ⟨v, ?_, hread⟩
    rw [String.toList_ofList] at hv ⊢
    rwa [parse?_gaps hgaps]
  · have hnone : parse? (s ++ compact e.toJson) = none := by
      rcases hs with hblank | ⟨e', he'⟩
      · exact parse?_blank hblank hgaps _
      · obtain ⟨v, hv, -⟩ := read_eq_ok_iff.mp he'
        obtain ⟨t, htext⟩ := e.exists_compact_toJson
        rw [String.toList_ofList] at hv
        rw [htext]
        exact parse?_append_brace hv t
    unfold Json.read
    rw [String.toList_ofList, hnone]
    rfl

/-! ### The lines of a journal -/

namespace Journal

/-- The entries on the lines. Blank ones are passed over. -/
def readLines (ls : List (List Char)) : Except Error (List Entry) :=
  (ls.filter fun l => !l.all isBlank).mapM fun l => Json.read Entry.ofJson? (.ofList l)

theorem readLines_concat (ls : List (List Char)) (l : List Char) : readLines (ls ++ [l]) =
    if l.all isBlank then readLines ls
    else readLines ls >>= fun es =>
      Json.read Entry.ofJson? (.ofList l) >>= fun e => pure (es ++ [e]) := by
  unfold readLines
  rw [List.filter_append]
  by_cases h : l.all isBlank = true <;> simp [h, List.mapM_append]

theorem parse_eq_readLines (text : String) :
    parse text = readLines ((lines text.toList).dropLast ++ [lastLine text.toList]) := by
  rw [dropLast_lines_concat]
  rfl

/-- The line goes behind what stands in the last one, and behind it there is nothing. -/
theorem lines_append_line (text : String) (e : Entry) : lines (text ++ line e).toList =
    (lines text.toList).dropLast ++ [lastLine text.toList ++ compact e.toJson] ++ [[]] := by
  have hline : (text ++ line e).toList = text.toList ++ compact e.toJson ++ '\n' :: [] := by
    simp [line]
  rw [hline, lines_append, lines_append_of_notMem e.denotes_toJson.oneLine, lines_nil]

theorem lastLine_append_line (text : String) (e : Entry) :
    lastLine (text ++ line e).toList = [] := by
  unfold lastLine
  simp only [lines_append_line, List.getLast_concat]

theorem parse_append_line_eq (text : String) (e : Entry) : parse (text ++ line e) =
    readLines ((lines text.toList).dropLast ++ [lastLine text.toList ++ compact e.toJson]) := by
  show readLines (lines (text ++ line e).toList) = _
  rw [lines_append_line, readLines_concat]
  rfl

/-- **Adding an entry to a journal that can be read** gives a journal that is read with this entry at
the end if the last line holds nothing but gaps, and otherwise one that cannot be read. -/
theorem parse_append_line (h : parse text = .ok es) (ht : e.time.Valid) :
    parse (text ++ line e) =
      if (lastLine text.toList).all (· ∈ gaps) then .ok (es ++ [e]) else .error .json := by
  rw [parse_eq_readLines, readLines_concat] at h
  rw [parse_append_line_eq, readLines_concat]
  generalize lastLine text.toList = s at h
  have hobject : (s ++ compact e.toJson).all isBlank = false := by
    obtain ⟨t, htext⟩ := e.exists_compact_toJson
    rw [htext, List.all_append, List.all_cons]
    simp [show isBlank '\x7b' = false by decide]
  rw [hobject, if_neg Bool.false_ne_true]
  by_cases hblank : s.all isBlank = true
  · rw [if_pos hblank] at h
    rw [h, read_append_toJson ht (Or.inl (List.all_eq_true.mp hblank))]
    split_ifs <;> rfl
  · -- The last line is an entry, so it does not consist of gaps.
    rw [if_neg hblank] at h
    obtain ⟨es', hes', h⟩ := bind_eq_ok_iff.mp h
    obtain ⟨e', he', -⟩ := bind_eq_ok_iff.mp h
    have hgaps : ¬ s.all (· ∈ gaps) = true := fun hall =>
      hblank (List.all_eq_true.mpr fun c hc => isBlank_of_mem_gaps (all_gaps_iff.mp hall c hc))
    rw [hes', read_append_toJson ht (Or.inr ⟨e', he'⟩), if_neg hgaps, if_neg hgaps]
    rfl

/-- **Entries are added one after the other.** -/
theorem parse_append_lines {new : List Entry} (h : parse text = .ok es)
    (hgaps : (lastLine text.toList).all (· ∈ gaps) = true) (ht : ∀ e ∈ new, e.time.Valid) :
    parse (new.foldl (fun text e => text ++ line e) text) = .ok (es ++ new) := by
  induction new generalizing text es with
  | nil => rw [List.append_nil]; exact h
  | cons e new ih =>
    obtain ⟨he, hnew⟩ := List.forall_mem_cons.mp ht
    have hnext := parse_append_line h he
    rw [if_pos hgaps] at hnext
    have hlast : (lastLine (text ++ line e).toList).all (· ∈ gaps) = true := by
      rw [lastLine_append_line]
      rfl
    rw [List.foldl_cons, ih hnext hlast hnew, List.append_assoc, List.singleton_append]

end Journal

/-! ### Journals of a host -/

namespace Session

variable {σ : Type} {h : Host (StateM σ)} {journal : String} {w : σ}

/-- **Adding an entry to the journal of a host**, which may be missing. If the journal can be read,
then it can be read again with the new entry at the end iff its last line holds nothing but gaps. -/
theorem history_append (ht : e.time.Valid) (hread : (history h journal w).1 = .ok es)
    (happended : ∀ old, (h.found journal w).read = .ok old →
      h.found journal (h.append journal (Journal.line e) w).2 =
        .text (old.getD "" ++ Journal.line e)) :
    ∃ old, (h.found journal w).read = .ok old ∧
      (history h journal (h.append journal (Journal.line e) w).2).1 =
        if (lastLine (old.getD "").toList).all (· ∈ gaps) then .ok (es ++ [e])
        else .error .json := by
  rw [fst_history] at hread
  obtain ⟨old, hold, hes⟩ := bind_eq_ok_iff.mp hread
  refine ⟨old, hold, ?_⟩
  rw [fst_history_of_text (happended old hold)]
  exact Journal.parse_append_line hes ht

/-- A journal that ends in a line with a blank and a carriage return. -/
theorem history_append_gaps :
    let e : Entry := ⟨⟨.upsert, ["a"], none, none, none⟩, .ofUnix 0 0⟩
    let w : Shelf := ⟨[("journal", Journal.line e ++ " \r")], []⟩
    let w' := (Shelf.host.append "journal" (Journal.line e) w).2
    (history Shelf.host "journal" w).1 = .ok [e] ∧
      (history Shelf.host "journal" w').1 = .ok [e, e] := by
  intro e w w'
  have ht : e.time.Valid := ⟨by decide, by decide, by decide, by decide⟩
  have hread : (history Shelf.host "journal" w).1 = .ok [e] := by decide +kernel
  have happended : ∀ old, (Shelf.host.found "journal" w).read = .ok old →
      Shelf.host.found "journal" w' = .text (old.getD "" ++ Journal.line e) := by
    rintro _ ⟨⟩
    rfl
  obtain ⟨_, ⟨⟩, hnext⟩ := history_append ht hread happended
  exact ⟨hread, hnext.trans (if_pos (by decide +kernel))⟩

/-- An entry that is not followed by a line feed, and one that is added behind it. -/
theorem history_append_unclosed :
    let e : Entry := ⟨⟨.upsert, ["a"], none, none, none⟩, .ofUnix 0 0⟩
    let w : Shelf := ⟨[("journal", .ofList (compact e.toJson))], []⟩
    let w' := (Shelf.host.append "journal" (Journal.line e) w).2
    (history Shelf.host "journal" w).1 = .ok [e] ∧
      (history Shelf.host "journal" w').1 = .error .json := by
  intro e w w'
  have ht : e.time.Valid := ⟨by decide, by decide, by decide, by decide⟩
  have hread : Journal.parse (.ofList (compact e.toJson)) = .ok [e] := by decide +kernel
  have hnext := (Journal.parse_append_line hread ht).trans (if_neg (by decide +kernel))
  exact ⟨(fst_history_of_text rfl).trans hread, (fst_history_of_text rfl).trans hnext⟩

end Session

end ProofTracker
