import ProofTracker.Json.Records
import ProofTracker.Proofs.Json.Value

/-! # Written records are taken apart again

What is read where a text or a count was written gives the text or the count (`text?_rereadText`,
`count?_ofCount`), and what is read where a record was written gives its members, if no name occurs
twice and all of them are known (`record?_rereadRecord`). -/

namespace ProofTracker

namespace Json

variable {α : Type} {v : Value} {a : α} {ofJson? : Value → Option α}

/-- What is written item by item is read item by item. -/
theorem mapM_map_eq_some {β : Type} {f : β → Option α} {g : α → β} (h : ∀ a, f (g a) = some a)
    (l : List α) : (l.map g).mapM f = some l := by
  induction l with
  | nil => rfl
  | cons a l ih =>
    rw [List.map_cons, List.mapM_cons, h, ih]
    rfl

/-! ### Texts and counts -/

/-- The value that is read where the text was written. -/
def Value.rereadText (x : String) : Value :=
  .string (x.toList.map reread)

theorem denotes_ofText (x : String) : Denotes (compact (.ofText x)) (.rereadText x) := by
  rw [Value.ofText, compact]
  exact denotes_quoted x.toList

@[simp] theorem text?_rereadText (x : String) : (Value.rereadText x).text? = some x := by
  simp [Value.rereadText, Value.text?, characters?_map_reread]

@[simp] theorem choice?_rereadText (x : String) : (Value.rereadText x).choice? = some x :=
  text?_rereadText x

theorem denotes_texts (ls : List String) :
    Denotes (compact (.array (ls.map .ofText))) (.array (ls.map .rereadText)) := by
  refine denotes_array ?_
  rw [List.forall₂_map_left_iff, List.forall₂_map_right_iff, List.forall₂_same]
  exact fun l _ => denotes_ofText l

@[simp] theorem list?_rereadText (ls : List String) :
    (Value.array (ls.map .rereadText)).list? Value.text? = some ls :=
  mapM_map_eq_some text?_rereadText ls

theorem denotes_ofCount (n : UInt32) : Denotes (compact (.ofCount n)) (.ofCount n) := by
  rw [Value.ofCount, compact]
  exact denotes_toDigits n.toNat

@[simp] theorem count?_ofCount (n : UInt32) : (Value.ofCount n).count? = some n := by
  unfold Value.ofCount Value.count?
  simp only [Text.digits?_ofCount, Option.bind_eq_bind, Option.bind_some, Text.toCount?_toNat]

/-! ### Records -/

/-- **What is read where a record was written has its members.** -/
theorem record?_rereadRecord {names : List String} {ms : List (String × Value)}
    (hnames : ∀ m ∈ ms, m.1 ∈ names) (hd : (ms.map Prod.fst).Nodup) :
    (Value.rereadRecord ms).record? names = some ms := by
  have hknown : ms.filter (·.1 ∈ names) = ms :=
    List.filter_eq_self.mpr fun m hm => decide_eq_true (hnames m hm)
  rw [Value.rereadRecord, Value.record?,
    mapM_map_eq_some fun m => by simp [characters?_map_reread]]
  show (if ((ms.filter (·.1 ∈ names)).map (·.1)).Nodup then
    some (ms.filter (·.1 ∈ names)) else none) = some ms
  rw [hknown, if_pos hd]

theorem read_eq_ok_iff {text : String} : Json.read ofJson? text = .ok a ↔
    ∃ v, Json.parse? text.toList = some v ∧ ofJson? v = some a := by
  rw [← Option.bind_eq_some_iff, ← Option.bind_eq_bind]
  unfold Json.read
  cases Json.parse? text.toList >>= ofJson? <;> simp

/-- A text that denotes a value is read as what the value is taken for. -/
theorem Denotes.read {s : List Char} (h : Denotes s v) (hv : ofJson? v = some a) :
    Json.read ofJson? (.ofList s) = .ok a :=
  read_eq_ok_iff.mpr ⟨v, by rw [String.toList_ofList, h.parse?], hv⟩

end Json

open Json

/-! ### Attempts -/

/-- The value that is read where the attempts were written. -/
def Attempts.reread (a : Attempts) : Value :=
  .rereadRecord [("current", .ofCount a.current), ("budget", .ofCount a.budget)]

theorem Attempts.denotes_toJson (a : Attempts) : Denotes (compact a.toJson) a.reread :=
  denotes_record (.cons ⟨rfl, denotes_ofCount _⟩ (.cons ⟨rfl, denotes_ofCount _⟩ .nil))

theorem Attempts.ofJson?_reread (a : Attempts) : Attempts.ofJson? a.reread = some a := by
  unfold Attempts.ofJson? Attempts.reread
  rw [record?_rereadRecord (by simp) (by simp)]
  simp [required?, List.lookup_cons]

end ProofTracker
