import ProofTracker.Sorted
import ProofTracker.Text.Blank

/-!
# Items

An item is a definition, lemma or theorem to be formalized. It has a label, the labels of the items
it uses, a status, a counter of attempts against a budget, the place of its formal version, and its
informal statement and proof.
-/

namespace ProofTracker

/-- A word that names no kind, or no status. -/
inductive UnknownWord where
  /-- The word names no kind of item. -/
  | kind (word : String)
  /-- The word names no status. -/
  | status (word : String)
deriving DecidableEq, Repr

/-- The wording of the refusal. -/
def UnknownWord.message : UnknownWord → String
  | .kind w => s!"unknown item kind `{w}`"
  | .status w => s!"unknown status `{w}`"

/-- What an item formalizes. -/
inductive Kind where
  /-- A definition, which usually has no proof. -/
  | defn
  | lem
  | thm
deriving DecidableEq, Repr

namespace Kind

/-- Every kind. -/
def all : List Kind := [.defn, .lem, .thm]

/-- The word for the kind. -/
def name : Kind → String
  | .defn => "definition"
  | .lem => "lemma"
  | .thm => "theorem"

/-- The kind with the given name. -/
def ofName? (w : String) : Option Kind :=
  all.find? (·.name = w)

/-- The kind with the given name, or the refusal of the word. -/
def read (w : String) : Except UnknownWord Kind :=
  match ofName? w with
  | some k => .ok k
  | none => .error (.kind w)

theorem ofName?_name (k : Kind) : ofName? k.name = some k := by
  cases k <;> decide

end Kind

/-- How far an item has come. -/
inductive Status where
  | todo
  /-- Started and not finished. -/
  | underway
  | done
  /-- Given up: the attempts are used up, or someone said so. -/
  | hard
deriving DecidableEq, Repr

namespace Status

/-- Every status. -/
def all : List Status := [.todo, .underway, .done, .hard]

/-- The word for the status. -/
def name : Status → String
  | .todo => "todo"
  | .underway => "partial"
  | .done => "done"
  | .hard => "hard"

/-- The status with the given name. -/
def ofName? (w : String) : Option Status :=
  all.find? (·.name = w)

/-- The status with the given name, or the refusal of the word. -/
def read (w : String) : Except UnknownWord Status :=
  match ofName? w with
  | some s => .ok s
  | none => .error (.status w)

theorem ofName?_name (s : Status) : ofName? s.name = some s := by
  cases s <;> decide

end Status

/-- A counter of attempts and the budget it counts against. -/
structure Attempts where
  /-- The attempts made so far. -/
  current : UInt32
  /-- The attempts allowed. -/
  budget : UInt32
deriving DecidableEq, Repr

namespace Attempts

/-- No attempt made yet. -/
def fresh (budget : UInt32) : Attempts where
  current := 0
  budget := budget

/-- Whether no attempt is left. -/
def exhausted (a : Attempts) : Bool :=
  a.budget ≤ a.current

/-- Counts further attempts, at most up to the budget. The sum is taken exactly, so it cannot wrap
around before it is cut down. -/
def record (a : Attempts) (delta : UInt32) : Attempts where
  current := .ofNatLT (min (a.current.toNat + delta.toNat) a.budget.toNat)
    (Nat.lt_of_le_of_lt (Nat.min_le_right _ _) a.budget.toNat_lt)
  budget := a.budget

/-- The counter and the budget around a slash. -/
def render (a : Attempts) : String :=
  s!"{a.current.toNat} / {a.budget.toNat}"

@[simp] theorem budget_record (a : Attempts) (delta : UInt32) :
    (a.record delta).budget = a.budget := rfl

theorem toNat_current_record (a : Attempts) (delta : UInt32) :
    (a.record delta).current.toNat = min (a.current.toNat + delta.toNat) a.budget.toNat := by
  simp [record]

end Attempts

/-- A definition, lemma or theorem of a blueprint. -/
structure Item where
  /-- The name by which other items refer to this one. -/
  label : String
  /-- What the item formalizes. -/
  kind : Kind
  /-- The labels of the items that this one depends on. -/
  uses : LabelSet := ∅
  /-- How far the item has come. -/
  status : Status := .todo
  /-- The attempts made and allowed. -/
  attempts : Attempts
  /-- Where the formal version lives, once there is one. -/
  location : Option String := none
  statement : String := ""
  proof : String := ""
  /-- Among items that may be started, the lower value goes first. -/
  priority : UInt32 := 0
deriving DecidableEq

namespace Item

/-- An item not yet started. Blanks around the statement and the proof are dropped. -/
def fresh (label : String) (kind : Kind) (budget : UInt32) (uses : LabelSet)
    (statement proof : String) (priority : UInt32) (location : Option String) : Item where
  label
  kind
  uses
  attempts := .fresh budget
  location
  statement := Text.trimmed statement
  proof := Text.trimmed proof
  priority

end Item

/-- One step of a chain that an item is split into. -/
structure Step where
  /-- The label of the new item, if it is given one. -/
  label : Option String := none
  /-- The kind of the new item, if it is given one. -/
  kind : Option Kind := none
  /-- The informal statement of the step. -/
  statement : String
  /-- The informal proof of the step. -/
  proof : String := ""
deriving DecidableEq, Repr

end ProofTracker
