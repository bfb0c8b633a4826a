import ProofTracker.Blueprint.Change
import ProofTracker.Session.Host
import ProofTracker.Settings.Basic

/-!
# Sessions

A session keeps a blueprint in memory and its document on a host. A request is carried out on a copy
first. If it succeeds, the new document is saved, and only once that has worked does the copy take
the place of the blueprint; then the change is entered into the journal and committed, as the
settings want it. So a request that fails, for whatever reason, changes nothing.
-/

namespace ProofTracker

/-- A request to change the blueprint. -/
inductive Request where
  /-- Add or replace an item. -/
  | upsert (i : Item)
  /-- Move an item to another status after further attempts. -/
  | advance (label : String) (requested : Status) (delta : UInt32)
  /-- Start the best item that may be started. -/
  | claim
  | revert (label : String)
  /-- Replace an item by a chain of steps. -/
  | split (target : String) (steps : List Step) (budget : UInt32)
deriving DecidableEq

/-- The answer to a request that succeeds. -/
inductive Reply where
  /-- There is nothing to tell, or nothing was left to do. -/
  | nothing
  | moved (t : Transition)
  | created (labels : List String)
deriving DecidableEq, Repr

/-- What a request leads to. -/
structure Outcome where
  blueprint : Blueprint
  /-- The change, as the journal tells it. -/
  change : Change
  reply : Reply

/-- The outcome of moving an item. -/
def Outcome.ofMove (o : Operation) (moved : Blueprint × Transition) : Outcome :=
  ⟨moved.1, .ofTransition o moved.2, .moved moved.2⟩

/-- What the request leads to from the given blueprint. There is no outcome if an item is to be
started and none may be. -/
def Request.outcome? (b : Blueprint) : Request → Except Error (Option Outcome)
  | .upsert i => do
    return some ⟨← b.upsert i, ⟨.upsert, [i.label], none, none, none⟩, .nothing⟩
  | .advance l s n => do return some (.ofMove .advance (← b.advance l s n))
  | .claim =>
    match b.items.eligible with
    | [] => return none
    | i :: _ => do return some (.ofMove .claim (← b.advance i.label .underway 0))
  | .revert l => do return some (.ofMove .revert (← b.revert l))
  | .split l steps n => do
    let (b, labels) ← b.split l steps n
    return some ⟨b, ⟨.split, l :: labels, none, none, none⟩, .created labels⟩

namespace Session

variable {m : Type → Type} [Monad m]

/-- The blueprint of the document, or an empty one if there is no document yet. -/
def load (h : Host m) (s : Settings) : m (Except Error Blueprint) := do
  match (← h.look s.path).read with
  | .ok (some doc) => return Blueprint.parse doc
  | .ok none => return .ok ∅
  | .error e => return .error e

/-- Enters the change into the journal and commits it. That either of them does not work is no
reason to take the change back. -/
def publish (h : Host m) (s : Settings) (c : Change) : m Unit := do
  if let some journal := s.journal then
    let _ ← h.append journal (Journal.line ⟨c, ← h.now⟩)
  if s.commits then
    let journal ← s.journal.toList.filterM fun p => return (← h.look p) ≠ .nothing
    let _ ← h.commit (s.path :: journal) s!"blueprint: {c.summary}"

/-- Carries out a request. The result is the blueprint afterwards and the answer. -/
def perform (h : Host m) (s : Settings) (b : Blueprint) (r : Request) :
    m (Blueprint × Except Error Reply) := do
  match r.outcome? b with
  | .error e => return (b, .error e)
  | .ok none => return (b, .ok .nothing)
  | .ok (some o) =>
    if ← h.replace s.path o.blueprint.toDocument then
      publish h s o.change
      return (o.blueprint, .ok o.reply)
    else return (b, .error .storage)

/-- Makes the document if there is none yet, and says whether it did. -/
def init (h : Host m) (s : Settings) (b : Blueprint) : m (Except Error Bool) := do
  if (← h.look s.path) ≠ .nothing then return .ok false
  else if ← h.replace s.path b.toDocument then return .ok true
  else return .error .storage

/-- The entries of the journal at the path. -/
def history (h : Host m) (journal : String) : m (Except Error (List Entry)) := do
  match (← h.look journal).read with
  | .ok text => return Journal.parse (text.getD "")
  | .error e => return .error e

end Session

end ProofTracker
