import ProofTracker.Journal.Entry

/-!
# Hosts

A host is where files are kept. It also knows the time, and may record the state of files for good
under a message.
-/

namespace ProofTracker

/-- What is found at a path. -/
inductive Content where
  | nothing
  | text (s : String)
  /-- Something that is no file with a text. -/
  | unreadable
deriving DecidableEq, Repr

/-- The text of a file, if there is one. -/
def Content.read : Content → Except Error (Option String)
  | .nothing => .ok none
  | .text s => .ok (some s)
  | .unreadable => .error .storage

/-- The services of a host. -/
structure Host (m : Type → Type) where
  now : m Timestamp
  look : (path : String) → m Content
  /-- Replaces the whole file at a path, or makes one, and says whether that was possible. The
  folders on the way are made if they are missing. -/
  replace : (path text : String) → m Bool
  /-- Adds to the end of the file at a path, or makes one, and says whether that was possible. -/
  append : (path text : String) → m Bool
  /-- Records the files at the paths under the message, and says whether that was possible. -/
  commit : (paths : List String) → (message : String) → m Bool

end ProofTracker
