import ProofTracker.Proofs.Blueprint.Reload
import ProofTracker.Session.Basic

/-! # Hosts that keep a document

A host changes its state with every service. It keeps the document of a session (`Keeps`) if a save
replaces the whole document or fails and leaves it as it was, and nothing else writes to it. Then
the journal and the commits behind a change leave the document alone (`steady_publish`). -/

namespace ProofTracker

variable {σ : Type}

/-- What is found at the path in a state of the host. -/
def Host.found (h : Host (StateM σ)) (path : String) (w : σ) : Content := (h.look path w).1

/-- Looking changes nothing, a save replaces the document or fails and changes neither it nor the
journal, and the other services that a session asks for leave the document alone. -/
structure Host.Keeps (h : Host (StateM σ)) (s : Settings) : Prop where
  look : ∀ path w, (h.look path w).2 = w
  saved : ∀ text w, (h.replace s.path text w).1 = true →
    h.found s.path (h.replace s.path text w).2 = .text text
  failed : ∀ text w, (h.replace s.path text w).1 = false → ∀ path, path = s.path ∨ path ∈ s.journal →
    h.found path (h.replace s.path text w).2 = h.found path w
  now : ∀ w, h.found s.path (h.now w).2 = h.found s.path w
  append : ∀ journal ∈ s.journal, ∀ text w,
    h.found s.path (h.append journal text w).2 = h.found s.path w
  commit : ∀ paths message w, h.found s.path (h.commit paths message w).2 = h.found s.path w

namespace Session

variable {h : Host (StateM σ)} {s : Settings} {b b' : Blueprint} {w w' : σ}

/-- The document and the journal are the same. -/
def Untouched (h : Host (StateM σ)) (s : Settings) (w w' : σ) : Prop :=
  ∀ path, path = s.path ∨ path ∈ s.journal → h.found path w' = h.found path w

theorem Untouched.refl (h : Host (StateM σ)) (s : Settings) (w : σ) : Untouched h s w w :=
  fun _ _ => rfl

/-! ### Publishing -/

/-- The steps leave the document alone. -/
def Steady (h : Host (StateM σ)) (s : Settings) {α : Type} (x : StateM σ α) : Prop :=
  ∀ w, h.found s.path (x w).2 = h.found s.path w

theorem Steady.pure {α : Type} (a : α) : Steady h s (pure a) := fun _ => rfl

theorem Steady.bind {α β : Type} {x : StateM σ α} {f : α → StateM σ β} (hx : Steady h s x)
    (hf : ∀ a, Steady h s (f a)) : Steady h s (x >>= f) := fun w =>
  (hf (x w).1 (x w).2).trans (hx w)

theorem Steady.filterM {α : Type} {f : α → StateM σ Bool} (hf : ∀ a, Steady h s (f a)) (l : List α) :
    Steady h s (l.filterM f) := by
  have haux : ∀ acc, Steady h s (l.filterAuxM f acc) := by
    induction l with
    | nil => exact fun acc => .pure acc
    | cons a l ih => exact fun acc => .bind (hf a) fun keep => ih _
  exact .bind (haux []) fun _ => .pure _

/-- What is done with the files in the end leaves a file alone that commits leave alone. -/
theorem steady_record (file : Settings) (hlook : ∀ path w, (h.look path w).2 = w)
    (hcommit : ∀ paths message, Steady h file (h.commit paths message)) (s : Settings) (c : Change)
    (paths : List String) : Steady h file (do
      if s.commits then
        let journal ← paths.filterM fun p => return (← h.look p) ≠ .nothing
        let _ ← h.commit (s.path :: journal) s!"blueprint: {c.summary}" : StateM σ Unit) := by
  have hkept : Steady h file (paths.filterM fun p => return (← h.look p) ≠ .nothing) :=
    .filterM (fun p => .bind (fun w => by rw [hlook]) fun _ => .pure _) paths
  split
  · exact .bind hkept fun _ => .bind (hcommit _ _) fun _ => .pure _
  · exact .pure _

/-- Neither the journal nor a commit touches the document. -/
theorem steady_publish (hh : h.Keeps s) (c : Change) : Steady h s (publish h s c) := by
  have hrecord := steady_record s hh.look hh.commit s c
  unfold publish
  cases hj : s.journal with
  | none => exact hrecord _
  | some journal => exact .bind hh.now fun _ => .bind (hh.append journal hj _) fun _ => hrecord _

end Session

end ProofTracker
