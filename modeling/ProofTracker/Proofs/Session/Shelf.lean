import ProofTracker.Proofs.Session.Host

/-! # A host with foreseen failures

A shelf holds files in memory, and it is laid down beforehand which saves fail. It keeps the
document of every session whose journal is another file (`Shelf.keeps_host`), whichever saves these
are. -/

namespace ProofTracker

/-- Files in memory, the last text of each first, and which of the coming saves work. -/
structure Shelf where
  files : List (String × String)
  saves : List Bool

namespace Shelf

def host : Host (StateM Shelf) where
  now := return .ofUnix 0 0
  look path w := (((w.files.lookup path).map Content.text).getD .nothing, w)
  replace path text w :=
    match w.saves with
    | false :: saves => (false, ⟨w.files, saves⟩)
    | saves => (true, ⟨(path, text) :: w.files, saves.tail⟩)
  append path text w :=
    (true, ⟨(path, (w.files.lookup path).getD "" ++ text) :: w.files, w.saves⟩)
  commit _ _ := return true

theorem keeps_host {s : Settings} (hs : s.path ∉ s.journal) : host.Keeps s where
  look _ _ := rfl
  saved text w hr := by
    obtain ⟨files, _ | ⟨_ | _, saves⟩⟩ := w
    · simp [Host.found, host]
    · cases hr
    · simp [Host.found, host]
  failed text w hr path _ := by
    obtain ⟨files, _ | ⟨_ | _, saves⟩⟩ := w
    · cases hr
    · rfl
    · cases hr
  now _ := rfl
  append journal hj text w := by
    have hne : (s.path == journal) = false := by
      simpa using fun he : s.path = journal => hs (he ▸ hj)
    simp [Host.found, host, List.lookup_cons, hne]
  commit _ _ _ := rfl

end Shelf

end ProofTracker
