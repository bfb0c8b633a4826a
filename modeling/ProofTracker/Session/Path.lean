/-!
# Paths

A path is a row of names with slashes between them. Empty names and single dots lead nowhere, and two
dots lead out of a folder.
-/

namespace ProofTracker.Path

/-- How many bytes a path has at most. -/
def limit : Nat := 4095

/-- Whether the path can be that of anything. -/
def usable (path : String) : Bool :=
  path ≠ "" && path.utf8ByteSize ≤ limit && !path.contains '\x00'

/-- Whether a file or folder can have the name. -/
def nameable (name : String) : Bool :=
  name.utf8ByteSize ≤ 255 && !name.contains '\x00'

/-- Whether the name leads nowhere. -/
def idle (name : String) : Bool :=
  name = "" || name = "."

/-- The names that lead somewhere. -/
def names (path : String) : List String :=
  (path.splitOn "/").filter (!idle ·)

/-- Whether the path can only be that of a folder, since its last name is not that of a file. -/
def endsInside (path : String) : Bool :=
  (path.splitOn "/").getLast?.any fun n => idle n || n = ".."

/-- The names up to the last one that leads somewhere. -/
def dropIdle (names : List String) : List String :=
  (names.reverse.dropWhile idle).reverse

/-- The path to the folder in which the last name is looked up. It is spelled as the path is. -/
def folder (path : String) : String :=
  match path.splitOn "/" with
  | [] => "."
  | first :: rest =>
    match dropIdle rest with
    | [] => "."
    | rest =>
      match first, dropIdle rest.dropLast with
      | "", [] => "/"
      | first, rest => "/".intercalate (first :: rest)

end ProofTracker.Path
