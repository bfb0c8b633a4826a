import ProofTracker.Session.Host
import ProofTracker.Session.Path

/-!
# A disk in memory

The disk keeps files and folders in memory. A path leads from the root if it starts with a slash, and
from the current folder otherwise. A place is given by the names on the way from the root to it,
innermost first.
-/

namespace ProofTracker

/-- A file or a folder. -/
inductive Node where
  | file (text : String)
  /-- A file that stays empty, whatever is written to it. -/
  | sink
  /-- A folder with what is in it. -/
  | folder (members : List (String × Node))

namespace Node

/-- What the names lead to. -/
def find? : Node → List String → Option Node
  | e, [] => some e
  | .folder members, n :: ns => (members.lookup n).bind (·.find? ns)
  | _, _ :: _ => none

/-- The node with another one at the end of the names. Folders on the way are made if they are
missing. -/
def put : Node → List String → Node → Node
  | _, [], new => new
  | .folder members, n :: ns, new =>
    .folder ((n, ((members.lookup n).getD (.folder [])).put ns new) ::
      members.filter (·.1 ≠ n))
  | e, _ :: _, _ => e

end Node

/-- A place on the disk, innermost name first. -/
abbrev Location := List String

/-- The path from the root. -/
def Location.path (l : Location) : String :=
  "/" ++ "/".intercalate l.reverse

/-- A disk in memory. -/
structure Disk where
  here : Location
  root : Node
  /-- The messages of the commits and the stores that hold them, last one first. -/
  commits : List (Location × String) := []
  /-- The time. It stands still. -/
  time : Timestamp

namespace Disk

/-- What is at the place. -/
def node? (d : Disk) (l : Location) : Option Node :=
  d.root.find? l.reverse

/-- Whether there is a folder at the place. -/
def isFolder (d : Disk) (l : Location) : Bool :=
  match d.node? l with
  | some (.folder _) => true
  | _ => false

/-- The text of the file at the place. -/
def file? (d : Disk) (l : Location) : Option String :=
  match d.node? l with
  | some (.file text) => some text
  | some .sink => some ""
  | _ => none

/-- The disk with this node in place of the one that was there. -/
def withNode (d : Disk) (l : Location) (e : Node) : Disk :=
  { d with root := d.root.put l.reverse e }

/-! ### Places -/

/-- Where the path starts. -/
def origin (d : Disk) (path : String) : Location :=
  if path.startsWith "/" then [] else d.here

/-- Goes on from a folder by a name. Two dots lead out of the folder. -/
def follow (d : Disk) (l : Location) (name : String) : Option Location :=
  if d.isFolder l then some (if name = ".." then l.tail else name :: l) else none

/-- The place to which the path leads, at which nothing needs to be. -/
def locate (d : Disk) (path : String) : Option Location := do
  guard (Path.usable path)
  let l ← (Path.names path).foldlM d.follow (d.origin path)
  guard (!Path.endsInside path || d.isFolder l)
  return l

/-- Follows the names from a folder and makes the folders that are missing. Those that have been made
stay even if one after them cannot be made. -/
def makeFolders (d : Disk) (l : Location) : List String → Disk × Option Location
  | [] => (d, some l)
  | n :: names =>
    if n = ".." then d.makeFolders l.tail names
    else if d.isFolder (n :: l) then d.makeFolders (n :: l) names
    else if (d.node? (n :: l)).isNone && Path.nameable n then
      (d.withNode (n :: l) (.folder [])).makeFolders (n :: l) names
    else (d, none)

/-! ### Services -/

/-- What is found at the path. -/
def look (d : Disk) (path : String) : Content :=
  match (d.locate path).bind d.node? with
  | none => .nothing
  | some (.folder _) => .unreadable
  | some (.file text) => .text text
  | some .sink => .text ""

/-- The name under which a file is written before it gets its own. -/
def draftName : String := ".tmp000000"

/-- Whether there can be a draft in the folder. The path to it leads from the root. -/
def draftable (d : Disk) (folder : String) : Bool :=
  let draft := folder ++ "/" ++ draftName
  Path.usable (if folder.startsWith "/" then draft else d.here.path ++ "/" ++ draft)

/-- Writes the file at the path: first its folder, then a draft, which gets the name of the file in the
end. The folder stays even if the file cannot be written. -/
def replace (d : Disk) (path text : String) : Bool × Disk :=
  let folder := Path.folder path
  if Path.usable folder then
    match d.makeFolders (d.origin path) (Path.names folder), (Path.names path).getLast? with
    | (d, some l), some name =>
      if d.draftable folder && Path.usable path && !Path.endsInside path && Path.nameable name &&
          !d.isFolder (name :: l) then
        (true, d.withNode (name :: l) (.file text))
      else (false, d)
    | (d, _), _ => (false, d)
  else (false, d)

/-- Adds to the file at the path. -/
def append (d : Disk) (path text : String) : Bool × Disk :=
  match d.locate path with
  | some (name :: l) =>
    match d.node? (name :: l) with
    | some (.file before) => (true, d.withNode (name :: l) (.file (before ++ text)))
    | some .sink => (true, d)
    | some (.folder _) => (false, d)
    | none =>
      if d.isFolder l && Path.nameable name then (true, d.withNode (name :: l) (.file text))
      else (false, d)
  | _ => (false, d)

end Disk

end ProofTracker
