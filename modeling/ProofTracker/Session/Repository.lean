import ProofTracker.Session.Disk

/-!
# Repositories

A repository keeps the states of files under messages. It has a store, which is a folder with a file
`HEAD` and folders `objects` and `refs`. The files that it can keep are those in the folder around the
store, unless their names could be taken for that of the store.
-/

namespace ProofTracker.Disk

/-- The usual name of a store. -/
def storeName : String := ".git"

/-- Whether a file can be kept whose path has the name. The name of the store, also its short form,
is refused in capital letters and in small ones, alone, before dots and blanks, and before a
backslash or a colon. -/
def keepable (name : String) : Bool :=
  [storeName, "git~1"].all fun s =>
    !s.toList.isPrefixOf (name.toLower.toList) ||
      match name.toList.drop s.length with
      | '\\' :: _ | ':' :: _ => false
      | rest => rest.any fun c => c ≠ '.' ∧ c ≠ ' '

/-- Whether the folder is the store of a repository. -/
def isStore (d : Disk) (l : Location) : Bool :=
  (d.file? ("HEAD" :: l)).isSome && d.isFolder ("objects" :: l) && d.isFolder ("refs" :: l)

/-- The store of the repository to which a folder belongs. It is the folder itself, or in it under the
usual name, or that of a folder around it. A file with the usual name hides what is further out. -/
def storeOf (d : Disk) (l : Location) : Option Location :=
  if (d.file? (storeName :: l)).isSome then none
  else if d.isStore (storeName :: l) then some (storeName :: l)
  else if d.isStore l then some l
  else
    match l with
    | [] => none
    | _ :: l => d.storeOf l

/-- Whether the text of a file `HEAD` names a branch. -/
def namesBranch (text : String) : Bool :=
  text.startsWith "ref: refs/heads/" && ((text.drop 5).trimAsciiEnd.toString.toList.all fun c =>
    '!' ≤ c ∧ c ≠ '\x7f')

/-- Whether nothing is in the way of a commit. A lock is, and so is what is no branch and no index
where a branch and the index belong. -/
def isFree (d : Disk) (store : Location) : Bool :=
  (d.file? ("HEAD" :: store)).any namesBranch &&
    [["index"], ["index.lock"], ["master", "heads", "refs"], ["master.lock", "heads", "refs"]].all
      fun l => (d.node? (l ++ store)).isNone

/-- Whether the path leads to a file that can be kept in the store. -/
def canKeep (d : Disk) (store : Location) (path : String) : Bool :=
  match d.locate path with
  | none => false
  | some l =>
    (d.file? l).isSome && Path.usable (Location.path l) && store.tail.isSuffixOf l &&
      (l.take (l.length - store.tail.length)).all keepable

/-- Commits the files at the paths to the repository of the first one. -/
def commit (d : Disk) (paths : List String) (message : String) : Bool × Disk :=
  match (paths.head?.bind d.locate).bind fun l => d.storeOf l.tail with
  | none => (false, d)
  | some store =>
    if d.isFree store && paths.all (d.canKeep store) && !message.contains '\x00' then
      (true, { d with commits := (store, message) :: d.commits })
    else (false, d)

/-- The message of the last commit to the store. -/
def lastMessage? (d : Disk) (store : Location) : Option String :=
  d.commits.lookup store

/-- The folders of a new store. -/
def storeFolders : List Location :=
  [["heads", "refs"], ["tags", "refs"], ["info", "objects"], ["pack", "objects"]]

/-- The files of a new store. -/
def storeFiles : List (Location × String) :=
  [(["HEAD"], "ref: refs/heads/master\n"),
    (["config"], "[core]\n\tbare = false\n\trepositoryformatversion = 0\n\tfilemode = true\n" ++
      "\tlogallrefupdates = true\n"),
    (["description"], "Unnamed repository; edit this file 'description' to name the repository.\n"),
    (["exclude", "info"], "# File patterns to ignore; see `git help ignore` for more information.\n" ++
      "# Lines that start with '#' are comments.\n"),
    (["README.sample", "hooks"], "#!/bin/sh\n#\n" ++
      "# Place appropriately named executable hook scripts into this directory\n" ++
      "# to intercept various actions that git takes.  See `git help hooks` for\n" ++
      "# more information.\n")]

/-- The disk with a repository for the folder, to which nothing has been committed. -/
def withRepository (d : Disk) (l : Location) : Disk :=
  let d := storeFolders.foldl (fun d f => d.withNode (f ++ storeName :: l) (.folder [])) d
  storeFiles.foldl (fun d (f, text) => d.withNode (f ++ storeName :: l) (.file text)) d

/-- The disk as a host. -/
def host : Host (StateM Disk) where
  now := return (← get).time
  look path := return (← get).look path
  replace path text := fun d => d.replace path text
  append path text := fun d => d.append path text
  commit paths message := fun d => d.commit paths message

end ProofTracker.Disk
