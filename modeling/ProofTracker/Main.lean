import ProofTracker.CommandLine.Run
import ProofTracker.Session.Path
import Std.Time.DateTime.Timestamp

/-!
# The program

The program runs a command line on the files of the machine. Nothing is decided here.
-/

namespace ProofTracker.Machine

/-- Whether the action ends without an error. -/
def succeeds (act : IO Unit) : IO Bool :=
  try
    act
    return true
  catch _ => return false

/-- The files of the machine. A file is replaced in one go, by renaming a complete new one. There is
no repository to commit to. -/
def host : Host IO where
  now := do
    let t ← Std.Time.Timestamp.now
    let nanos := t.toNanosecondsSinceUnixEpoch.toInt.toNat
    return .ofUnix (nanos / 1000000000) (nanos % 1000000000)
  look path := do
    if path ≠ "" && (← succeeds (discard (IO.FS.realPath path))) then
      try return .text (← IO.FS.readFile path)
      catch _ => return .unreadable
    else return .nothing
  replace path text := succeeds do
    let draft := path ++ ".tmp"
    IO.FS.createDirAll (Path.folder path)
    IO.FS.writeFile draft text
    try IO.FS.rename draft path
    catch e =>
      IO.FS.removeFile draft
      throw e
  append path text := succeeds (IO.FS.withFile path .append (·.putStr text))
  commit _ message := do
    IO.eprintln s!"warning: not committed: {message}"
    return false

/-- Whether to use colours, for people at a terminal. -/
def wantsColor : IO Bool := do
  let off ← IO.getEnv "NO_COLOR"
  return off.isNone && (← (← IO.getStdout).isTty)

end ProofTracker.Machine

open ProofTracker in
/-- Runs the program. -/
def main (args : List String) : IO UInt32 := do
  let exit ← CommandLine.run Machine.host (← Machine.wantsColor) (← IO.getEnv "BLUEPRINT_PATH") args
  match exit with
  | .done out => IO.print out
  | .failed complaint => IO.eprintln s!"error: {complaint}"
  | .refused => IO.eprint CommandLine.usage
  return exit.code.toUInt32
