import ProofTracker.Blueprint.Basic
import ProofTracker.Journal.Entry

/-!
# Reports

What people are told, as lines of text. On a terminal some words are set off by colours and weights;
otherwise the text is the same without them.
-/

namespace ProofTracker

/-- A way to set off words. -/
inductive Style where
  | good
  | bad
  /-- Something to look at. -/
  | notable
  /-- Something less important. -/
  | faint
  /-- Something more important. -/
  | strong
deriving DecidableEq, Repr

/-- The escape sequences that turn the style on: the colour, then the weight. -/
def Style.codes : Style → String
  | .good => "\x1b[32m\x1b[1m"
  | .bad => "\x1b[31m\x1b[1m"
  | .notable => "\x1b[33m"
  | .faint => "\x1b[2m"
  | .strong => "\x1b[1m"

/-- Sets the text off, if that is wanted. -/
def Style.apply (color : Bool) (s : Style) (text : String) : String :=
  if color then s.codes ++ text ++ "\x1b[0m" else text

/-- The style of a status. -/
def Status.style : Status → Style
  | .todo => .faint
  | .underway => .notable
  | .done => .good
  | .hard => .bad

namespace Report

variable (color : Bool)

/-- The lines, each with its end. -/
def lines (ls : List String) : String :=
  ls.foldr (fun l rest => l ++ "\n" ++ rest) ""

/-- An item on one line: status, label, kind, attempts and what it uses. -/
def itemLine (i : Item) : String :=
  let status := i.status.name.pushn ' ' (7 - i.status.name.length)
  let uses := if i.uses.toList = [] then "" else " <- " ++ ", ".intercalate i.uses.toList
  s!"{i.status.style.apply color status} {Style.strong.apply color i.label} " ++
    s!"{Style.faint.apply color i.kind.name} [{i.attempts.render}]{uses}"

/-- A heading and a text under it, behind an empty line. An empty text has no heading. -/
def passage (heading text : String) : List String :=
  if text = "" then [] else ["", Style.strong.apply color heading, text]

/-- A remark about an item, with its name in front. -/
def remark (name text : String) : String :=
  "  " ++ Style.faint.apply color name ++ " " ++ text

/-- An item in full. -/
def item (i : Item) : List String :=
  [itemLine color i, remark color "file:" (i.location.getD Document.noLocation)] ++
    (if i.priority = 0 then [] else [remark color "priority:" (toString i.priority.toNat)]) ++
    passage color "Statement" i.statement ++ passage color "Proof" i.proof

/-- A message behind a mark. -/
def marked (s : Style) (mark message : String) : String :=
  "  " ++ s.apply color mark ++ " " ++ message

/-- Something that was done. -/
def success (message : String) : String :=
  marked color .good "✓" message

/-- Something that was left as it was. -/
def notice (message : String) : String :=
  marked color .notable "↻" message

/-- A change of an item's status, and a warning if it was not the one asked for. -/
def transition (t : Transition) : List String :=
  let after := t.applied.style.apply color t.applied.name
  let warning :=
    s!"attempt budget exhausted; requested {t.requested.name} but marked hard"
  success color s!"{t.label}: {t.before.name} -> {after} [{t.attempts.render}]" ::
    if t.forced then [marked color .bad "✗" warning] else []

/-- How many items there are. -/
def summary (s : Summary) : String :=
  s!"{Style.strong.apply color (toString s.total)} items: " ++
    s!"{Style.good.apply color (toString s.done)} done, " ++
    s!"{Style.notable.apply color (toString s.underway)} partial, " ++
    s!"{Style.faint.apply color (toString s.todo)} todo, " ++
    s!"{Style.bad.apply color (toString s.hard)} hard ({s.eligible} eligible)"

/-- A change and when it was made. -/
def entry (e : Entry) : String :=
  s!"{Style.faint.apply color e.time.renderBrief} {e.summary}"

end Report

end ProofTracker
