import ProofTracker.Json.Value
import ProofTracker.Text.Lines

/-!
# Writing JSON

A value is written on one line without blanks, or over several lines with two more blanks of
indentation for every value it is inside of. Within strings only quotes, backslashes and control
characters are escaped, the latter by a short escape where there is one.
-/

namespace ProofTracker.Json

/-- The value for a text. -/
def Value.ofText (s : String) : Value :=
  .string (s.toList.map .char)

/-- The value for a count. -/
def Value.ofCount (n : UInt32) : Value :=
  .number (Text.ofCount n)

/-- The value for a number. -/
def Value.ofNat (n : Nat) : Value :=
  .number (Nat.toDigits 10 n)

/-- The object with the given members. -/
def Value.record (members : List (String × Value)) : Value :=
  .object (members.map fun (n, v) => (n.toList.map .char, v))

/-- The last `k` hexadecimal digits of the number. -/
def hexDigits : (k n : Nat) → List Char
  | 0, _ => []
  | k + 1, n => hexDigits k (n / 16) ++ [Nat.digitChar (n % 16)]

/-- The characters that are always escaped, each with its short escape. -/
def escaped : List (Char × Char) :=
  [('"', '"'), ('\\', '\\'), ('\x08', 'b'), ('\x0c', 'f'), ('\n', 'n'), ('\r', 'r'), ('\t', 't')]

/-- The written form of a letter. -/
def letter : Letter → List Char
  | .unit n => '\\' :: 'u' :: hexDigits 4 n
  | .char c =>
    match escaped.lookup c with
    | some e => ['\\', e]
    | none => if c < ' ' then '\\' :: 'u' :: hexDigits 4 c.toNat else [c]

/-- The written form of a string. -/
def quoted (s : List Letter) : List Char :=
  '"' :: s.flatMap letter ++ ['"']

mutual

/-- The value on one line. -/
def compact : Value → List Char
  | .null => "null".toList
  | .bool b => (toString b).toList
  | .number s => s
  | .string s => quoted s
  | .array vs => '[' :: [','].intercalate (compactItems vs) ++ [']']
  | .object ms => '\x7b' :: [','].intercalate (compactMembers ms) ++ ['\x7d']

/-- The values, each on one line. -/
def compactItems : List Value → List (List Char)
  | [] => []
  | v :: vs => compact v :: compactItems vs

/-- The members, each on one line. -/
def compactMembers : List (List Letter × Value) → List (List Char)
  | [] => []
  | (n, v) :: ms => (quoted n ++ ':' :: compact v) :: compactMembers ms

end

/-- The parts of a value on lines of their own, between two brackets. -/
def layOut (indent : Nat) (opening closing : Char) (parts : List (List Char)) : List Char :=
  if parts = [] then [opening, closing]
  else
    let newLine (indent : Nat) := '\n' :: List.replicate (2 * indent) ' '
    opening :: newLine (indent + 1) ++ (',' :: newLine (indent + 1)).intercalate parts ++
      newLine indent ++ [closing]

mutual

/-- The value over several lines, inside of `indent` others. -/
def pretty (indent : Nat) : Value → List Char
  | .array vs => layOut indent '[' ']' (prettyItems (indent + 1) vs)
  | .object ms => layOut indent '\x7b' '\x7d' (prettyMembers (indent + 1) ms)
  | v => compact v

/-- The values, each over several lines. -/
def prettyItems (indent : Nat) : List Value → List (List Char)
  | [] => []
  | v :: vs => pretty indent v :: prettyItems indent vs

/-- The members, each over several lines. -/
def prettyMembers (indent : Nat) : List (List Letter × Value) → List (List Char)
  | [] => []
  | (n, v) :: ms => (quoted n ++ ':' :: ' ' :: pretty indent v) :: prettyMembers indent ms

end

end ProofTracker.Json
