import ProofTracker.Text.Count

/-!
# A flat TOML table

The settings file is a TOML table whose values are strings, integers and truth values. Nothing else
fits any setting, so tables inside of it, dotted keys and other values are refused right away.

A machine takes one character after the other and puts out tokens. The tokens of a line are nothing,
or a key, an equals sign and a value.
-/

namespace ProofTracker.Toml

/-- The two quotes that a string may stand in. Escapes count in the first kind only. -/
inductive Quote where
  /-- Double quotes. -/
  | basic
  /-- Single quotes. -/
  | verbatim
deriving DecidableEq, Repr

/-- The quote itself. -/
def Quote.char : Quote → Char
  | .basic => '"'
  | .verbatim => '\''

/-- A token. -/
inductive Token where
  | newline
  | equals
  /-- A maximal run of characters without a meaning of their own. -/
  | word (s : List Char)
  /-- A string in quotes; `oneLine` says whether it is in single ones of them. -/
  | text (oneLine : Bool) (s : List Char)
deriving DecidableEq, Repr

/-- Where reading stands. What has been read of a token is kept in reverse. -/
inductive Place where
  | between
  | comment
  | word (read : List Char)
  /-- Behind the first quote of a string. -/
  | opened (q : Quote)
  /-- Behind two quotes, which are an empty string or the start of a string of several lines. -/
  | openedTwice (q : Quote)
  /-- In a string of one line. -/
  | line (q : Quote) (read : List Char)
  /-- Behind the three quotes that open a string of several lines. -/
  | opening (q : Quote)
  /-- In a string of several lines, behind so many quotes. -/
  | lines (q : Quote) (read : List Char) (quotes : Nat)
  /-- In a string, behind a backslash. -/
  | escape (oneLine : Bool) (read : List Char)
  /-- In a string, within an escape of which `left + 1` hexadecimal digits are missing. -/
  | hex (oneLine : Bool) (left value : Nat) (read : List Char)
  /-- Behind a backslash and blanks, where the line has to end. -/
  | lineEnd (read : List Char)
  /-- Behind a backslash at the end of a line, where blanks and line ends are passed over. -/
  | skipping (read : List Char)

/-- Whether the character is a blank within a line. -/
def isGap (c : Char) : Bool :=
  c = ' ' || c = '\t'

/-- Whether the character may stand in comments and strings. -/
def isPlain (c : Char) : Bool :=
  c = '\t' || (' ' ≤ c && c ≠ '\x7f')

/-- The characters with a short escape, each behind the character that is written for it. -/
def shortEscapes : List (Char × Char) :=
  [('b', '\x08'), ('t', '\t'), ('n', '\n'), ('f', '\x0c'), ('r', '\r'), ('"', '"'), ('\\', '\\')]

/-- The value of the digit in the given base, which is at most 16. -/
def digitValue? (base : Nat) (c : Char) : Option Nat :=
  let d :=
    if c.isDigit then c.toNat - 48
    else if 'a' ≤ c ∧ c ≤ 'f' then c.toNat - 87
    else if 'A' ≤ c ∧ c ≤ 'F' then c.toNat - 55
    else 16
  if d < base then some d else none

/-- Takes a character that belongs to no token yet. -/
def begin (c : Char) : List Token × Place :=
  if isGap c then ([], .between)
  else if c = '\n' then ([.newline], .between)
  else if c = '=' then ([.equals], .between)
  else if c = '#' then ([], .comment)
  else if c = '"' then ([], .opened .basic)
  else if c = '\'' then ([], .opened .verbatim)
  else ([], .word [c])

/-- Takes a character of a string of one line. -/
def inLine (q : Quote) (read : List Char) (c : Char) : Option (List Token × Place) :=
  if c = q.char then some ([.text true read.reverse], .between)
  else if c = '\\' ∧ q = .basic then some ([], .escape true read)
  else if isPlain c then some ([], .line q (c :: read))
  else none

/-- Takes a character of a string of several lines. The quotes before it belong to the string. -/
def inLines (q : Quote) (read : List Char) (c : Char) : Option (List Token × Place) :=
  if c = '\\' ∧ q = .basic then some ([], .escape false read)
  else if c = '\n' ∨ isPlain c then some ([], .lines q (c :: read) 0)
  else none

/-- The place in a string with the characters read so far. Escapes are in double quotes. -/
def resume (oneLine : Bool) (read : List Char) : Place :=
  if oneLine then .line .basic read else .lines .basic read 0

/-- Takes a character. -/
def advance : Place → Char → Option (List Token × Place)
  | .between, c => some (begin c)
  | .comment, c =>
    if c = '\n' then some ([.newline], .between)
    else if isPlain c then some ([], .comment)
    else none
  | .word w, c =>
    if isGap c || c ∈ ['\n', '=', '#', '"', '\''] then
      let (ts, p) := begin c
      some (.word w.reverse :: ts, p)
    else some ([], .word (c :: w))
  | .opened q, c => if c = q.char then some ([], .openedTwice q) else inLine q [] c
  | .openedTwice q, c =>
    if c = q.char then some ([], .opening q)
    else
      let (ts, p) := begin c
      some (.text true [] :: ts, p)
  | .line q r, c => inLine q r c
  | .opening q, c =>
    if c = '\n' then some ([], .lines q [] 0)
    else if c = q.char then some ([], .lines q [] 1)
    else inLines q [] c
  | .lines q r k, c =>
    if c = q.char then
      if k < 5 then some ([], .lines q r (k + 1)) else none
    else if k < 3 then inLines q (List.replicate k q.char ++ r) c
    else
      let (ts, p) := begin c
      some (.text false (r.reverse ++ List.replicate (k - 3) q.char) :: ts, p)
  | .escape one r, c =>
    if c = 'u' then some ([], .hex one 3 0 r)
    else if c = 'U' then some ([], .hex one 7 0 r)
    else if c = '\n' ∧ ¬one then some ([], .skipping r)
    else if isGap c ∧ ¬one then some ([], .lineEnd r)
    else (shortEscapes.lookup c).map fun d => ([], resume one (d :: r))
  | .hex one left value r, c => do
    let value := 16 * value + (← digitValue? 16 c)
    match left with
    | left + 1 => return ([], .hex one left value r)
    | 0 => if value.isValidChar then return ([], resume one (.ofNat value :: r)) else none
  | .lineEnd r, c =>
    if isGap c then some ([], .lineEnd r)
    else if c = '\n' then some ([], .skipping r)
    else none
  | .skipping r, c =>
    if isGap c ∨ c = '\n' then some ([], .skipping r)
    else if c = '"' then some ([], .lines .basic r 1)
    else inLines .basic r c

/-- The tokens that are complete at the end of the text. -/
def finish : Place → Option (List Token)
  | .between | .comment => some []
  | .word w => some [.word w.reverse]
  | .openedTwice _ => some [.text true []]
  | .lines q r k =>
    if 3 ≤ k then some [.text false (r.reverse ++ List.replicate (k - 3) q.char)] else none
  | _ => none

/-- The tokens of the text from the given place on. -/
def tokens : Place → List Char → Option (List Token)
  | p, [] => finish p
  | p, c :: s => do
    let (ts, p) ← advance p c
    return ts ++ (← tokens p s)

/-! ### Entries -/

/-- A value of the table. -/
inductive Value where
  | text (s : List Char)
  | integer (n : Int)
  | bool (b : Bool)
deriving DecidableEq, Repr

/-- The number that the digits stand for, with single underscores between digits. `last` says
whether the character before was a digit. -/
def digits? (base : Nat) : (value : Nat) → (last : Bool) → List Char → Option Nat
  | value, last, [] => if last then some value else none
  | value, true, '_' :: s => digits? base value false s
  | value, _, c :: s => do digits? base (base * value + (← digitValue? base c)) true s

/-- The number in decimal digits, of which zero is the only one if it comes first. -/
def decimal? : List Char → Option Nat
  | ['0'] => some 0
  | '0' :: _ => none
  | s => digits? 10 0 false s

/-- The integer that a word stands for. -/
def integer? : List Char → Option Int
  | '0' :: 'x' :: s => (digits? 16 0 false s).map .ofNat
  | '0' :: 'o' :: s => (digits? 8 0 false s).map .ofNat
  | '0' :: 'b' :: s => (digits? 2 0 false s).map .ofNat
  | '+' :: s => (decimal? s).map .ofNat
  | '-' :: s => (decimal? s).map fun n => -n
  | s => (decimal? s).map .ofNat

/-- The value that a token stands for. -/
def value? : Token → Option Value
  | .text _ s => some (.text s)
  | .word w =>
    if w = "true".toList then some (.bool true)
    else if w = "false".toList then some (.bool false)
    else (integer? w).map .integer
  | _ => none

/-- Whether the character may stand in a key without quotes. -/
def isBare (c : Char) : Bool :=
  c.isAlphanum || c = '_' || c = '-'

/-- The key that a token stands for. -/
def key? : Token → Option String
  | .text true s => some (.ofList s)
  | .word w => if w.all isBare then some (.ofList w) else none
  | _ => none

/-- What a line of the table says, if it says anything. -/
def entry? : List Token → Option (Option (String × Value))
  | [] => some none
  | [k, .equals, v] => do return some (← key? k, ← value? v)
  | _ => none

/-- The text with a plain line feed at the end of every line. -/
def plainLineEnds : List Char → List Char
  | '\r' :: '\n' :: s => '\n' :: plainLineEnds s
  | c :: s => c :: plainLineEnds s
  | [] => []

/-- The keys of the table with their values, in the order of the text. A byte order mark at its
start is passed over. -/
def parse? (s : List Char) : Option (List (String × Value)) := do
  let s := match s with
    | '\ufeff' :: s => s
    | s => s
  let ts ← tokens .between (plainLineEnds s)
  let entries ← (ts.splitOn .newline).mapM entry?
  return entries.filterMap id

end ProofTracker.Toml
