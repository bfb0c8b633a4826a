import ProofTracker.Text.Count

/-!
# Tokens of JSON

A JSON text is cut into punctuation, strings and words; a word is a maximal run of other characters,
such as a number. Strings are read letter by letter: a letter is a character as it stands or by its
short escape, or a UTF-16 unit in hexadecimal. Units need not be paired here, so a string that
nobody looks at may hold a lone surrogate.
-/

namespace ProofTracker.Json

/-- A letter of a string. -/
inductive Letter where
  | char (c : Char)
  /-- A UTF-16 unit, written as an escape with four hexadecimal digits. -/
  | unit (n : Nat)
deriving DecidableEq, Repr

/-- A token. -/
inductive Token where
  | mark (c : Char)
  | string (s : List Letter)
  | word (s : List Char)
deriving DecidableEq, Repr

/-- The marks. -/
def marks : List Char := ['\x7b', '\x7d', '[', ']', ':', ',']

/-- The characters that may stand between tokens. -/
def gaps : List Char := [' ', '\t', '\n', '\r']

/-- The characters with a short escape, each behind the character that is written for it. -/
def shortEscapes : List (Char × Char) :=
  [('"', '"'), ('\\', '\\'), ('/', '/'), ('b', '\x08'), ('f', '\x0c'), ('n', '\n'), ('r', '\r'),
    ('t', '\t')]

/-- The value of a hexadecimal digit. -/
def hexValue? (c : Char) : Option Nat :=
  if '0' ≤ c ∧ c ≤ '9' then some (c.toNat - 48)
  else if 'a' ≤ c ∧ c ≤ 'f' then some (c.toNat - 87)
  else if 'A' ≤ c ∧ c ≤ 'F' then some (c.toNat - 55)
  else none

/-- Where reading stands. What has been read of a token is kept in reverse. -/
inductive Place where
  | between
  | word (read : List Char)
  /-- In a string. -/
  | string (read : List Letter)
  /-- In a string, behind a backslash. -/
  | escape (read : List Letter)
  /-- In a string, within an escape of which `left + 1` hexadecimal digits are missing. -/
  | hex (left value : Nat) (read : List Letter)

/-- The tokens of the text from the given place on. There are none if a string is not closed, or
holds a control character or an unknown escape. -/
def tokens : Place → List Char → Option (List Token)
  | .between, [] => some []
  | .word w, [] => some [.word w.reverse]
  | .string _, [] | .escape _, [] | .hex .., [] => none
  | .between, c :: s =>
    if c ∈ gaps then tokens .between s
    else if c ∈ marks then (.mark c :: ·) <$> tokens .between s
    else if c = '"' then tokens (.string []) s
    else tokens (.word [c]) s
  | .word w, c :: s =>
    if c ∈ gaps then (.word w.reverse :: ·) <$> tokens .between s
    else if c ∈ marks then (.word w.reverse :: .mark c :: ·) <$> tokens .between s
    else tokens (.word (c :: w)) s
  | .string r, c :: s =>
    if c = '"' then (.string r.reverse :: ·) <$> tokens .between s
    else if c = '\\' then tokens (.escape r) s
    else if c < ' ' then none
    else tokens (.string (.char c :: r)) s
  | .escape r, c :: s =>
    if c = 'u' then tokens (.hex 3 0 r) s
    else
      match shortEscapes.lookup c with
      | some d => tokens (.string (.char d :: r)) s
      | none => none
  | .hex left value r, c :: s =>
    match hexValue? c, left with
    | some d, 0 => tokens (.string (.unit (16 * value + d) :: r)) s
    | some d, left + 1 => tokens (.hex left (16 * value + d) r) s
    | none, _ => none

/-! ### The characters of a string -/

/-- Whether the unit is the first one of a surrogate pair. -/
def isHigh (n : Nat) : Bool :=
  0xD800 ≤ n && n < 0xDC00

/-- Whether the unit is the second one of a surrogate pair. -/
def isLow (n : Nat) : Bool :=
  0xDC00 ≤ n && n < 0xE000

/-- The characters that the letters stand for. There are none if a surrogate is not paired. -/
def characters? : List Letter → Option (List Char)
  | [] => some []
  | .char c :: s => (c :: ·) <$> characters? s
  | .unit h :: .unit l :: s =>
    if isHigh h then
      if isLow l then
        (Char.ofNat (0x10000 + 0x400 * (h - 0xD800) + (l - 0xDC00)) :: ·) <$> characters? s
      else none
    else if isLow h then none
    else (Char.ofNat h :: ·) <$> characters? (.unit l :: s)
  | .unit n :: s =>
    if isHigh n || isLow n then none else (Char.ofNat n :: ·) <$> characters? s

end ProofTracker.Json
