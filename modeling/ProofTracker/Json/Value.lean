import ProofTracker.Json.Token

/-!
# JSON values

A value keeps its numbers as they are written, and the members of an object in their order, repeated
names included. It is read by a machine that takes one token after the other; the values it is
inside of are on a stack.
-/

namespace ProofTracker.Json

/-- A JSON value. -/
inductive Value where
  | null
  | bool (b : Bool)
  /-- A number, as it is written. -/
  | number (s : List Char)
  | string (s : List Letter)
  | array (items : List Value)
  /-- A list of names with values. -/
  | object (members : List (List Letter × Value))

/-! ### Words -/

/-- The text behind the digits at its start, of which there has to be one. -/
def pastDigits? (s : List Char) : Option (List Char) :=
  if s.head?.any Char.isDigit then some (s.dropWhile Char.isDigit) else none

/-- The text behind the whole part of a number, in which zero is the only digit if it comes first. -/
def pastWhole? : List Char → Option (List Char)
  | '0' :: s => some s
  | s => pastDigits? s

/-- The text behind the fraction of a number, if it has one. -/
def pastFraction? : List Char → Option (List Char)
  | '.' :: s => pastDigits? s
  | s => some s

/-- The text behind the exponent of a number, if it has one. -/
def pastExponent? : List Char → Option (List Char)
  | c :: s =>
    if c = 'e' ∨ c = 'E' then
      match s with
      | '+' :: s | '-' :: s => pastDigits? s
      | s => pastDigits? s
    else some (c :: s)
  | [] => some []

/-- Whether the text is a number. -/
def isNumber (s : List Char) : Bool :=
  let unsigned := match s with
    | '-' :: s => s
    | s => s
  (pastWhole? unsigned >>= pastFraction? >>= pastExponent?) = some []

/-- The value that a word stands for. -/
def scalar? (w : List Char) : Option Value :=
  if w = "null".toList then some .null
  else if w = "true".toList then some (.bool true)
  else if w = "false".toList then some (.bool false)
  else if isNumber w then some (.number w)
  else none

/-! ### Reading -/

/-- A value that is not complete: what has been read of it, last part first. -/
inductive Frame where
  /-- An array, with its items so far. -/
  | array (items : List Value)
  /-- An object, with its members so far and the name of the member that is being read. -/
  | object (members : List (List Letter × Value)) (name : List Letter)

/-- What may come next. -/
inductive Expected where
  | value
  /-- The first item of an array or its end. -/
  | item
  /-- The first member of an object or its end. -/
  | member
  | name (members : List (List Letter × Value))
  /-- The colon behind the name of a member. -/
  | colon (members : List (List Letter × Value)) (name : List Letter)
  /-- What follows the given value. -/
  | after (v : Value)

/-- Takes the first token of a value. -/
def start (stack : List Frame) : Token → Option (List Frame × Expected)
  | .word w => do return (stack, .after (← scalar? w))
  | .string s => some (stack, .after (.string s))
  | .mark '[' => some (.array [] :: stack, .item)
  | .mark '\x7b' => some (stack, .member)
  | .mark _ => none

/-- Takes one token. -/
def step : List Frame × Expected → Token → Option (List Frame × Expected)
  | (stack, .value), t => start stack t
  | (.array [] :: stack, .item), .mark ']' => some (stack, .after (.array []))
  | (stack, .item), t => start stack t
  | (stack, .member), .string s => some (stack, .colon [] s)
  | (stack, .member), .mark '\x7d' => some (stack, .after (.object []))
  | (stack, .name ms), .string s => some (stack, .colon ms s)
  | (stack, .colon ms n), .mark ':' => some (.object ms n :: stack, .value)
  | (.array vs :: stack, .after v), .mark ',' => some (.array (v :: vs) :: stack, .value)
  | (.array vs :: stack, .after v), .mark ']' => some (stack, .after (.array (v :: vs).reverse))
  | (.object ms n :: stack, .after v), .mark ',' => some (stack, .name ((n, v) :: ms))
  | (.object ms n :: stack, .after v), .mark '\x7d' =>
    some (stack, .after (.object ((n, v) :: ms).reverse))
  | _, _ => none

/-- The value that the text stands for. -/
def parse? (s : List Char) : Option Value := do
  let ts ← tokens .between s
  match ← ts.foldlM step ([], .value) with
  | ([], .after v) => some v
  | _ => none

end ProofTracker.Json
