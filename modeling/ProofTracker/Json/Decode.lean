import ProofTracker.Json.Value

/-!
# Taking values apart

A record is an object with known names, of which none may occur twice, and perhaps others that are
passed over. It may also be given as an array of its values in the order of the names, and then the
last ones may be left out. A plain choice is a string, or an object with the choice as the only name
and null as its value.
-/

namespace ProofTracker.Json.Value

/-- The text that the value stands for. -/
def text? : Value → Option String
  | .string s => .ofList <$> characters? s
  | _ => none

/-- The count that the value stands for. A number with a sign, a fraction or an exponent is none. -/
def count? : Value → Option UInt32
  | .number s => Text.digits? s >>= Text.toCount?
  | _ => none

/-- The items of an array. -/
def list? {α : Type} (read : Value → Option α) : Value → Option (List α)
  | .array vs => vs.mapM read
  | _ => none

/-- Null for nothing. -/
def optional? {α : Type} (read : Value → Option α) : Value → Option (Option α)
  | .null => some none
  | v => some <$> read v

/-- The word for a plain choice. -/
def choice? : Value → Option String
  | .object [(n, .null)] => .ofList <$> characters? n
  | v => v.text?

/-- The values of a record by their names. -/
def record? (names : List String) : Value → Option (List (String × Value))
  | .array vs => if vs.length ≤ names.length then some (names.zip vs) else none
  | .object ms => do
    let ms ← ms.mapM fun (n, v) => do return (String.ofList (← characters? n), v)
    let known := ms.filter (·.1 ∈ names)
    if (known.map (·.1)).Nodup then return known else none
  | _ => none

end Value

/-- Reads a value that a record must have. -/
def required? {α : Type} (values : List (String × Value)) (name : String)
    (read : Value → Option α) : Option α :=
  values.lookup name >>= read

/-- Reads a value that a record may leave out. -/
def orElse? {α : Type} (values : List (String × Value)) (name : String)
    (read : Value → Option α) (otherwise : α) : Option α :=
  match values.lookup name with
  | some v => read v
  | none => some otherwise

end ProofTracker.Json
