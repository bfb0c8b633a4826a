import ProofTracker.Document.Fields
import ProofTracker.Error

/-!
# Reading a document

The lines are cut into records and the records into sections; nothing but the headings matters for
that. Complaints come in the order of the lines, those about a record as a whole when it ends.
-/

namespace ProofTracker.Document

/-- A section of a record as it stands in the document. -/
structure Part where
  /-- The number of the line with the heading. -/
  number : Nat
  opened : Section
  /-- The lines under the heading. -/
  body : List Line

/-- A record as it stands in the document. -/
structure Record where
  /-- The number of the line with the heading. -/
  number : Nat
  kind : Kind
  label : List Char
  /-- The lines before the first section. -/
  before : List Line
  parts : List Part

/-- The lines before the first record, and the records. -/
def Record.ofLines (ls : List Line) : List Line × List Record :=
  let (before, records) := cutAt ofHeading? ls
  (before, records.map fun (l, (kind, label), body) =>
    let (before, parts) := cutAt Section.ofHeading? body
    ⟨l.number, kind, label, before, parts.map fun (l, s, body) => ⟨l.number, s, body⟩⟩)

/-- What the sections of a record say. -/
structure Contents where
  /-- The sections that have been read. -/
  seen : List Section := []
  fields : Fields := {}
  /-- The statement in normal form. -/
  statement : List Char := []
  /-- The proof in normal form. -/
  proof : List Char := []

/-- The free text that the lines stand for. -/
def readText (ls : List Line) : List Char :=
  normalText (Text.joinLines (ls.map fun l => unescape l.text))

/-- Takes in one section of the record with the given label. -/
def Contents.add (label : String) (c : Contents) (p : Part) : Except Error Contents := do
  if p.opened ∈ c.seen then throw (.document p.number (.repeatedSection p.opened label))
  let c := { c with seen := p.opened :: c.seen }
  match p.opened with
  | .fields =>
    let fields ← p.body.foldlM
      (fun f l => (f.add l.text).mapError (.document l.number)) c.fields
    return { c with fields }
  | .statement => return { c with statement := readText p.body }
  | .proof => return { c with proof := readText p.body }

/-- The item that a record with these contents describes. -/
def Record.finish (r : Record) (c : Contents) : Except Fault Item := do
  let label := String.ofList r.label
  unless .fields ∈ c.seen do throw (.noFields label)
  let some l := c.fields.label | throw (.missing label "label")
  unless l = r.label do throw (.labelMismatch label (.ofList l))
  let some status := c.fields.status | throw (.missing label "status")
  let some attempts := c.fields.attempts | throw (.missing label "attempts")
  return {
    label, kind := r.kind, uses := c.fields.uses, status, attempts, location := c.fields.location
    statement := .ofList c.statement, proof := .ofList c.proof, priority := c.fields.priority }

/-- Reads one record. -/
def Record.read (r : Record) : Except Error Item := do
  let label := String.ofList r.label
  if let some l := r.before.find? (·.text ≠ []) then throw (.document l.number (.sectionless label))
  let c ← r.parts.foldlM (Contents.add label) {}
  (r.finish c).mapError (.document r.number)

/-- Reads records whose labels differ from each other and from the earlier ones. -/
def readRecords : (earlier : List String) → List Record → Except Error (List Item)
  | _, [] => .ok []
  | earlier, r :: rs => do
    let i ← r.read
    if i.label ∈ earlier then throw (.document r.number (.repeatedLabel i.label))
    return i :: (← readRecords (i.label :: earlier) rs)

/-- The items of a document, in their order. Their labels differ, and nothing is said about what
they use. -/
def parse (doc : String) : Except Error (List Item) := do
  let (before, records) := Record.ofLines (Line.ofText doc.toList)
  if let some l := before.find? (·.text ≠ []) then throw (.document l.number (.stray (.ofList l.text)))
  readRecords [] records

end ProofTracker.Document
