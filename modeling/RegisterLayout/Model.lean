import RegisterLayout.Field.OfValue
import RegisterLayout.Schema.Model
import RegisterLayout.Value.OfNode

/-!
# Models

The text of a model is read as a document, checked against the schema of layouts and turned into
a tree of fields.  A violation is reported with the path of the value at fault and, where the
text is known, with the line and the column at which the value stands.

Principal definitions: `parseModel`, `validate`, `Field.ofText`.
-/

namespace RegisterLayout

open Document

/-- The value of a model's text. -/
def parseModel (text : Text) : Except Failure (Looped Value) :=
  match Value.ofText text with
  | .error .malformedText => .error (.violations [Text.ofString "Error parsing YAML"])
  | r => r

/-- A path as messages show it. -/
def pathText (path : List Value) : Except Failure Text := do
  return "/" ++ Text.joined "/" (← path.mapM Value.written)

/-- The line of a text under an index, without the blanks around it. -/
def snippet (text : Text) (line : Nat) : Text :=
  ((Text.splitLines text)[line]?.map Text.strip).getD []

/-- The place of a node and its line, in a text of characters as all documents are. -/
def positionText (text : Text) (node : Node) : Text :=
  let place := placeAt (text.chars?.getD []) node.start
  " (" ++ toString (place.line + 1) ++ ":" ++ toString (place.column + 1) ++ ": "
    ++ snippet text place.line ++ ")"

/-- Where a path leads in the document of a text; nothing for a text without a document. -/
def positionOf (text : Text) (document : Option (Looped Node)) (path : List Value) :
    Except Failure Text :=
  match document with
  | none => .ok []
  | some document => return positionText text (← Node.find document path)

/-- The messages for violations, with positions if the text is known. -/
def messages (loops : Loops Value) (text : Option Text) (violations : List Violation) :
    Except Failure (List Text) := do
  let document ← match text with
    | some text => Node.ofText text
    | none => pure none
  violations.mapM fun violation => do
    let (path, complaint) ← violation.best []
    let place ← pathText path
    let position ← match text with
      | some text => positionOf text document path
      | none => pure []
    return complaint.text loops ++ " at " ++ place ++ position

/-- Accepts a document that describes a layout, and reports every violation of another. -/
def validate (document : Looped Value) (text : Option Text) : Except Failure Unit := do
  let violations := Schema.violations document
  if violations.isEmpty then return ()
  if let some fault := Violation.firstFault? document.loops violations then throw fault
  throw (.violations (← messages document.loops text violations))

/-- The layout that a text describes, not placed yet. -/
def Field.ofText (text : Text) : Except Failure Field := do
  let document ← parseModel text
  validate document (some text)
  Field.ofValue document.root

end RegisterLayout
