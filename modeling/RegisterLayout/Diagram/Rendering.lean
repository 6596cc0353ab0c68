import RegisterLayout.Diagram.Drawing
import RegisterLayout.Text.Line

/-!
# Rendering a diagram

A diagram and its legend as text, in one of two styles: a documentation comment with wrapped
descriptions, or a fenced drawing followed by a list.  No line has blanks at its end.

Principal definitions: `Style`, `commentEntry`, `listEntry`, `Diagram.lines`, `Diagram.render`.
-/

namespace RegisterLayout

inductive Style where
  | comment
  | markdown
  deriving DecidableEq, Inhabited, Repr

namespace Style

def all : List Style := [comment, markdown]

def name : Style → String
  | comment => "comment"
  | markdown => "markdown"

/-- The style that a value names. -/
def ofValue (v : Value) : Except Failure Style :=
  match all.find? fun style => v.same (.str style.name) with
  | some style => .ok style
  | none => .error (.unknownStyle v)

end Style

/-- The longest line of a wrapped description. -/
def wrapWidth : Nat := 80

namespace LegendLine

/-- The label of a line of the legend, if it is not the name itself. -/
def otherLabel? (l : LegendLine) : Option Value := (filled? l.label).filter (!l.name.same ·)

/-- The blanks before a line of the legend, two for every level. -/
def inset (l : LegendLine) : Except Failure Text :=
  match l.indent with
  | .num (.int n) => .ok (Text.blanks (2 * n.toNat))
  | .bool b => .ok (Text.blanks (if b then 2 else 0))
  | _ => .error .wrongType

end LegendLine

/-- A text that stands for an attribute if there is one, and nothing otherwise. -/
private def shown (v : Option Value) (form : Text → Text) : Except Failure Text :=
  match v with
  | none => .ok []
  | some v => return form (← v.written)

/-- Sets words after `line`, each behind a space; a word that would make it too long starts the
next line, behind `margin`. -/
def wrapWords (margin line : Text) : List Text → List Text
  | [] => [line]
  | word :: words =>
    let longer := line ++ " " ++ word
    if wrapWidth < longer.length then line :: wrapWords margin (margin ++ " " ++ word) words
    else wrapWords margin longer words

/-- What stands before the description in a comment. -/
def commentHead (l : LegendLine) : Except Failure Text := do
  return " * " ++ (← l.inset) ++ "@" ++ (← l.name.written) ++ " "
    ++ (← shown l.otherLabel? fun label => "\"" ++ label ++ "\" ")
    ++ "(" ++ (← l.bits.written) ++ "):"

/-- The words of a description, which has to be a text if it is there. -/
def descriptionWords (l : LegendLine) : Except Failure (List Text) :=
  match filled? l.desc with
  | none => .ok [[]]
  | some (.str desc) => .ok (Text.splitOn (.char ' ') desc)
  | some _ => .error .missingAttribute

/-- The lines of a comment about one field, the later ones as far in as the head is long. -/
def commentEntry (l : LegendLine) : Except Failure (List Text) := do
  let head ← commentHead l
  return wrapWords (" * " ++ Text.blanks (head.length - 3)) head (← descriptionWords l)

/-- The entry of a list about one field. -/
def listEntry (l : LegendLine) : Except Failure Text := do
  let start : Text := "- `" ++ (← ((filled? l.label).getD l.name).written) ++ "` "
    ++ (← shown (l.otherLabel?.map fun _ => l.name) fun name => "\"`" ++ name ++ "`\" ")
    ++ "(" ++ (← l.bits.written) ++ "): "
    ++ (← shown (filled? l.typedef) fun t => "typedef " ++ t ++ " ")
  match filled? l.desc with
  | none => return start
  | some (.str desc) => return start ++ desc
  | some _ => throw .wrongType

namespace Diagram

/-- A drawing and the entries of its legend within a comment. -/
def commentLines (title : Text) (drawing entries : List Text) : List Text :=
  let body : List Text := title :: [] :: drawing ++ [[]]
  let framed := body.map fun line => (" * " ++ line : Text)
  ([["/**"], framed, entries, [" */"]] : List (List Text)).flatten

/-- A drawing between fences and the entries of its legend below. -/
def fencedLines (drawing entries : List Text) : List Text :=
  ([["```"], drawing, ["```", ""], entries] : List (List Text)).flatten

/-- The lines of a rendering before blanks are stripped. -/
def lines (d : Diagram) (style : Style) : Except Failure (List Text) := do
  match style with
  | .comment =>
    let .str title := d.title | throw .wrongType
    let drawing ← drawingLines d.cells
    return commentLines title drawing (← d.legend.mapM commentEntry).flatten
  | .markdown =>
    let drawing ← drawingLines d.cells
    return fencedLines drawing (← d.legend.mapM listEntry)

/-- The text of a diagram in a style. -/
def render (d : Diagram) (style : Style) : Except Failure Text := do
  return Text.ofLines ((← d.lines style).map Text.stripRight)

end Diagram

end RegisterLayout
