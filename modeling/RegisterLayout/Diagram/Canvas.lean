import RegisterLayout.Diagram.Label
import RegisterLayout.Field.Basic

/-!
# The canvas of a diagram

A diagram is drawn cell after cell on rows of 32 bits.  The canvas holds the cells drawn so far,
the lines of the legend, the labels in use, and the bit at which the next cell starts.  A cell
narrower than a row stays within one; a wider one covers whole rows and has a label in its middle.

Principal definitions: `Canvas`, `padLabel`, `Canvas.pushCell`, `Canvas.chooseLabel`.
-/

namespace RegisterLayout

/-- The bits of a row of a diagram. -/
def rowBits : Int := 32

/-- The rows of text of one cell. -/
abbrev Cell := List Text

/-- What the legend says about a field or an item. -/
structure LegendLine where
  name : Value
  bits : Value
  label : Option Value := none
  enumeration : Option Enumeration := none
  typedef : Option Value := none
  desc : Option Value := none
  indent : Value := 0
  deriving Inhabited, Repr

structure Canvas where
  cells : List Cell := []
  legend : List LegendLine := []
  taken : List Text := []
  unnamedFields : Nat := 0
  bitOffset : Number := 0
  unnamedBitFields : Nat := 0
  deriving Inhabited, Repr

/-- The characters of a cell: one for each bit and one between neighbours. -/
def maxLetters (bits : Number) : Number := (bits.scale 2).shift (-1)

/-- Blank text as long as a cell. -/
def blankCell (bits : Int) : Text := Text.blanks (bits * 2 - 1).toNat

/-- Adds one blank after another, on the left and on the right in turn. -/
def addBlanks : Nat → Bool → Text → Text
  | 0, _, s => s
  | n + 1, true, s => addBlanks n false (' ' :: s)
  | n + 1, false, s => addBlanks n true (s ++ " ")

/-- The label in the middle of its cell; a cell wider than a row is as wide as one. -/
def padLabel (label : Text) (bits : Number) : Except Failure Text :=
  let length := maxLetters (bits.min (.int rowBits))
  if length.lt (.int label.length) then .error (.ofCause label (.labelTooLong length))
  else .ok (addBlanks (length.ceiling - label.length).toNat true label)

/-- The row that a bit is on. -/
def rowOf (bit : Number) : Number := bit.floorDiv rowBits

namespace Canvas

/-- The canvas with the next cell `bits` further on. -/
def advance (c : Canvas) (bits : Number) : Except Failure Canvas := do
  return { c with bitOffset := ← c.bitOffset.plus bits }

def addCell (c : Canvas) (cell : Cell) : Canvas := { c with cells := c.cells ++ [cell] }

def addLegend (c : Canvas) (line : LegendLine) : Canvas := { c with legend := c.legend ++ [line] }

/-- The next `bits` are on one row. -/
def staysOnRow (c : Canvas) (bits : Number) : Except Failure Bool := do
  return (rowOf c.bitOffset).same (rowOf ((← c.bitOffset.plus bits).shift (-1)))

/-- Blank rows of a cell, put below its label and above it in turn: those above and those below. -/
def blankRows (count : Nat) : Cell × Cell :=
  (List.range count).foldl (fun (above, below) k =>
    if k % 2 = 1 then (above ++ [blankCell rowBits], below)
    else (above, below ++ [blankCell rowBits])) ([], [])

/-- The text of a cell of whole rows: the label in the middle, blanks above and below, and a row
for every separator that the cell covers. -/
def tallCell (bits : Int) (middle : Text) : Cell :=
  let (above, below) := blankRows (bits.fdiv rowBits * 2 - 1 - 1).toNat
  above ++ [middle] ++ below

/-- Draws a cell over the next bits, `finish` making it from the row of its label.  The canvas is
moved on even if the label does not fit. -/
def drawOver (c : Canvas) (label : Text) (bits : Number)
    (finish : Text → Except Failure Cell) : Except (Failure × Canvas) Canvas :=
  match c.advance bits with
  | .error e => .error (e, c)
  | .ok moved =>
    match padLabel label bits >>= finish with
    | .ok cell => .ok (moved.addCell cell)
    | .error e => .error (e, moved)

/-- Draws an undivided run of bits.  A failure comes with the canvas as it was left: unchanged
when the bits have no place, and moved on when the label does not fit. -/
def pushCell (c : Canvas) (label : Text) (fullName : Option Text) (bits : Number) :
    Except (Failure × Canvas) Canvas :=
  let refuse (cause : Cause) := .error (.ofNode fullName cause, c)
  if bits.lt (.int rowBits) then
    match c.staysOnRow bits, c.bitOffset.plus bits with
    | .ok true, _ => c.drawOver label bits fun row => .ok [row]
    | .ok false, .ok stop => refuse (.blobStraddles c.bitOffset stop)
    | .error e, _ | _, .error e => .error (e, c)
  else if !(bits.mod rowBits).isZero then refuse (.blobNotRows bits)
  else if !(c.bitOffset.mod rowBits).isZero then
    refuse (.blobOffRow bits (c.bitOffset.mod rowBits))
  else
    match bits with
    | .int n => c.drawOver label bits fun row => .ok (tallCell n row)
    | .real _ =>
      match c.advance bits with
      | .ok moved => .error (.wrongType, moved)
      | .error e => .error (e, c)

/-- What a call comes to for somebody who goes on after the errors of a layout: its error, if there
is one, and the canvas as it was left.  Any other failure ends the drawing. -/
def goOn : Except (Failure × Canvas) Canvas → Except Failure (Option LayoutError × Canvas)
  | .ok drawn => .ok (none, drawn)
  | .error (.layout e, left) => .ok (some e, left)
  | .error (e, _) => .error e

/-- The name of a field for the legend: an unnamed one is counted. -/
def nameField (c : Canvas) (h : Header) : Value × Canvas :=
  match h.givenName? with
  | some name => (name, c)
  | none =>
    (.str ("unused_" ++ toString c.unnamedFields : String),
      { c with unnamedFields := c.unnamedFields + 1 })

/-- The name of a bit field for the legend: unnamed ones are counted apart. -/
def nameBitField (c : Canvas) (h : Header) : Value × Canvas :=
  match h.givenName? with
  | some name => (name, c)
  | none =>
    (.str ("bitfield_" ++ toString c.unnamedBitFields : String),
      { c with unnamedBitFields := c.unnamedBitFields + 1 })

/-- Label and name of a field of some width; the label is taken from then on. -/
def chooseLabel (c : Canvas) (h : Header) (bits : Number) :
    Except Failure (Text × Value × Canvas) := do
  let (name, c) := c.nameField h
  let label ← labelOf name (maxLetters (bits.min (.int rowBits))) c.taken
  return (label, name, { c with taken := label :: c.taken })

end Canvas

end RegisterLayout
