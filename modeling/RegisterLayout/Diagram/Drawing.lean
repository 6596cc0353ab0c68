import RegisterLayout.Diagram.Layout

/-!
# Drawing a diagram

The text of a diagram: two rulers with the indices of the bits, then rows between borders, each
behind the byte offset of its first bit.  The cells of a row are closed by bars; a cell of
several rows has a blank row in place of every border within it.

Principal definitions: `Drawing`, `drawingLines`.
-/

namespace RegisterLayout

/-- The width of the gutter for byte offsets. -/
def gutter : Text := "    "

def rulers : List Text := [
  " 3                     2                   1                   0",
  " 1 0 9 8 7 6 5 4 3 2 1 0 9 8 7 6 5 4 3 2 1 0 9 8 7 6 5 4 3 2 1 0"]

def border : Text :=
  "+-+-+-+-+-+-+-+-+-+-+-+-+-+-+-+-+-+-+-+-+-+-+-+-+-+-+-+-+-+-+-+-+"

/-- The lines above the first row. -/
def drawingHead : List Text := rulers.map (gutter ++ ·) ++ [gutter ++ border]

/-- A byte offset right-aligned in the gutter; a long one runs over. -/
def offsetLabel (byteOffset : Nat) : Text :=
  let text : Text := (toString byteOffset ++ " " : String)
  Text.blanks (gutter.length - text.length) ++ text

/-- A drawing under way: the finished lines, the current one and the byte offset of its row. -/
structure Drawing where
  done : List Text := drawingHead
  current : Text := "|"
  byteOffset : Nat := 0
  deriving Inhabited, Repr

namespace Drawing

/-- The current line is a separator within a cell of several rows. -/
def atSeparator (d : Drawing) : Bool := d.current.head? = some (.char '+')

def finishRow (d : Drawing) : Drawing :=
  { d with done := d.done ++ [offsetLabel d.byteOffset ++ d.current] }

def finishLine (d : Drawing) : Drawing :=
  if d.atSeparator then { d with done := d.done ++ [gutter ++ d.current] } else d.finishRow

/-- Starts a new row below a border if the current one is full. -/
def wrapRow (d : Drawing) : Drawing :=
  if border.length ≤ d.current.length then
    { done := d.done ++ [offsetLabel d.byteOffset ++ d.current, gutter ++ border]
      current := "|"
      byteOffset := d.byteOffset + 4 }
  else d

/-- The rows of a cell after its first, separators and rows in turn. -/
def addRows (d : Drawing) (separator : Bool) : List Text → Drawing
  | [] => d
  | row :: rows =>
    let d := d.finishLine
    if separator then addRows { d with current := "+" ++ row ++ "+" } false rows
    else addRows { d with current := "|" ++ row ++ "|", byteOffset := d.byteOffset + 4 } true rows

/-- Draws a cell, which has to have a row. -/
def addCell (d : Drawing) : Cell → Except Failure Drawing
  | [] => .error .outOfRange
  | row :: rows =>
    let d := d.wrapRow
    .ok (addRows { d with current := d.current ++ row ++ "|" } true rows)

/-- The lines of a drawing, closed by a border and the offset behind the last row. -/
def close (d : Drawing) : List Text :=
  d.done ++ [offsetLabel d.byteOffset ++ d.current, gutter ++ border,
    offsetLabel (d.byteOffset + 4)]

end Drawing

/-- The lines of a diagram. -/
def drawingLines (cells : List Cell) : Except Failure (List Text) := do
  return (← cells.foldlM Drawing.addCell {}).close

end RegisterLayout
