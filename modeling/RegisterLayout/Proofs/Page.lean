import Mathlib.Data.List.Basic
import RegisterLayout.Diagram.Drawing

/-!
# Drawings by their rows

A drawing is a list of lines to which a current one is added; what it shows are rows, each with
the line below it.  A page holds the finished rows and the text of the current row.  Adding a cell
to a page starts a new row if the current one is full, puts the first row of the cell behind what
is there, and turns to a new row for every other row of the cell.

Principal definitions: `DrawnRow`, `Page`, `Page.add`.
Principal results: `Page.addCell_drawing`, `Page.close_drawing`.
-/

namespace RegisterLayout

/-- A row of a drawing with the line below it. -/
structure DrawnRow where
  text : Text
  below : Text

/-- A text between the bars of its cell. -/
def barred (text : Text) : Text := "|" ++ text ++ "|"

/-- A text between the corners of its cell, in place of a border. -/
def crossed (text : Text) : Text := "+" ++ text ++ "+"

/-- The lines of rows from the one of some index on, each row behind its byte offset. -/
def rowLines : Nat → List DrawnRow → List Text
  | _, [] => []
  | k, r :: rs => (offsetLabel (4 * k) ++ r.text) :: (gutter ++ r.below) :: rowLines (k + 1) rs

theorem rowLines_concat (k : Nat) (rs : List DrawnRow) (r : DrawnRow) :
    rowLines k (rs ++ [r]) =
      rowLines k rs ++ [offsetLabel (4 * (k + rs.length)) ++ r.text, gutter ++ r.below] := by
  induction rs generalizing k with
  | nil => rfl
  | cons r' rs ih =>
    have hindex : k + 1 + rs.length = k + (r' :: rs).length := by
      rw [List.length_cons]
      omega
    rw [List.cons_append, rowLines, ih, hindex, rowLines, List.cons_append, List.cons_append]

/-- The finished rows of a drawing and the text of the current one. -/
structure Page where
  rows : List DrawnRow := []
  current : Text := "|"

namespace Page

variable {p : Page}

/-- A page as it is drawn. -/
def drawing (p : Page) : Drawing where
  done := drawingHead ++ rowLines 0 p.rows
  current := p.current
  byteOffset := 4 * p.rows.length

/-- The rows of a page, with a border below the current one. -/
def all (p : Page) : List DrawnRow := p.rows ++ [⟨p.current, border⟩]

/-- Finishes the current row and starts the next. -/
def turn (p : Page) (below next : Text) : Page := ⟨p.rows ++ [⟨p.current, below⟩], next⟩

/-- Starts a new row below a border if the current one is full. -/
def wrap (p : Page) : Page := if border.length ≤ p.current.length then p.turn border "|" else p

/-- The rows of a cell after its first, in turn with the separators between them. -/
def addRest (p : Page) : List Text → Page
  | separator :: row :: rest => (p.turn (crossed separator) (barred row)).addRest rest
  | _ => p

def add (p : Page) : Cell → Page
  | [] => p
  | row :: rest => { p.wrap with current := p.wrap.current ++ row ++ "|" }.addRest rest

theorem drawing_turn (p : Page) (below next : Text) :
    (p.turn below next).drawing =
      { done := p.drawing.done ++ [offsetLabel p.drawing.byteOffset ++ p.current, gutter ++ below]
        current := next
        byteOffset := p.drawing.byteOffset + 4 } := by
  have hoffset : 4 * (p.rows.length + 1) = 4 * p.rows.length + 4 := by omega
  simp only [turn, drawing, rowLines_concat, List.length_append, List.length_singleton,
    Nat.zero_add, List.append_assoc, hoffset]

theorem drawing_wrap (p : Page) : p.wrap.drawing = p.drawing.wrapRow := by
  rw [wrap, Drawing.wrapRow]
  by_cases hfull : border.length ≤ p.current.length
  · rw [if_pos hfull, if_pos (by exact hfull), drawing_turn]
    rfl
  · rw [if_neg hfull, if_neg (by exact hfull)]

/-- A page whose current line is a row, not a separator. -/
def AtRow (p : Page) : Prop := p.current.head? = some (.char '|')

theorem atRow_turn (p : Page) (below text : Text) : (p.turn below (barred text)).AtRow := rfl

theorem finishLine_drawing (hrow : p.AtRow) :
    p.drawing.finishLine =
      { p.drawing with
        done := p.drawing.done ++ [offsetLabel p.drawing.byteOffset ++ p.current] } := by
  have hhead : ¬p.drawing.atSeparator = true := by
    rw [Drawing.atSeparator, show p.drawing.current.head? = _ from hrow]
    decide
  rw [Drawing.finishLine, if_neg hhead]
  rfl

theorem finishLine_crossed (done : List Text) (separator : Text) (byteOffset : Nat) :
    Drawing.finishLine ⟨done, crossed separator, byteOffset⟩ =
      ⟨done ++ [gutter ++ crossed separator], crossed separator, byteOffset⟩ := rfl

/-- A separator and the row below it turn the page. -/
theorem addRows_drawing_turn (hrow : p.AtRow) (separator row : Text) (rest : List Text) :
    p.drawing.addRows true (separator :: row :: rest) =
      (p.turn (crossed separator) (barred row)).drawing.addRows true rest := by
  have hseparator : p.drawing.addRows true (separator :: row :: rest) =
      Drawing.addRows ⟨p.drawing.done ++ [offsetLabel p.drawing.byteOffset ++ p.current],
        crossed separator, p.drawing.byteOffset⟩ false (row :: rest) := by
    rw [Drawing.addRows, finishLine_drawing hrow]
    rfl
  rw [hseparator, Drawing.addRows, finishLine_crossed, drawing_turn, List.append_assoc]
  rfl

theorem addRows_drawing (hrow : p.AtRow) {rest : List Text} (heven : rest.length % 2 = 0) :
    p.drawing.addRows true rest = (p.addRest rest).drawing := by
  induction p, rest using addRest.induct with
  | case1 p separator row rest ih =>
    rw [addRows_drawing_turn hrow, addRest]
    refine ih (atRow_turn _ _ _) ?_
    rw [List.length_cons, List.length_cons] at heven
    omega
  | case2 rest p hshort =>
    cases rest with
    | nil => rfl
    | cons separator rest =>
      cases rest with
      | nil => simp at heven
      | cons row rest => exact absurd rfl (hshort separator row rest)

theorem AtRow.append (hrow : p.AtRow) (s : Text) :
    ({ p with current := p.current ++ s } : Page).AtRow := by
  rw [AtRow, List.head?_append, show p.current.head? = _ from hrow]
  rfl

theorem AtRow.wrap (hrow : p.AtRow) : p.wrap.AtRow := by
  unfold Page.wrap
  split
  · rfl
  · exact hrow

/-- **A cell is added to a drawing as it is to its page.** -/
theorem addCell_drawing (hrow : p.AtRow) {cell : Cell} (hodd : cell.length % 2 = 1) :
    p.drawing.addCell cell = .ok (p.add cell).drawing := by
  cases cell with
  | nil => simp at hodd
  | cons row rest =>
    have heven : rest.length % 2 = 0 := by
      rw [List.length_cons] at hodd
      omega
    have hbegun : ({ p.wrap with current := p.wrap.current ++ row ++ "|" } : Page).AtRow := by
      have happend := hrow.wrap.append (row ++ "|")
      rwa [← List.append_assoc] at happend
    rw [Drawing.addCell, add, ← addRows_drawing hbegun heven, ← drawing_wrap]
    rfl

/-- **A drawing is closed below its rows.** -/
theorem close_drawing (p : Page) :
    p.drawing.close = drawingHead ++ rowLines 0 p.all ++ [offsetLabel (4 * p.all.length)] := by
  have hoffset : 4 * (p.rows.length + 1) = 4 * p.rows.length + 4 := by omega
  simp only [all, drawing, Drawing.close, rowLines_concat, List.length_append,
    List.length_singleton, Nat.zero_add, List.append_assoc, hoffset, List.cons_append,
    List.nil_append]

end Page

end RegisterLayout
