import RegisterLayout.Text.Line

/-!
# Document source

The text of a document read character by character.  Every offset in it has a place, the line
and the column that an editor would show, both counted from zero.

Principal definitions: `Place`, `placeAt`, `Cursor`.
-/

namespace RegisterLayout.Document

/-- A character that a document may hold. -/
def isAdmitted (c : Char) : Bool :=
  let n := c.toNat
  n == 0x9 || n == 0xA || n == 0xD || (0x20 ≤ n && n ≤ 0x7E) || n == 0x85
    || (0xA0 ≤ n && n ≤ 0xD7FF) || (0xE000 ≤ n && n ≤ 0xFFFD) || 0x10000 ≤ n

/-- The mark that may stand at the very beginning of a text; it takes no column. -/
def byteOrderMark : Char := '\uFEFF'

/-- A line and a column, counted from zero. -/
structure Place where
  line : Nat := 0
  column : Nat := 0
  deriving DecidableEq, Inhabited, Repr

/-- The place behind a character.  A carriage return ends a line unless a line feed follows. -/
def Place.after (p : Place) (c : Char) (next : Option Char) : Place :=
  if c = '\r' ∧ next = some '\n' then { p with column := p.column + 1 }
  else if Text.isDocumentBreak c then ⟨p.line + 1, 0⟩
  else if c = byteOrderMark then p
  else { p with column := p.column + 1 }

/-- The place `offset` characters into a text that begins at `p`. -/
def placeFrom (p : Place) : List Char → Nat → Place
  | [], _ => p
  | _ :: _, 0 => p
  | c :: rest, n + 1 => placeFrom (p.after c rest.head?) rest n

/-- The place of an offset in a text. -/
def placeAt (text : List Char) (offset : Nat) : Place := placeFrom {} text offset

/-- A position in a text with the characters still to be read. -/
structure Cursor where
  rest : List Char
  offset : Nat := 0
  place : Place := {}
  deriving Inhabited, Repr

namespace Cursor

/-- Stands for the end of a text, which holds no such character. -/
def endMark : Char := '\x00'

/-- The character `n` places ahead. -/
def peekAt (c : Cursor) (n : Nat) : Char := (c.rest[n]?).getD endMark

def peek (c : Cursor) : Char := c.peekAt 0

def column (c : Cursor) : Nat := c.place.column

def line (c : Cursor) : Nat := c.place.line

/-- The cursor behind the next character. -/
def next (c : Cursor) : Cursor :=
  match c.rest with
  | [] => c
  | x :: rest => ⟨rest, c.offset + 1, c.place.after x rest.head?⟩

def advance : Nat → Cursor → Cursor
  | 0, c => c
  | n + 1, c => advance n c.next

/-- The characters from the cursor on that satisfy `p`, and the cursor behind them. -/
def span (c : Cursor) (p : Char → Bool) : List Char × Cursor :=
  let taken := c.rest.takeWhile p
  (taken, advance taken.length c)

def skip (c : Cursor) (p : Char → Bool) : Cursor := (c.span p).2

/-- A line break, which the end of the text is not. -/
def isBreak (x : Char) : Bool := Text.isDocumentBreak x

/-- A line break or the end. -/
def isBreakOrEnd (x : Char) : Bool := x == endMark || isBreak x

/-- A space, a line break or the end. -/
def isSpaceOrEnd (x : Char) : Bool := x == ' ' || isBreakOrEnd x

/-- A space, a tab, a line break or the end. -/
def isBlankOrEnd (x : Char) : Bool := x == '\t' || isSpaceOrEnd x

/-- Past a line break, and the character it counts as; both parts of a pair are one. -/
def takeBreak (c : Cursor) : Option Char × Cursor :=
  match c.rest with
  | '\r' :: '\n' :: _ => (some '\n', advance 2 c)
  | x :: _ =>
    if x = '\u2028' ∨ x = '\u2029' then (some x, c.next)
    else if isBreak x then (some '\n', c.next)
    else (none, c)
  | [] => (none, c)

/-- Three of a character at the cursor, with nothing else attached. -/
def atMarker (c : Cursor) (x : Char) : Bool :=
  c.rest.take 3 == [x, x, x] && isBlankOrEnd (c.peekAt 3)

/-- The marker of a document's begin or end. -/
def atDocumentMarker (c : Cursor) : Bool := c.atMarker '-' || c.atMarker '.'

end Cursor

end RegisterLayout.Document
