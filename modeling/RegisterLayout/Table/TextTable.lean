import RegisterLayout.Failure
import RegisterLayout.Number.Numeral
import RegisterLayout.Text.Form
import RegisterLayout.Text.Line

/-!
# Text tables

A table with a header, a rule and rows below, the columns two spaces apart.  A column of numbers
is set to the right, any other to the left; a column with a fraction has its points below one
another.  Blank cells do not count for the kind of a column, and terminal escapes count neither for
the kind nor for the width of a cell.

Principal definitions: `ColumnKind`, `ColumnKind.ofCells`, `ColumnKind.cellText`,
`TextTable.render`.
-/

namespace RegisterLayout

/-- What a column holds, from the most special to the most general. -/
inductive ColumnKind where
  | blank
  | truth
  | whole
  | real
  | text
  deriving DecidableEq, Inhabited, Repr

namespace ColumnKind

def rank : ColumnKind → Nat
  | blank => 0
  | truth => 1
  | whole => 2
  | real => 3
  | text => 4

def join (a b : ColumnKind) : ColumnKind := if a.rank < b.rank then b else a

/-! ## Kinds of texts -/

open Text (Form)

def digits (n : Nat) : Form := .all (List.replicate n (.char Char.isDigit))

/-- Groups of three digits behind commas, which may be missing. -/
def moreGroups : Form := fun s =>
  Form.opt (.repeated (.andThen (.lit ',') (digits 3)) s.length) s

/-- A number whose digits before the point may stand in groups of three, with commas between
them.  Either part of it may be missing. -/
def groupedForm : Form := .any [
  .all [.opt (.char fun c => c == '+' || c == '-'), .any [digits 1, digits 2, digits 3], moreGroups,
    .opt (.andThen (.lit '.') (.many Char.isDigit))],
  .opt (.andThen (.lit '.') (.some1 Char.isDigit))]

/-- A line feed at the end of a number in groups does not make a difference. -/
def isGrouped (s : List Char) : Bool := groupedForm.covers (Text.dropFeed s)

/-- A numeral of a binary64 number.  The longer words for infinities are none, and neither are
numerals beyond the range of the format. -/
def isReal (s : List Char) : Bool :=
  match Numeral.readReal? s with
  | none => false
  | some x => x.toRat?.isSome || String.ofList (s.map Char.toLower) ∈ ["inf", "-inf", "nan"]

/-- The kind of a text that is shown: one that reads as a number counts as the number. -/
def ofShown (s : Text) : ColumnKind :=
  if s.isEmpty then blank
  else if s = "True" ∨ s = "False" then truth
  else
    match s.chars? with
    | none => text
    | some cs =>
      let grouped := isGrouped cs
      if (Numeral.readInt? 10 cs).isSome || (grouped && '.' ∉ cs) then whole
      else if isReal cs || grouped then real
      else text

def ofCell : Value → ColumnKind
  | .null => blank
  | .bool _ => truth
  | .num (.int _) => whole
  | .num (.real _) => real
  | .str s => ofShown (Text.stripEscapes s)
  | _ => text

/-- The kind of a column of cells; one of blank cells alone counts as truth values. -/
def ofCells (cells : List Value) : ColumnKind := (cells.map ofCell).foldl join truth

def isNumeric (k : ColumnKind) : Bool := k = whole || k = real

/-! ## Texts of cells -/

private def isDigitPoint : CodePoint → Bool := CodePoint.holds Char.isDigit

/-- A code point that is written with a backslash where a text has to be plain. -/
private def needsEscape : CodePoint → Bool
  | .char c => c.toNat < 0x20 || 0x7F ≤ c.toNat || c == '\\'
  | .surrogate _ => true

/-- Digits behind a control with one number and before something to be escaped: the same without
zeros in front of the digits. -/
def colouredDigits? (s : Text) : Option Text := do
  let .char '\x1b' :: .char '[' :: s := s | none
  let colour := s.takeWhile isDigitPoint
  let final :: s := s.drop colour.length | none
  if colour.isEmpty || !(final.holds fun c => c == 'm' || c == 'M') then none
  let number := s.takeWhile isDigitPoint
  let rest := s.drop number.length
  if number.isEmpty || !((rest.head?.map needsEscape).getD false) then none
  let value := Numeral.ofDigits 10 (number.map fun d => d.code - '0'.toNat)
  return "\x1b[" ++ colour ++ [final] ++ toString value ++ rest

/-- The text of a whole number.  What stands before coloured digits is left out. -/
def wholeText (s : Text) : Text :=
  let rec search : Text → Option Text
    | [] => none
    | c :: rest => (colouredDigits? (c :: rest)).or (search rest)
  (search s).getD s

/-- Only an escape has anything left out before it. -/
theorem wholeText_eq_self {s : Text} (h : Text.escapeMark ∉ s) : wholeText s = s := by
  have hsearch : ∀ s : Text, Text.escapeMark ∉ s → wholeText.search s = none := by
    intro s
    induction s with
    | nil => exact fun _ => rfl
    | cons c rest ih =>
      intro hs
      have hc : c ≠ Text.escapeMark := fun heq => hs (heq ▸ List.mem_cons_self)
      have hnone : colouredDigits? (c :: rest) = none := by
        unfold colouredDigits?
        split
        · next heq => exact absurd (List.cons.inj heq).1 hc
        · rfl
      rw [wholeText.search, hnone, ih fun hmem => hs (List.mem_cons_of_mem c hmem)]
      rfl
  rw [wholeText, hsearch s h]
  rfl

/-- The number of a text in a column of numbers, set anew. -/
def realFrom (s : Text) : Except Failure Text :=
  match s.chars?.bind Numeral.readReal? with
  | some x => .ok x.generalText
  | none => .error (.badReal s)

/-- The text of a number.  Where a table has escapes its numbers must not have commas, and what is
not shown stays around the number. -/
def realText (escapes : Bool) (s : Text) : Except Failure Text :=
  if escapes then do
    let shown := Text.stripEscapes s
    return Text.replaceAll shown (← realFrom shown) s
  else realFrom (s.filter (· ≠ .char ','))

/-- The text of a cell in a column of this kind, in a table with or without escapes. -/
def cellText (escapes : Bool) (k : ColumnKind) (cell : Value) : Except Failure Text :=
  match cell, k with
  | .null, _ | .str [], _ => .ok []
  | .str s, whole => .ok (wholeText s)
  | .str s, real => realText escapes s
  | cell, real => do return (← (← cell.number).asReal).generalText
  | cell, _ => cell.written

end ColumnKind

namespace TextTable

/-! ## Widths -/

/-- How the cells of a table are set: whether some have escapes, and whether some have several
lines. -/
structure Setting where
  escapes : Bool
  broken : Bool
  deriving DecidableEq, Repr

private def isBreak (c : CodePoint) : Bool := c.holds fun c => c == '\n' || c == '\r'

def Setting.ofRows (headers : List Text) (rows : List (List Value)) : Setting :=
  let texts := headers ++ rows.flatten.map Value.text
  { escapes := Text.hasEscape (Text.joined "\t" texts)
    broken := texts.any fun s => s.any isBreak }

theorem Setting.broken_ofRows {headers : List Text} {rows : List (List Value)}
    (h : ∀ s ∈ headers ++ rows.flatten.map Value.text, .char '\n' ∉ s ∧ .char '\r' ∉ s) :
    (Setting.ofRows headers rows).broken = false := by
  have hbreak : ∀ s ∈ headers ++ rows.flatten.map Value.text, ¬s.any isBreak = true := by
    intro s hs hany
    obtain ⟨c, hc, hbreak⟩ := List.any_eq_true.1 hany
    cases c with
    | surrogate i => cases hbreak
    | char c =>
      rcases Bool.or_eq_true_iff.1 hbreak with hfeed | hreturn
      · exact (h s hs).1 (beq_iff_eq.1 hfeed ▸ hc)
      · exact (h s hs).2 (beq_iff_eq.1 hreturn ▸ hc)
  exact List.any_eq_false.2 hbreak

/-- The code points of a text that are shown. -/
def shownLength (o : Setting) (s : Text) : Nat :=
  if o.escapes then (Text.stripEscapes s).length else s.length

/-- The pieces of a text between line breaks, of which a pair counts as two. -/
def pieces (s : Text) : List Text := Text.splitBy isBreak s

/-- The width of a cell: that of its longest piece. -/
def cellWidth (o : Setting) (s : Text) : Nat :=
  if o.broken then ((pieces s).map (shownLength o)).foldl max 0 else shownLength o s

/-- A text filled up with blanks to a length. -/
def fill (numeric : Bool) (length : Nat) (s : Text) : Text :=
  let gap := Text.blanks (length - s.length)
  if numeric then gap ++ s else s ++ gap

/-- The length at which a text has a width. -/
def lengthFor (o : Setting) (width : Nat) (s : Text) : Nat :=
  width + (s.length - shownLength o s)

/-- A cell set in a width.  Where a table has escapes, every line is set by the piece of the same
index, and a line without one is lost. -/
def setCell (o : Setting) (numeric : Bool) (width : Nat) (s : Text) : Text :=
  if !o.broken then fill numeric (lengthFor o width s) s
  else if o.escapes then
    Text.joined "\n" (((Text.splitLines s).zip (pieces s)).map fun (line, piece) =>
      fill numeric (lengthFor o width piece) line)
  else Text.joined "\n" ((Text.splitLines s).map (fill numeric width))

/-! ## Points -/

/-- The code points of a text behind the last one that satisfies a test. -/
private def lengthBehind? (p : Char → Bool) (s : Text) : Option Nat :=
  if s.any (·.holds p) then some (s.reverse.takeWhile fun c => !c.holds p).length else none

/-- The characters behind the point of a number, or behind the mark of its exponent if it has no
point; a text without either has none. -/
def fractionLength? (s : Text) : Option Nat :=
  let shown := Text.stripEscapes s
  if ColumnKind.ofShown shown ≠ .real then none
  else (lengthBehind? (· == '.') shown).or (lengthBehind? (fun c => c == 'e' || c == 'E') shown)

/-- Blanks behind the cells so that their points are below one another. -/
def alignPoints (cells : List Text) : List Text :=
  let places (s : Text) : Nat := ((fractionLength? s).map (· + 1)).getD 0
  let most := (cells.map places).foldl max 0
  cells.map fun s => s ++ Text.blanks (most - places s)

/-! ## Columns and rows -/

/-- A column of a table: the width, the header and the cells. -/
structure Column where
  width : Nat
  header : Text
  cells : List Text

/-- A column set under a header of one line. -/
def setColumn (o : Setting) (header : Text) (cells : List Value) : Except Failure Column := do
  let kind := ColumnKind.ofCells cells
  let texts ← cells.mapM (kind.cellText o.escapes)
  let texts := if kind.isNumeric then alignPoints texts else texts
  let width := (texts.map (cellWidth o)).foldl max (shownLength o header + 2)
  let cells := texts.map (setCell o kind.isNumeric width)
  let width := (cells.map (cellWidth o)).foldl max width
  return { width, header := fill kind.isNumeric (lengthFor o width header) header, cells }

/-- The lines of one row from its cells, which are filled up with blank lines. -/
def setRow (o : Setting) (cells : List (Nat × Text)) : List Text :=
  let lines := cells.map fun (width, s) => (width, if o.broken then Text.splitLines s else [s])
  let height := (lines.map fun (_, lines) => lines.length).foldl max 0
  (List.range height).map fun i => Text.stripRight (Text.joined "  "
    (lines.map fun (width, lines) => (lines[i]?).getD (Text.blanks width)))

/-- The mark of a rule, blanks around it left out. -/
private def isRuleMark : Value → Bool
  | .str s => Text.strip s == "\x01"
  | _ => false

/-- A row that stands for a rule: one of its first two cells is the mark of one. -/
def isRule (row : List Value) : Bool := (row.take 2).any isRuleMark

/-- A row without the character that marks a rule stands for itself. -/
theorem isRule_eq_false {row : List Value} (h : ∀ s, .str s ∈ row → .char '\x01' ∉ s) :
    isRule row = false := by
  refine List.any_eq_false.2 fun cell hcell hmark => ?_
  cases cell with
  | str s =>
    have hstrip : Text.strip s = ("\x01" : Text) := beq_iff_eq.1 hmark
    have hmem : CodePoint.char '\x01' ∈ Text.strip s := hstrip ▸ List.mem_cons_self
    rw [Text.strip, Text.stripRight, Text.dropRight, List.mem_reverse] at hmem
    have hmem' := (List.dropWhile_sublist _).subset hmem
    rw [List.mem_reverse] at hmem'
    exact h s (List.mem_of_mem_take hcell) ((List.dropWhile_sublist _).subset hmem')
  | _ => cases hmark

/-- The lines of the rows in their order, given the lines of a rule and those of all other
rows. -/
def arrange (rule : List Text) : List (List Value) → List (List Text) → List Text
  | [], _ => []
  | row :: rows, set =>
    if isRule row then rule ++ arrange rule rows set
    else (set.head?.getD []) ++ arrange rule rows set.tail

/-- The lines of a table whose rows have a cell for every header. -/
def lines (headers : List Text) (rows : List (List Value)) : Except Failure (List Text) := do
  let cellRows := rows.filter (!isRule ·)
  if !cellRows.flatten.all Value.isWritable then throw .longNumber
  let o := Setting.ofRows headers cellRows
  let columns ← (headers.mapIdx fun i header =>
    setColumn o header (cellRows.map fun row => (row[i]?).getD .null)).mapM id
  let set := (List.range cellRows.length).map fun i =>
    setRow o (columns.map fun c => (c.width, (c.cells[i]?).getD []))
  let rule := [Text.stripRight (Text.joined "  "
    (columns.map fun c => List.replicate c.width (.char '-')))]
  return setRow o (columns.map fun c => (c.width, c.header)) ++ rule ++ arrange rule rows set

def render (headers : List Text) (rows : List (List Value)) : Except Failure Text := do
  return Text.joined "\n" (← lines headers rows)

end TextTable

end RegisterLayout
