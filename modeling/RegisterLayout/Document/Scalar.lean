import RegisterLayout.Document.Source
import RegisterLayout.Failure

/-!
# Scalars of a document

A scalar is written plain, between quotes, or as a block of lines.  A line break within one is
folded into a space, further breaks are kept; a block keeps its lines or folds them, and its
header says what becomes of the breaks at its end.

Principal definitions: `Cursor.plainScalar`, `Cursor.quotedScalar`, `Cursor.blockScalar`.
-/

namespace RegisterLayout.Document

/-- What a line break and the empty lines behind it become: a single one is a space. -/
def foldBreak (first : Char) (more : List Char) : List Char :=
  if first ≠ '\n' then first :: more else if more.isEmpty then [' '] else more

namespace Cursor

/-! ## Plain scalars -/

/-- The characters of a plain scalar up to a blank or an indicator. -/
def plainChars (inFlow : Bool) : List Char → List Char
  | [] => []
  | c :: rest =>
    let follower := rest.head?.getD endMark
    let endsKey := c == ':'
      && (isBlankOrEnd follower || (inFlow && follower ∈ [',', '[', ']', '{', '}']))
    if isBlankOrEnd c || endsKey || (inFlow && c ∈ [',', '?', '[', ']', '{', '}']) then []
    else c :: plainChars inFlow rest

/-- The empty lines behind a line break; none if a document marker begins a line. -/
def plainBreaks : Nat → Cursor → Option (List Char) × Cursor
  | 0, c => (some [], c)
  | fuel + 1, c =>
    if c.peek = ' ' then plainBreaks fuel c.next
    else
      match c.takeBreak with
      | (none, _) => (some [], c)
      | (some b, c) =>
        if c.atDocumentMarker then (none, c)
        else
          let (breaks, c) := plainBreaks fuel c
          (breaks.map (b :: ·), c)

/-- What separates two parts of a plain scalar, whether a line ended, and the cursor behind. -/
def plainGap (c : Cursor) : List Char × Bool × Cursor :=
  let (spaces, c) := c.span (· == ' ')
  match c.takeBreak with
  | (none, _) => (spaces, false, c)
  | (some b, c) =>
    if c.atDocumentMarker then ([], true, c)
    else
      match plainBreaks c.rest.length c with
      | (some breaks, c) => (foldBreak b breaks, true, c)
      | (none, c) => ([], true, c)

/-- A plain scalar from the cursor on, `gap` standing before its next part.  With the text comes
whether a key may follow, which is so on a new line. -/
def plainFrom (inFlow : Bool) (indent : Int) :
    Nat → List Char → Bool → Cursor → List Char × Bool × Cursor
  | 0, _, keyAllowed, c => ([], keyAllowed, c)
  | fuel + 1, gap, keyAllowed, c =>
    let part := if c.peek = '#' then [] else plainChars inFlow c.rest
    if part.isEmpty then ([], keyAllowed, c)
    else
      let (nextGap, lineEnded, c) := (advance part.length c).plainGap
      if nextGap.isEmpty || c.peek == '#' || (!inFlow && (c.column : Int) < indent) then
        (gap ++ part, lineEnded, c)
      else
        let (text, keyAllowed, c) := plainFrom inFlow indent fuel nextGap lineEnded c
        (gap ++ part ++ text, keyAllowed, c)

def plainScalar (c : Cursor) (inFlow : Bool) (indent : Int) : List Char × Bool × Cursor :=
  plainFrom inFlow indent (c.rest.length + 1) [] false c

/-! ## Quoted scalars -/

/-- Characters that stand for another one behind a backslash. -/
def escapes : List (Char × Char) := [
  ('0', '\x00'), ('a', '\x07'), ('b', '\x08'), ('t', '\t'), ('\t', '\t'), ('n', '\n'),
  ('v', '\x0b'), ('f', '\x0c'), ('r', '\r'), ('e', '\x1b'), (' ', ' '), ('"', '"'),
  ('\\', '\\'), ('/', '/'), ('N', '\x85'), ('_', '\xa0'), ('L', '\u2028'), ('P', '\u2029')]

/-- The digits of a code point behind a backslash and a letter. -/
def codeLength? (c : Char) : Option Nat :=
  [('x', 2), ('u', 4), ('U', 8)].lookup c

def hexDigit? (c : Char) : Option Nat :=
  if c.isDigit then some (c.toNat - '0'.toNat)
  else if 'a' ≤ c ∧ c ≤ 'f' then some (c.toNat - 'a'.toNat + 10)
  else if 'A' ≤ c ∧ c ≤ 'F' then some (c.toNat - 'A'.toNat + 10)
  else none

/-- The number written in the next `count` hexadecimal digits. -/
def hexNumber? (c : Cursor) (count : Nat) : Option Nat := do
  let digits ← (c.rest.take count).mapM hexDigit?
  if digits.length = count then some (digits.foldl (fun n d => n * 16 + d) 0) else none

/-- The first number that is no code point and does not even fit where one is asked for. -/
def codeLimit : Nat := Nat.pow 2 31

/-- The escaped code point whose number is written behind the cursor's letter. -/
def escapedCode (c : Cursor) (count : Nat) : Except Failure (CodePoint × Cursor) :=
  match c.hexNumber? count with
  | none => .error .malformedText
  | some n =>
    match CodePoint.ofNat? n with
    | some x => .ok (x, advance count c)
    | none => .error (if n < codeLimit then .noSuchCharacter else .overflow)

/-- The empty lines within quotes; a document marker must not begin a line. -/
def quotedBreaks : Nat → Cursor → Except Failure (List Char × Cursor)
  | 0, c => .ok ([], c)
  | fuel + 1, c =>
    if c.atDocumentMarker then .error .malformedText
    else
      let c := c.skip fun x => x == ' ' || x == '\t'
      match c.takeBreak with
      | (none, _) => .ok ([], c)
      | (some b, c) => do
        let (breaks, c) ← quotedBreaks fuel c
        return (b :: breaks, c)

/-- Blanks and line breaks within quotes. -/
def quotedGap (c : Cursor) : Except Failure (List Char × Cursor) :=
  let (blanks, c) := c.span fun x => x == ' ' || x == '\t'
  match c.takeBreak with
  | (none, _) => .ok (blanks, c)
  | (some b, c) => do
    let (breaks, c) ← quotedBreaks (c.rest.length + 1) c
    return (foldBreak b breaks, c)

/-- What a backslash and the characters behind it stand for, the cursor being behind it. -/
def escape (c : Cursor) : Except Failure (Text × Cursor) :=
  match escapes.lookup c.peek, codeLength? c.peek with
  | some x, _ => .ok ([.char x], c.next)
  | none, some count => do
    let (x, c) ← c.next.escapedCode count
    return ([x], c)
  | none, none =>
    match c.takeBreak with
    | (none, _) => .error .malformedText
    | (some _, c) => do
      let (breaks, c) ← quotedBreaks (c.rest.length + 1) c
      return (Text.ofChars breaks, c)

/-- The text up to the closing quote, and the cursor behind it. -/
def quotedFrom (double : Bool) : Nat → Cursor → Except Failure (Text × Cursor)
  | 0, _ => .error .malformedText
  | fuel + 1, c =>
    let andThen (text : Text) (c : Cursor) : Except Failure (Text × Cursor) := do
      let (more, c) ← quotedFrom double fuel c
      return (text ++ more, c)
    match c.rest with
    | [] => .error .malformedText
    | x :: rest =>
      if x = (if double then '"' else '\'') then
        if !double && rest.head? = some '\'' then andThen "'" (advance 2 c)
        else .ok ([], c.next)
      else if x == ' ' || x == '\t' || isBreak x then do
        let (text, c) ← c.quotedGap
        andThen (Text.ofChars text) c
      else if double && x == '\\' then do
        let (text, c) ← c.next.escape
        andThen text c
      else andThen [.char x] c.next

/-- A quoted scalar, the cursor being at the opening quote. -/
def quotedScalar (c : Cursor) (double : Bool) : Except Failure (Text × Cursor) :=
  quotedFrom double (c.rest.length + 1) c.next

/-! ## Block scalars -/

/-- What becomes of the line breaks at the end of a block. -/
inductive Chomping where
  | strip
  | clip
  | keep
  deriving DecidableEq, Repr

private def chomping? (x : Char) : Option Chomping :=
  if x = '+' then some .keep else if x = '-' then some .strip else none

private def increment? (x : Char) : Option Nat :=
  if x.isDigit then some (x.toNat - '0'.toNat) else none

/-- Chomping and indentation in either order, behind the mark of the block. -/
def blockHeader (c : Cursor) : Except Failure (Chomping × Option Nat × Cursor) := do
  let (chomping, increment, c) := match chomping? c.peek, increment? c.peek with
    | some k, _ =>
      match increment? c.next.peek with
      | some n => (k, some n, advance 2 c)
      | none => (k, none, c.next)
    | none, some n =>
      match chomping? c.next.peek with
      | some k => (k, some n, advance 2 c)
      | none => (.clip, some n, c.next)
    | none, none => (.clip, none, c)
  if increment = some 0 || !isSpaceOrEnd c.peek then throw .malformedText
  return (chomping, increment, c)

/-- Past blanks, a comment and the end of the line, which must hold nothing else. -/
def ignoredLine (c : Cursor) : Except Failure Cursor := do
  let c := c.skip (· == ' ')
  let c := if c.peek = '#' then c.skip (!isBreakOrEnd ·) else c
  if !isBreakOrEnd c.peek then throw .malformedText
  return c.takeBreak.2

/-- The breaks of the empty lines at the start of a block, and its largest indentation there. -/
def blockIndentation : Nat → Nat → Cursor → List Char × Nat × Cursor
  | 0, deepest, c => ([], deepest, c)
  | fuel + 1, deepest, c =>
    if c.peek = ' ' then blockIndentation fuel (max deepest c.next.column) c.next
    else
      match c.takeBreak with
      | (none, _) => ([], deepest, c)
      | (some b, c) =>
        let (breaks, deepest, c) := blockIndentation fuel deepest c
        (b :: breaks, deepest, c)

/-- Past the spaces before a column. -/
def skipIndent (c : Cursor) (indent : Nat) : Cursor :=
  advance (min (indent - c.column) (c.rest.takeWhile (· == ' ')).length) c

/-- The breaks of empty lines in a block, and the cursor in the next line, at the indentation or
before it. -/
def blockBreaks (indent : Nat) : Nat → Cursor → List Char × Cursor
  | 0, c => ([], c)
  | fuel + 1, c =>
    let c := c.skipIndent indent
    match c.takeBreak with
    | (none, _) => ([], c)
    | (some b, c) =>
      let (breaks, c) := blockBreaks indent fuel c
      (b :: breaks, c)

private def isBlank (x : Char) : Bool := x == ' ' || x == '\t'

private def breakText (b : Option Char) : List Char := b.toList

/-- The lines of a block from one with text on; `breaks` are those of the empty lines before. -/
def blockLines (folded : Bool) (chomping : Chomping) (indent : Nat) :
    Nat → List Char → Cursor → List Char × Cursor
  | 0, _, c => ([], c)
  | fuel + 1, breaks, c =>
    let startsFlush := !isBlank c.peek
    let (line, c) := c.span (!isBreakOrEnd ·)
    let (ended, c) := c.takeBreak
    let (nextBreaks, c) := blockBreaks indent (c.rest.length + 1) c
    if c.column = indent ∧ !c.rest.isEmpty then
      let joint :=
        if folded && ended == some '\n' && startsFlush && !isBlank c.peek then
          if nextBreaks.isEmpty then [' '] else []
        else breakText ended
      let (more, c) := blockLines folded chomping indent fuel nextBreaks c
      (breaks ++ line ++ joint ++ more, c)
    else
      let tail := (if chomping = .strip then [] else breakText ended)
        ++ (if chomping = .keep then nextBreaks else [])
      (breaks ++ line ++ tail, c)

/-- A block scalar below a node that is indented by `parentIndent`, the cursor being at its mark. -/
def blockScalar (c : Cursor) (folded : Bool) (parentIndent : Int) :
    Except Failure (List Char × Cursor) := do
  let (chomping, increment, c) ← c.next.blockHeader
  let c ← c.ignoredLine
  let least := (max (parentIndent + 1) 1).toNat
  let (breaks, indent, c) := match increment with
    | none =>
      let (breaks, deepest, c) := blockIndentation (c.rest.length + 1) 0 c
      (breaks, max least deepest, c)
    | some n =>
      let indent := least + n - 1
      let (breaks, c) := blockBreaks indent (c.rest.length + 1) c
      (breaks, indent, c)
  if c.column = indent ∧ !c.rest.isEmpty then
    return blockLines folded chomping indent (c.rest.length + 1) breaks c
  else
    return (if chomping = .keep then breaks else [], c)

end Cursor

end RegisterLayout.Document
