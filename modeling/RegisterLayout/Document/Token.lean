import RegisterLayout.Document.Scalar

/-!
# Tokens of a document

A document is a sequence of tokens: scalars, properties and indicators, and the begin and the end
of every block, which its indentation tells.  A key without a mark is known only at the colon
behind it, and its tokens are then put in before it; until then it is remembered, with one
candidate for every level of brackets.

Principal definitions: `Token`, `TokenReader`, `TokenList.ofText`.
-/

namespace RegisterLayout.Document

inductive Directive where
  | version (major : Nat)
  | tagHandle (handle replacement : String)
  | unknown
  deriving DecidableEq, Repr

inductive TokenKind where
  | endOfText
  | directive (d : Directive)
  | documentStart
  | documentEnd
  | blockSequenceStart
  | blockMappingStart
  | blockEnd
  | flowSequenceStart
  | flowSequenceEnd
  | flowMappingStart
  | flowMappingEnd
  | blockEntry
  | flowEntry
  | key
  | value
  | alias (name : String)
  | anchor (name : String)
  | tag (handle : Option String) (suffix : String)
  | scalar (text : Text) (plain : Bool)
  deriving DecidableEq, Inhabited, Repr

/-- A token with the offsets at which it starts and stops. -/
structure Token where
  kind : TokenKind
  start : Nat
  stop : Nat
  deriving Inhabited, Repr

/-- A token that could turn out to be a key: how many tokens precede it, and where it is. -/
structure KeyCandidate where
  index : Nat
  offset : Nat
  line : Nat
  column : Nat
  required : Bool
  deriving Repr

/-- The longest key without a mark. -/
def maxKeyLength : Nat := 1024

/-- A candidate on an earlier line, or too far back, is none any more. -/
def KeyCandidate.isStale (k : KeyCandidate) (c : Cursor) : Bool :=
  k.line != c.line || maxKeyLength < c.offset - k.offset

/-- The reading of tokens under way. -/
structure TokenReader where
  cursor : Cursor
  /-- The tokens read so far, the latest first, and their count. -/
  tokens : List Token := []
  count : Nat := 0
  /-- The indentation of the current block, and of those around it. -/
  indent : Int := -1
  outerIndents : List Int := []
  keyAllowed : Bool := true
  /-- The candidates for a key, of the innermost level of brackets first. -/
  candidate : Option KeyCandidate := none
  outerCandidates : List (Option KeyCandidate) := []
  /-- The end of the text has been read. -/
  ended : Bool := false

/-! ## Words of tokens -/

namespace Cursor

def isWordChar (x : Char) : Bool := x.isAlphanum || x == '-' || x == '_'

/-- A name of letters, digits, dashes and underscores. -/
def word (c : Cursor) : Except Failure (String × Cursor) :=
  let (name, c) := c.span isWordChar
  if name.isEmpty then .error .malformedText else .ok (String.ofList name, c)

/-- The name of an anchor or an alias, behind its indicator. -/
def anchorName (c : Cursor) : Except Failure (String × Cursor) := do
  let (name, c) ← c.next.word
  if isBlankOrEnd c.peek || c.peek ∈ ['?', ':', ',', ']', '}', '%', '@', '`'] then
    return (name, c)
  throw .malformedText

def isUriChar (x : Char) : Bool :=
  x.isAlphanum || x ∈ "-;/?:@&=+$,_.!~*'()[]".toList

def escapedBytes : Nat → Cursor → Except Failure (List UInt8 × Cursor)
  | 0, c => .ok ([], c)
  | fuel + 1, c =>
    if c.peek = '%' then
      match c.next.hexNumber? 2 with
      | none => .error .malformedText
      | some n => do
        let (bytes, c) ← escapedBytes fuel (advance 3 c)
        return (n.toUInt8 :: bytes, c)
    else .ok ([], c)

/-- The characters of a tag, percent escapes being bytes of the encoded text. -/
def uriFrom : Nat → Cursor → Except Failure (String × Cursor)
  | 0, c => .ok ("", c)
  | fuel + 1, c =>
    if c.peek = '%' then do
      let (bytes, c) ← escapedBytes (c.rest.length + 1) c
      match String.fromUTF8? ⟨bytes.toArray⟩ with
      | none => throw .malformedText
      | some text =>
        let (more, c) ← uriFrom fuel c
        return (text ++ more, c)
    else if isUriChar c.peek then do
      let (text, c) := c.span isUriChar
      let (more, c) ← uriFrom fuel c
      return (String.ofList text ++ more, c)
    else .ok ("", c)

def uri (c : Cursor) : Except Failure (String × Cursor) :=
  if isUriChar c.peek || c.peek == '%' then uriFrom (c.rest.length + 1) c
  else .error .malformedText

/-- A handle between exclamation marks, or one of them alone before a space. -/
def tagHandle (c : Cursor) : Except Failure (String × Cursor) := do
  if c.peek ≠ '!' then throw .malformedText
  if c.peekAt 1 = ' ' then return ("!", c.next)
  let (name, c) := c.next.span isWordChar
  if c.peek ≠ '!' then throw .malformedText
  return (String.ofList ('!' :: name ++ ['!']), c.next)

/-- A handle as it stands in a tag, where a single mark needs no space behind it. -/
def handleInTag (c : Cursor) : Except Failure (String × Cursor) :=
  let ahead := (c.rest.drop 1).takeWhile fun x => !isSpaceOrEnd x
  if '!' ∈ ahead then c.tagHandle else .ok ("!", c.next)

/-- A tag, the cursor being at its mark. -/
def tag (c : Cursor) : Except Failure (TokenKind × Cursor) := do
  let (kind, c) ←
    if c.peekAt 1 = '<' then do
      let (name, c) ← (advance 2 c).uri
      if c.peek ≠ '>' then throw .malformedText
      pure (TokenKind.tag none name, c.next)
    else if isBlankOrEnd (c.peekAt 1) then pure (TokenKind.tag none "!", c.next)
    else do
      let (handle, c) ← c.handleInTag
      let (suffix, c) ← c.uri
      pure (TokenKind.tag (some handle) suffix, c)
  if !isSpaceOrEnd c.peek then throw .malformedText
  return (kind, c)

/-- A decimal number in a directive. -/
def versionNumber (c : Cursor) : Except Failure (Nat × Cursor) :=
  let (digits, c) := c.span Char.isDigit
  if digits.isEmpty then .error .malformedText
  else if Number.maxDigits < digits.length then .error (.longNumeral digits.length)
  else .ok (digits.foldl (fun n d => n * 10 + (d.toNat - '0'.toNat)) 0, c)

def versionDirective (c : Cursor) : Except Failure (Directive × Cursor) := do
  let (major, c) ← (c.skip (· == ' ')).versionNumber
  if c.peek ≠ '.' then throw .malformedText
  let (_, c) ← c.next.versionNumber
  if !isSpaceOrEnd c.peek then throw .malformedText
  return (.version major, c)

def tagDirective (c : Cursor) : Except Failure (Directive × Cursor) := do
  let (handle, c) ← (c.skip (· == ' ')).tagHandle
  if c.peek ≠ ' ' then throw .malformedText
  let (replacement, c) ← (c.skip (· == ' ')).uri
  if !isSpaceOrEnd c.peek then throw .malformedText
  return (.tagHandle handle replacement, c)

/-- A directive and its line, the cursor being at its mark. -/
def directive (c : Cursor) : Except Failure (Directive × Cursor) := do
  let (name, c) ← c.next.word
  if !isSpaceOrEnd c.peek then throw .malformedText
  let (d, c) ←
    if name = "YAML" then c.versionDirective
    else if name = "TAG" then c.tagDirective
    else pure (.unknown, c.skip (!isBreakOrEnd ·))
  return (d, ← c.ignoredLine)

end Cursor

namespace TokenReader

open Cursor

def inFlow (r : TokenReader) : Bool := !r.outerCandidates.isEmpty

def push (r : TokenReader) (kind : TokenKind) (start stop : Nat) : TokenReader :=
  { r with tokens := ⟨kind, start, stop⟩ :: r.tokens, count := r.count + 1 }

/-- A token of no length at the cursor. -/
def pushMark (r : TokenReader) (kind : TokenKind) : TokenReader :=
  r.push kind r.cursor.offset r.cursor.offset

/-- A token that ends at the cursor given. -/
def pushTo (r : TokenReader) (kind : TokenKind) (c : Cursor) : TokenReader :=
  { r.push kind r.cursor.offset c.offset with cursor := c }

/-- A token put in before those from an index on. -/
def insert (r : TokenReader) (index : Nat) (kind : TokenKind) (offset : Nat) : TokenReader :=
  { r with
    tokens := r.tokens.insertIdx (r.count - index) ⟨kind, offset, offset⟩
    count := r.count + 1 }

/-! ## Indentation -/

/-- Ends every block that is indented more than a column. -/
def unindentFrom (column : Int) : List Int → TokenReader → TokenReader
  | [], r => r
  | outer :: outers, r =>
    if column < r.indent then
      unindentFrom column outers
        { r.pushMark .blockEnd with indent := outer, outerIndents := outers }
    else r

def unindent (r : TokenReader) (column : Int) : TokenReader :=
  if r.inFlow then r else unindentFrom column r.outerIndents r

/-- A block that begins at a column, if it is indented more than the one around it. -/
def opensBlock (r : TokenReader) (column : Nat) : Bool := r.indent < column

def openBlock (r : TokenReader) (column : Nat) : TokenReader :=
  { r with indent := column, outerIndents := r.indent :: r.outerIndents }

/-! ## Candidates for keys -/

/-- The candidate of the current level given up, which must not be a required key. -/
def dropCandidate (r : TokenReader) : Except Failure TokenReader :=
  match r.candidate with
  | some k => if k.required then .error .malformedText else .ok { r with candidate := none }
  | none => .ok r

/-- The next token may be a key. -/
def saveCandidate (r : TokenReader) : Except Failure TokenReader := do
  if !r.keyAllowed then return r
  let required := !r.inFlow && r.indent == (r.cursor.column : Int)
  let r ← r.dropCandidate
  let c := r.cursor
  return { r with candidate := some ⟨r.count, c.offset, c.line, c.column, required⟩ }

def keepCandidate (c : Cursor) : Option KeyCandidate → Except Failure (Option KeyCandidate)
  | none => .ok none
  | some k =>
    if k.isStale c then
      if k.required then .error .malformedText else .ok none
    else .ok (some k)

/-- Candidates on earlier lines or too far back are none any more. -/
def dropStale (r : TokenReader) : Except Failure TokenReader := do
  return { r with
    candidate := ← keepCandidate r.cursor r.candidate
    outerCandidates := ← r.outerCandidates.mapM (keepCandidate r.cursor) }

/-! ## Reading one token -/

/-- Past blanks, comments and line breaks; a new line outside of brackets allows a key. -/
def skipToToken : Nat → TokenReader → TokenReader
  | 0, r => r
  | fuel + 1, r =>
    let c := r.cursor.skip (· == ' ')
    let c := if c.peek = '#' then c.skip (!isBreakOrEnd ·) else c
    match c.takeBreak with
    | (none, _) => { r with cursor := c }
    | (some _, c) =>
      skipToToken fuel { r with cursor := c, keyAllowed := r.keyAllowed || !r.inFlow }

/-- Ends every block and gives up the candidate, before a directive or a document marker. -/
def closeBlocks (r : TokenReader) : Except Failure TokenReader := do
  let r ← (r.unindent (-1)).dropCandidate
  return { r with keyAllowed := false }

def readEnd (r : TokenReader) : Except Failure TokenReader := do
  return { (← r.closeBlocks).pushMark .endOfText with ended := true }

def readDirective (r : TokenReader) : Except Failure TokenReader := do
  let r ← r.closeBlocks
  let (d, c) ← r.cursor.directive
  return r.pushTo (.directive d) c

def readMarker (r : TokenReader) (kind : TokenKind) : Except Failure TokenReader := do
  let r ← r.closeBlocks
  return r.pushTo kind (advance 3 r.cursor)

def readFlowStart (r : TokenReader) (kind : TokenKind) : Except Failure TokenReader := do
  let r ← r.saveCandidate
  let r := r.pushTo kind r.cursor.next
  return { r with
    candidate := none, outerCandidates := r.candidate :: r.outerCandidates, keyAllowed := true }

/-- A closing bracket, which needs an opening one before it. -/
def readFlowEnd (r : TokenReader) (kind : TokenKind) : Except Failure TokenReader := do
  let r ← r.dropCandidate
  match r.outerCandidates with
  | [] => throw .malformedText
  | outer :: outers =>
    return { r.pushTo kind r.cursor.next with
      candidate := outer, outerCandidates := outers, keyAllowed := false }

def readFlowEntry (r : TokenReader) : Except Failure TokenReader := do
  let r ← r.dropCandidate
  return { r.pushTo .flowEntry r.cursor.next with keyAllowed := true }

/-- Opens a block at the cursor if the indicator there is indented more than the current one. -/
def openAt (r : TokenReader) (kind : TokenKind) : Except Failure TokenReader := do
  if r.inFlow then return r
  if !r.keyAllowed then throw .malformedText
  if r.opensBlock r.cursor.column then
    return (r.openBlock r.cursor.column).pushMark kind
  return r

def readBlockEntry (r : TokenReader) : Except Failure TokenReader := do
  let r ← (← r.openAt .blockSequenceStart).dropCandidate
  return { r.pushTo .blockEntry r.cursor.next with keyAllowed := true }

/-- A question mark before a key. -/
def readKey (r : TokenReader) : Except Failure TokenReader := do
  let r ← (← r.openAt .blockMappingStart).dropCandidate
  return { r.pushTo .key r.cursor.next with keyAllowed := !r.inFlow }

/-- A colon before a value.  A candidate before it becomes the key, and begins a block if it is
indented more than the current one. -/
def readValue (r : TokenReader) : Except Failure TokenReader := do
  match r.candidate with
  | some k =>
    let r := { r with candidate := none }.insert k.index .key k.offset
    let r := if !r.inFlow && r.opensBlock k.column
      then (r.openBlock k.column).insert k.index .blockMappingStart k.offset else r
    return { r.pushTo .value r.cursor.next with keyAllowed := false }
  | none =>
    let r ← r.openAt .blockMappingStart
    return { r.pushTo .value r.cursor.next with keyAllowed := !r.inFlow }

/-- A token that may be a key, with the cursor behind it and whether a key may follow. -/
def readKeyable (r : TokenReader)
    (read : Cursor → Except Failure (TokenKind × Bool × Cursor)) : Except Failure TokenReader := do
  let r ← r.saveCandidate
  let (kind, keyAllowed, c) ← read r.cursor
  return { r.pushTo kind c with keyAllowed }

def readAlias (r : TokenReader) : Except Failure TokenReader :=
  r.readKeyable fun c => do
    let (name, c) ← c.anchorName
    return (.alias name, false, c)

def readAnchor (r : TokenReader) : Except Failure TokenReader :=
  r.readKeyable fun c => do
    let (name, c) ← c.anchorName
    return (.anchor name, false, c)

def readTag (r : TokenReader) : Except Failure TokenReader :=
  r.readKeyable fun c => do
    let (kind, c) ← c.tag
    return (kind, false, c)

def readQuoted (r : TokenReader) (double : Bool) : Except Failure TokenReader :=
  r.readKeyable fun c => do
    let (text, c) ← c.quotedScalar double
    return (.scalar text false, false, c)

def readPlain (r : TokenReader) : Except Failure TokenReader :=
  r.readKeyable fun c =>
    let (text, keyAllowed, c) := c.plainScalar r.inFlow (r.indent + 1)
    .ok (.scalar (Text.ofChars text) true, keyAllowed, c)

def readBlockScalar (r : TokenReader) (folded : Bool) : Except Failure TokenReader := do
  let r ← r.dropCandidate
  let (text, c) ← r.cursor.blockScalar folded r.indent
  return { r.pushTo (.scalar (Text.ofChars text) false) c with keyAllowed := true }

/-- Characters that begin no plain scalar. -/
def indicators : List Char := "-?:,[]{}#&*!|>'\"%@`".toList

/-- A plain scalar begins at the cursor. -/
def startsPlain (r : TokenReader) : Bool :=
  let x := r.cursor.peek
  (!isBlankOrEnd x && x ∉ indicators)
    || (!isBlankOrEnd (r.cursor.peekAt 1) && (x == '-' || (!r.inFlow && (x == '?' || x == ':'))))

/-- The token at the cursor, which is not the end. -/
def readToken (r : TokenReader) : Except Failure TokenReader :=
  let c := r.cursor
  let x := c.peek
  let alone := isBlankOrEnd (c.peekAt 1)
  if c.column = 0 ∧ x = '%' then r.readDirective
  else if c.column = 0 ∧ c.atMarker '-' then r.readMarker .documentStart
  else if c.column = 0 ∧ c.atMarker '.' then r.readMarker .documentEnd
  else if x = '[' then r.readFlowStart .flowSequenceStart
  else if x = '{' then r.readFlowStart .flowMappingStart
  else if x = ']' then r.readFlowEnd .flowSequenceEnd
  else if x = '}' then r.readFlowEnd .flowMappingEnd
  else if x = ',' then r.readFlowEntry
  else if x = '-' ∧ alone then r.readBlockEntry
  else if x = '?' ∧ (r.inFlow ∨ alone) then r.readKey
  else if x = ':' ∧ (r.inFlow ∨ alone) then r.readValue
  else if x = '*' then r.readAlias
  else if x = '&' then r.readAnchor
  else if x = '!' then r.readTag
  else if x = '|' ∧ !r.inFlow then r.readBlockScalar false
  else if x = '>' ∧ !r.inFlow then r.readBlockScalar true
  else if x = '\'' then r.readQuoted false
  else if x = '"' then r.readQuoted true
  else if r.startsPlain then r.readPlain
  else .error .malformedText

/-- The next token, or the end behind the last one. -/
def readNext (r : TokenReader) : Except Failure TokenReader := do
  let r ← (skipToToken (r.cursor.rest.length + 1) r).dropStale
  let r := r.unindent r.cursor.column
  if r.cursor.rest.isEmpty then r.readEnd else r.readToken

/-- How many tokens are known for certain: those before the first candidate for a key, in front of
which another token may have to be put. -/
def certain (r : TokenReader) : Nat :=
  let candidates := (r.candidate :: r.outerCandidates).filterMap id
  (candidates.filter fun k => !k.isStale r.cursor).foldl (fun n k => min n k.index) r.count

/-- All tokens up to the end of the text, of which each token takes some, or up to a fault. -/
def readAll : Nat → TokenReader → TokenReader × Option (Nat × Failure)
  | 0, r => (r, some (r.certain, .malformedText))
  | fuel + 1, r =>
    match r.readNext with
    | .error e => (r, some (r.certain, e))
    | .ok next => if next.ended then (next, none) else readAll fuel next

end TokenReader

/-- The tokens of a text.  Where the text has a fault there are those before it, and with the
failure comes the count of the tokens that can be used before it shows. -/
structure TokenList where
  tokens : List Token
  fault : Option (Nat × Failure) := none

/-- The tokens of a text. -/
def TokenList.ofText (text : List Char) : TokenList :=
  if !text.all isAdmitted then { tokens := [], fault := some (0, .malformedText) }
  else
    let cursor : Cursor := ⟨text, 0, {}⟩
    let cursor := if text.head? = some byteOrderMark then cursor.next else cursor
    let (r, fault) := TokenReader.readAll (text.length + 1) { cursor }
    { tokens := r.tokens.reverse, fault }

end RegisterLayout.Document
