import RegisterLayout.Text.CodePoint

/-!
# Forms of texts

A form is a test of a whole text, put together from forms of its parts.

Sequences that a terminal takes as orders and does not show have forms of their own: controls, such
as those for colours, and the frames of hyperlinks, of which only the text in the middle is shown.

Principal definitions: `Form`, its combinators, `Form.covers`; `escape?`, `stripEscapes`,
`hasEscape`.
-/

namespace RegisterLayout.Text

/-- Reads the beginning of a text in every way a form allows, giving what is left. -/
abbrev Form := List Char → List (List Char)

namespace Form

def char (p : Char → Bool) : Form
  | c :: rest => if p c then [rest] else []
  | [] => []

def lit (x : Char) : Form := char (· == x)

def andThen (f g : Form) : Form := fun s => (f s).flatMap g

def opt (f : Form) : Form := fun s => s :: f s

/-- Any count of characters of a class. -/
def many (p : Char → Bool) : Form
  | [] => [[]]
  | c :: rest => if p c then (c :: rest) :: many p rest else [c :: rest]

def some1 (p : Char → Bool) : Form := andThen (char p) (many p)

/-- One of several forms. -/
def any (fs : List Form) : Form := fun s => fs.flatMap fun f => f s

def all (fs : List Form) : Form := fun s => fs.foldl (fun ends f => ends.flatMap f) [s]

/-- A form once and then any number of times, at most `fuel`. -/
def repeated (f : Form) : Nat → Form
  | 0, _ => []
  | fuel + 1, s => (f s).flatMap fun rest => rest :: repeated f fuel rest

/-- The form covers a whole text. -/
def covers (f : Form) (s : List Char) : Bool := (f s).any List.isEmpty

end Form

/-! ## Terminal escapes -/

/-- The character that begins every sequence. -/
def escapeMark : CodePoint := .char '\x1b'

private def isAmong (first last : Nat) : CodePoint → Bool :=
  CodePoint.holds fun c => first ≤ c.toNat && c.toNat ≤ last

/-- What is behind a control whose opening has been read: parameters, intermediate characters and
one final character. -/
def afterControl? (s : Text) : Option Text :=
  match (s.dropWhile (isAmong 0x30 0x3F)).dropWhile (isAmong 0x20 0x2F) with
  | c :: rest => if isAmong 0x40 0x7E c then some rest else none
  | [] => none

private def isWordChar (c : Char) : Bool := c.isAlphanum || c == '_'

/-- The parameters of a hyperlink: names and values, joined by equals signs and set apart by
colons, which may be missing. -/
def linkParameters : Form := fun s =>
  let one : Form := .all [.some1 isWordChar, .lit '=', .some1 isWordChar, .opt (.lit ':')]
  Form.opt (.repeated one s.length) s

/-- The longest beginning of a text without an escape mark, if it is not empty, and the rest. -/
private def unmarked? (s : Text) : Option (Text × Text) :=
  let found := s.takeWhile (· ≠ escapeMark)
  if found.isEmpty then none else some (found, s.drop found.length)

/-- A text without the beginning given. -/
def behind? (start s : Text) : Option Text :=
  if start.isPrefixOf s then some (s.drop start.length) else none

private def terminator : Text := "\x1b\\"

/-- The text of a hyperlink whose opening has been read, and what is behind its closing. -/
def linkText? (s : Text) : Option (Text × Text) := do
  let parameters := s.takeWhile (· ≠ .char ';')
  if !satisfies linkParameters.covers parameters then none
  let s ← behind? ";" (s.drop parameters.length)
  let (_, s) ← unmarked? s
  let s ← behind? terminator s
  let (shown, s) ← unmarked? s
  let s ← behind? ("\x1b]8;;" ++ terminator) s
  return (shown, s)

/-- What is shown of a sequence at the beginning of a text, and what is behind the sequence. -/
def escape? (s : Text) : Option (Text × Text) :=
  match behind? "\x1b[" s with
  | some s => (afterControl? s).map ([], ·)
  | none => behind? "\x1b]8;" s >>= linkText?

/-- The shown text of at most `fuel` sequences and characters. -/
def stripFrom : Nat → Text → Text
  | 0, s => s
  | _, [] => []
  | fuel + 1, c :: rest =>
    match escape? (c :: rest) with
    | some (shown, rest) => shown ++ stripFrom fuel rest
    | none => c :: stripFrom fuel rest

/-- The text that a terminal shows. -/
def stripEscapes (s : Text) : Text := stripFrom s.length s

/-- There is a sequence somewhere in a text. -/
def hasEscape : Text → Bool
  | [] => false
  | c :: rest => (escape? (c :: rest)).isSome || hasEscape rest

/-! ## Replacing -/

private def replaceFrom (old new : Text) : Nat → Text → Text
  | 0, s => s
  | _, [] => []
  | fuel + 1, c :: rest =>
    match behind? old (c :: rest) with
    | some rest => new ++ replaceFrom old new fuel rest
    | none => c :: replaceFrom old new fuel rest

/-- Every occurrence of a text that is not empty replaced by another, from the left. -/
def replaceAll (old new s : Text) : Text := replaceFrom old new s.length s

end RegisterLayout.Text
