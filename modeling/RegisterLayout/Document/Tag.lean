import RegisterLayout.Text.Form
import RegisterLayout.Text.Line

/-!
# Tags of nodes

The tag of a node says what its text or its children stand for.  A plain scalar without a tag has
one by its form: the words for nothing and for truth, whole numbers in several bases, numbers with
a point, and dates.

Principal definitions: `Tag`, `Tag.ofName`, `Tag.ofPlain`.
-/

namespace RegisterLayout.Document

inductive Tag where
  | null
  | bool
  | int
  | real
  | timestamp
  | merge
  | value
  | binary
  | str
  | seq
  | map
  | set
  | omap
  | pairs
  | other (name : String)
  deriving DecidableEq, Inhabited, Repr

namespace Tag

/-- What the names of the common tags begin with. -/
def commonNames : String := "tag:yaml.org,2002:"

private def common : List (String × Tag) := [
  ("null", null), ("bool", bool), ("int", int), ("float", real), ("timestamp", timestamp),
  ("merge", merge), ("value", value), ("binary", binary), ("str", str), ("seq", seq),
  ("map", map), ("set", set), ("omap", omap), ("pairs", pairs)]

def ofName (name : String) : Tag :=
  ((common.find? fun (short, _) => commonNames ++ short == name).map Prod.snd).getD (other name)

/-! ## Forms of plain scalars -/

open Text (Form)
open Text.Form

private def digit : Char → Bool := Char.isDigit

private def digitOrGap (c : Char) : Bool := c.isDigit || c == '_'

private def sign : Form := opt (char fun c => c == '-' || c == '+')

private def digits (n : Nat) : Form := all (List.replicate n (char digit))

/-- One or two digits. -/
private def shortDigits : Form := any [digits 1, digits 2]

/-- A colon and a number below sixty. -/
private def sixtieth : Form :=
  andThen (lit ':') (andThen (opt (char fun c => '0' ≤ c && c ≤ '5')) (char digit))

private def sixtieths : Form := fun s => repeated sixtieth s.length s

private def exponent : Form :=
  all [char (fun c => c == 'e' || c == 'E'), char (fun c => c == '-' || c == '+'), some1 digit]

def intForm : Form := any [
  all [sign, lit '0', lit 'b', some1 fun c => c == '0' || c == '1' || c == '_'],
  all [sign, lit '0', some1 fun c => ('0' ≤ c && c ≤ '7') || c == '_'],
  all [sign, lit '0'],
  all [sign, char fun c => '1' ≤ c && c ≤ '9', many digitOrGap],
  all [sign, lit '0', lit 'x', some1 fun c =>
    c.isDigit || ('a' ≤ c && c ≤ 'f') || ('A' ≤ c && c ≤ 'F') || c == '_'],
  all [sign, char fun c => '1' ≤ c && c ≤ '9', many digitOrGap, sixtieths]]

def realForm : Form := any [
  all [sign, char digit, many digitOrGap, lit '.', many digitOrGap, opt exponent],
  all [lit '.', char digit, many digitOrGap, opt exponent],
  all [sign, char digit, many digitOrGap, sixtieths, lit '.', many digitOrGap]]

def dateForm : Form := all [digits 4, lit '-', digits 2, lit '-', digits 2]

/-- A date whose month and day may have one digit. -/
def longDateForm : Form := all [digits 4, lit '-', shortDigits, lit '-', shortDigits]

/-- A colon in a time and the two digits behind it. -/
private def timePart : Form := andThen (lit ':') (digits 2)

private def blank (c : Char) : Bool := c == ' ' || c == '\t'

def momentForm : Form := all [
  digits 4, lit '-', shortDigits, lit '-', shortDigits,
  any [char fun c => c == 'T' || c == 't', some1 blank],
  shortDigits, timePart, timePart, opt (andThen (lit '.') (many digit)),
  opt (andThen (many blank) (any [lit 'Z',
    all [char fun c => c == '-' || c == '+', shortDigits, opt timePart]]))]

/-- The words for truth values, in lower case, with the value. -/
def truthWords : List (String × Bool) := [
  ("yes", true), ("no", false), ("true", true), ("false", false), ("on", true), ("off", false)]

/-- A word as it stands in the list, or with a capital, or in capitals. -/
private def spellings (word : String) : List String := [word, word.capitalize, word.toUpper]

/-- The marks that stand for no value when they are alone. -/
private def loneMarks : List String := ["!", "&", "*"]

/-- The tag of characters by their form. -/
def ofChars (s : List Char) : Tag :=
  let text := String.ofList s
  if text ∈ truthWords.flatMap (fun (word, _) => spellings word) then bool
  else if realForm.covers s ∨ text ∈ [".inf", ".Inf", ".INF"].flatMap (fun w =>
      [w, "-" ++ w, "+" ++ w]) ∨ text ∈ [".nan", ".NaN", ".NAN"] then real
  else if intForm.covers s then int
  else if text = "<<" then merge
  else if text ∈ ["", "~", "null", "Null", "NULL"] then null
  else if dateForm.covers s ∨ momentForm.covers s then timestamp
  else if text = "=" then value
  else if text ∈ loneMarks then other (commonNames ++ "yaml")
  else str

/-- The tag of a plain scalar by its form.  A line feed at the end does not make a difference,
unless there is nothing before it. -/
def ofPlain (text : Text) : Tag :=
  match text.chars? with
  | none | some ['\n'] => str
  | some s => ofChars (Text.dropFeed s)

end Tag

end RegisterLayout.Document
