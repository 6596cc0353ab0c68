import RegisterLayout.Command.Options
import RegisterLayout.Number.Numeral
import RegisterLayout.Text.Form
import RegisterLayout.Text.Line

/-!
# Arguments of the command

Every argument is classified on its own: a plain text, some switches, or the separator behind
which all arguments are plain.  Short switches may be run together, and the value of a switch may
be attached to it.

Principal definitions: `SwitchGroup`, `Argument`, `Argument.ofText?`, `Argument.ofTexts?`.
-/

namespace RegisterLayout

/-- What one argument asks for: some switches without values, and at most one that takes a
value, which may be attached already. -/
structure SwitchGroup where
  plain : List Switch := []
  valued : Option (Switch × Option String) := none
  deriving Repr

namespace SwitchGroup

/-- A long switch with the value that is attached to it. -/
def ofLong? (s : Switch) (attached : Option String) : Option SwitchGroup :=
  if s.takesValue then some { valued := some (s, attached) }
  else if attached.isSome then none
  else some { plain := [s] }

/-- A short switch with the characters behind it: its value if it takes one, otherwise further
short switches. -/
def ofShort? (s : Switch) : List Char → Option SwitchGroup
  | [] => ofLong? s none
  | c :: rest =>
    if s.takesValue then some { valued := some (s, some (String.ofList (c :: rest))) }
    else do
      let group ← ofShort? (← Switch.ofLetter? c) rest
      return { group with plain := s :: group.plain }

end SwitchGroup

/-- One argument by itself. -/
inductive Argument where
  | plain (text : String)
  /-- Ends the switches; all later arguments are plain. -/
  | separator
  | switches (group : SwitchGroup)
  /-- Asks for a value that cannot be there, or for a letter that is no switch. -/
  | broken
  | unknown
  deriving Repr

/-- A negative number, which is no switch.  A line feed at the end does not make a difference. -/
def isNegativeNumeral (s : List Char) : Bool :=
  let digit (c : Char) : Bool := (Numeral.decimalDigit? c).isSome
  Text.Form.covers
    (.all [.lit '-', .any [.some1 digit, .all [.many digit, .lit '.', .some1 digit]]])
    (Text.dropFeed s)

namespace Argument

private def ofGroup : Option SwitchGroup → Argument
  | some group => .switches group
  | none => .broken

/-- An argument that begins like a switch and is none. -/
def other (text : List Char) : Argument :=
  if isNegativeNumeral text || ' ' ∈ text then .plain (String.ofList text) else .unknown

/-- The part before the first equals sign, and the part behind it. -/
def cutAtEquals (text : List Char) : List Char × Option String :=
  let name := text.takeWhile (· != '=')
  (name, match text.drop name.length with
    | [] => none
    | _ :: value => some (String.ofList value))

/-- A long switch, shortened or not; nothing if several switches begin like it. -/
def ofLong? (text : List Char) : Option Argument :=
  let (name, attached) := cutAtEquals text
  match Switch.beginningWith name with
  | [] => some (other text)
  | [s] => some (ofGroup (SwitchGroup.ofLong? s attached))
  | _ => none

/-- A short switch with what follows it.  An equals sign right behind it is skipped. -/
def ofShort (text : List Char) (letter : Char) (rest : List Char) : Argument :=
  match Switch.ofLetter? letter, rest with
  | none, _ => other text
  | some s, ['='] => ofGroup (SwitchGroup.ofLong? s (some ""))
  | some s, '=' :: rest => ofGroup (SwitchGroup.ofShort? s rest)
  | some s, rest => ofGroup (SwitchGroup.ofShort? s rest)

/-- An argument before any separator; nothing if it is ambiguous. -/
def ofText? (text : String) : Option Argument :=
  match text.toList with
  | '-' :: '-' :: [] => some .separator
  | '-' :: '-' :: rest => ofLong? ('-' :: '-' :: rest)
  | '-' :: letter :: rest => some (ofShort ('-' :: letter :: rest) letter rest)
  | _ => some (.plain text)

/-- All arguments classified; nothing if one is ambiguous. -/
def ofTexts? : List String → Option (List Argument)
  | [] => some []
  | text :: rest => do
    match ← ofText? text with
    | .separator => return .separator :: rest.map .plain
    | argument => return argument :: (← ofTexts? rest)

end Argument

end RegisterLayout
