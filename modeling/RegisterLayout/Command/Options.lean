import RegisterLayout.Declaration.OfField
import RegisterLayout.Diagram.Rendering

/-!
# Options of the command

What a run of the command prints, about which models, and where; and why its arguments may not
lead to a run at all.

The switches go by their names.  A long name may be shortened to any beginning that no other name
shares.

Principal definitions: `Options`, `Options.verbosity`, `Refusal`; `Switch`, `Switch.beginningWith`,
`usage`.
-/

namespace RegisterLayout

/-- How much of the log is shown. -/
inductive Verbosity where
  | normal
  | verbose
  | quiet
  deriving DecidableEq, Inhabited, Repr

/-- What to print, about which models, and where. -/
structure Options where
  models : List String := []
  /-- A separator in place of a style leaves none. -/
  style : Option Style := some .comment
  diagram : Bool := true
  declarations : Bool := true
  declarationOptions : DeclarationOptions := {}
  table : Bool := false
  /-- The file to write instead of the standard output. -/
  output : Option String := none
  verbose : Bool := false
  quiet : Bool := false
  deriving Inhabited, Repr

/-- A wish for more of the log wins over one for less. -/
def Options.verbosity (o : Options) : Verbosity :=
  if o.verbose then .verbose else if o.quiet then .quiet else .normal

/-- Why the arguments do not lead to a run. -/
inductive Refusal where
  | help
  | misuse
  deriving DecidableEq, Repr

def Refusal.exitCode : Refusal → Nat
  | help => 0
  | misuse => 2

/-! ## Switches -/

inductive Switch where
  | help
  | style
  | noDiagram
  | noAccessors
  | docComments
  | ignoreAccess
  | table
  | output
  | verbose
  | quiet
  deriving DecidableEq, Repr

namespace Switch

def all : List Switch :=
  [help, style, noDiagram, noAccessors, docComments, ignoreAccess, table, output, verbose, quiet]

def longName : Switch → String
  | help => "--help"
  | style => "--style"
  | noDiagram => "--no-diagram"
  | noAccessors => "--no-accessors"
  | docComments => "--doc-comments"
  | ignoreAccess => "--ignore-access"
  | table => "--table"
  | output => "--output"
  | verbose => "--verbose"
  | quiet => "--quiet"

def letter? : Switch → Option Char
  | help => some 'h'
  | output => some 'o'
  | verbose => some 'v'
  | quiet => some 'q'
  | _ => none

def takesValue : Switch → Bool
  | style | output => true
  | _ => false

def ofLetter? (c : Char) : Option Switch := all.find? (·.letter? == some c)

/-- The switches whose long name begins with a text, or the one that it names in full. -/
def beginningWith (text : List Char) : List Switch :=
  match all.find? (·.longName.toList == text) with
  | some s => [s]
  | none => all.filter fun s => text.isPrefixOf s.longName.toList

end Switch

/-- What the command takes, in one line for each switch. -/
def usage : String :=
  String.join ("usage: regdiag [SWITCH ...] MODEL ...\n" :: Switch.all.map fun s =>
    "  " ++ s.longName ++ (if s.takesValue then " VALUE" else "")
      ++ ((s.letter?.map fun c => ", -" ++ c.toString).getD "") ++ "\n")

end RegisterLayout
