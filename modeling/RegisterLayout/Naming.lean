import RegisterLayout.Field.Basic
import RegisterLayout.Text.Case
import RegisterLayout.Text.Line

/-!
# Names of nodes

Every node has a full name made of the steps from the root down to it.  A named node is reached
through the labels of its named ancestors alone; an unnamed one through every step, where an
unnamed ancestor counts by its index, so that its name stays unique.

Principal definitions: `Step`, `Path`, `isReservedName`, `checkName`, `nodeName`, `constantName`.
-/

namespace RegisterLayout

/-- One step from a node to a child: by the label of the child, or by its index if unnamed. -/
inductive Step where
  | label (text : Text)
  | index (n : Nat)
  deriving DecidableEq, Repr

def Step.text : Step → Text
  | label s => s
  | index n => ("f" ++ toString n : String)

def Step.label? : Step → Option Text
  | label s => some s
  | index _ => none

/-- The steps from the root to a node, the root's own first. -/
abbrev Path := List Step

namespace Path

def joined (parts : List Text) : Text := Text.joined "_" parts

/-- The texts of all steps, joined. -/
def fullText (p : Path) : Text := joined (p.map Step.text)

/-- The labels on a path, without the indices of unnamed nodes. -/
def labels (p : Path) : List Text := p.filterMap Step.label?

end Path

/-- Names that the index of an unnamed node could produce: `f` and digits.  A line feed at the
end does not make a difference. -/
def isReservedName (s : Text) : Bool :=
  s.satisfies fun s =>
    match Text.dropFeed s with
    | 'f' :: digits => !digits.isEmpty && digits.all Char.isDigit
    | _ => false

/-- A name that a node may have: a text that no index could produce. -/
def checkName (path : Path) (name : Value) : Except Failure Text :=
  match name with
  | .str s => if isReservedName s then .error (.ofCause path.fullText (.reservedName s)) else .ok s
  | _ => .error .wrongType

/-- The full name of a node under a path, and the path of its children. -/
def nodeName (h : Header) (path : Path) (index : Nat) : Except Failure (Text × Path) :=
  match h.givenName? with
  | some name => do
    let label ← match filled? h.shortName with
      | none => checkName path name
      | some short => do
        let _ ← checkName path name
        checkName path short
    return (Path.joined (path.labels ++ [label]), path ++ [.label label])
  | none =>
    let path := path ++ [.index index]
    match filled? h.shortName with
    | some short => .error (.ofCause path.fullText (.shortNameAlone short))
    | none => .ok (path.fullText, path)

/-- The constant that stands for an entry of an enumeration. -/
def constantName (fullName key : Text) : Text := Text.upper (fullName ++ "_" ++ key)

end RegisterLayout
