import RegisterLayout.Field.Basic
import RegisterLayout.Schema.Keyword
import RegisterLayout.Text.Line

/-!
# The schema of layouts

What a document has to look like to describe a layout: the keys that every kind of field has and
may have, and the values that they take.

Principal definitions: `Schema.violations`, `Schema.inFields`.
-/

namespace RegisterLayout

namespace Schema

/-- Names begin with a letter or an underscore, and digits may follow.  A line feed at the end
does not make a difference. -/
def isName (s : List Char) : Bool :=
  match Text.dropFeed s with
  | c :: rest => (c.isAlpha || c == '_') && rest.all fun c => c.isAlphanum || c == '_'
  | [] => false

def name : Check := typed .string [ofForm isName "^[A-Za-z_][A-Za-z0-9_]*$"]

def text : Check := typed .string []

def offset : Check := typed .integer [minimum 0]

/-- The width of a word. -/
def width : Check := oneOfConstants (wordWidths.map Value.int)

def constants : Check := typed .object [allProperties (typed .integer [])]

/-- The keys of every kind of field. -/
def commonProperties : List (String × Check) := [
  ("name", name), ("short_name", name), ("desc", text), ("offset", offset)]

/-- A field of a kind with keys of its own, some of which are required. -/
def kindOf (kind : String) (needed : List String) (own : List (String × Check)) : Check :=
  let all := commonProperties ++ ("type", constant (.str kind)) :: own
  typed .object [required needed, closed (all.map Prod.fst), properties all]

def word : Check := kindOf "word" ["type", "bits"] [
  ("bits", width), ("signed", typed .boolean []), ("typedef", text), ("enum", constants)]

def item : Check := kindOf "bit" ["bits"] [
  ("bits", typed .integer [minimum 1, maximum 64]), ("enum", constants),
  ("only", oneOfConstants [.str "read", .str "write"])]

def bitfield : Check := kindOf "bitfield" ["type", "bits", "fields"] [
  ("bits", width), ("fields", typed .array [items item])]

def blob : Check := kindOf "opaque" ["type", "bytes"] [
  ("bytes", typed .integer [minimum 1]), ("decl", text)]

/-- A struct, given the violations in its fields. -/
def struct (found : List Violation) : Check := kindOf "struct" ["type", "fields"] [
  ("fields", typed .array [withItems found])]

/-- A union, given the violations in its members. -/
def union (found : List Violation) : Check := kindOf "union" ["type", "name", "fields"] [
  ("fields", typed .array [nonEmpty, withItems found])]

/-- A field of any kind, given the violations in the fields within it. -/
def anyField (found : List Violation) : Check := typed .object [
  required ["type"],
  properties [("type", oneOfConstants (FieldKind.all.map fun kind => .str kind.name))],
  choice [word, bitfield, struct found, blob, union found]]

mutual

/-- The violations in the fields within a value: in the items of a list, and of a mapping in those
of the list under the key `fields`.  `inner` tells what is found in collections that contain
themselves. -/
def inFields (loops : Loops Value) (inner : Loop → List Violation) : Value → List Violation
  | .list xs => inItems loops inner 0 xs
  | .map entries => inEntries loops inner entries
  | .again l => inner l
  | _ => []
termination_by structural v => v

def inEntries (loops : Loops Value) (inner : Loop → List Violation) :
    List (Value × Value) → List Violation
  | [] => []
  | (key, value) :: rest =>
    if key.same (.str "fields") then inFields loops inner value
    else inEntries loops inner rest
termination_by structural entries => entries

/-- The violations of listed fields, numbered from an index. -/
def inItems (loops : Loops Value) (inner : Loop → List Violation) (index : Nat) :
    List Value → List Violation
  | [] => []
  | x :: xs =>
    (anyField (inFields loops inner x) loops x).map (.under (.int index))
      ++ inItems loops inner (index + 1) xs
termination_by structural xs => xs

end

/-- The violations of a field and of those in it.  No field is among the fields within it. -/
def fieldViolations (loops : Loops Value) (v : Value) : List Violation :=
  let inner := loops.enter (fun _ => [.here .tooDeep]) (inFields loops)
  anyField (inFields loops inner v) loops v

/-- The order of paths by the texts of their steps. -/
def pathTexts (v : Violation) : List Text := v.path.map Value.text

/-- The violations of a whole document, by their paths. -/
def violations (document : Looped Value) : List Violation :=
  Text.sortBy (fun a b => (Text.compareAll (pathTexts a) (pathTexts b)).isLE)
    (fieldViolations document.loops document.root)

end Schema

end RegisterLayout
