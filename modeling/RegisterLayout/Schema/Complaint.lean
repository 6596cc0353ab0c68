import RegisterLayout.Failure

/-!
# Complaints about values

What can be wrong with the form of a value.  A complaint keeps the values that it is about, and
its text shows them in quoted form, so there is no text where one of them cannot be written.

Principal definitions: `ValueKind`, `Complaint`, `Complaint.text`, `Complaint.fault?`.
-/

namespace RegisterLayout

/-- The types of values that a schema can ask for. -/
inductive ValueKind where
  | object
  | array
  | string
  | integer
  | boolean
  deriving DecidableEq, Repr

namespace ValueKind

def name : ValueKind → String
  | object => "object"
  | array => "array"
  | string => "string"
  | integer => "integer"
  | boolean => "boolean"

/-- A value is of a type: a number without a fraction is an integer, a truth value is not. -/
def holds : ValueKind → Value → Bool
  | object, .map _ => true
  | array, .list _ => true
  | string, .str _ => true
  | integer, .num (.int _) => true
  | integer, .num (.real x) => (x.toRat?.map fun q => q.den == 1).getD false
  | boolean, .bool _ => true
  | _, _ => false

end ValueKind

/-- What is wrong with the form of a value. -/
inductive Complaint where
  | notOfType (v : Value) (kind : ValueKind)
  | notAmong (v : Value) (allowed : List Value)
  | notConstant (expected : Value)
  | below (v : Value) (least : Int)
  | above (v : Value) (greatest : Int)
  | unmatched (v : Value) (pattern : String)
  | empty (v : Value)
  | missing (key : String)
  | unexpected (keys : List Value)
  | noBranch (v : Value)
  /-- A field among the fields within it. -/
  | tooDeep
  deriving Inhabited, Repr

namespace Complaint

/-- The text of a complaint, given the collections that contain themselves. -/
def text (loops : Loops Value) : Complaint → Text
  | notOfType v kind => v.quotedIn loops ++ " is not of type '" ++ kind.name ++ "'"
  | notAmong v allowed =>
    v.quotedIn loops ++ " is not one of " ++ (Value.list allowed).quotedIn loops
  | notConstant expected => expected.quotedIn loops ++ " was expected"
  | below v least => v.quotedIn loops ++ " is less than the minimum of " ++ toString least
  | above v greatest =>
    v.quotedIn loops ++ " is greater than the maximum of " ++ toString greatest
  | unmatched v pattern => v.quotedIn loops ++ " does not match " ++ Text.quoted pattern
  | empty v => v.quotedIn loops ++ " should be non-empty"
  | missing key => Text.quoted key ++ " is a required property"
  | unexpected keys => "Additional properties are not allowed ("
      ++ Text.joined ", " (keys.map (·.quotedIn loops))
      ++ (if keys.length = 1 then " was" else " were") ++ " unexpected)"
  | noBranch v => v.quotedIn loops ++ " is not valid under any of the given schemas"
  | tooDeep => []

/-- The values that the text of a complaint shows. -/
def values : Complaint → List Value
  | notOfType v _ | notAmong v _ | below v _ | above v _ | unmatched v _ | empty v | noBranch v
  | notConstant v => [v]
  | unexpected keys => keys
  | missing _ | tooDeep => []

/-- Why a complaint has no text, if so. -/
def fault? (loops : Loops Value) (c : Complaint) : Option Failure :=
  match c with
  | tooDeep => some .tooDeep
  | c => if c.values.all (·.isWritableIn loops) then none else some .longNumber

end Complaint

end RegisterLayout
