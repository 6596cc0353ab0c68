import RegisterLayout.Field.Basic

/-!
# Fields from document values

Reading a layout off a value of a document.  The form of the value is checked only as far as the
reading needs it: a required key has to be there, fields have to be listed, and an enumeration has
to be a mapping or a list of pairs.  Unknown keys are passed over.

Principal definitions: `Enumeration.ofValue`, `Field.ofValue`.
-/

namespace RegisterLayout

namespace Value

/-- The value under a key that has to be there. -/
def require (entries : List (Value × Value)) (key : Text) : Except Failure Value :=
  match lookup? entries key with
  | some v => .ok v
  | none => .error .missingKey

/-- The value under a key; a missing key and a null are none. -/
def valueAt (entries : List (Value × Value)) (key : Text) : Option Value :=
  match lookup? entries key with
  | none | some .null => none
  | some v => some v

/-- The values that a value lists: the items of a list, the keys of a mapping, or the code points
of a text. -/
def listed? : Value → Option (List Value)
  | .list xs | .tuple xs | .set xs => some xs
  | .map entries => some (entries.map Prod.fst)
  | .str s => some (s.map fun c => .str [c])
  | _ => none

end Value

open Value

/-! ## Enumerations -/

/-- The pair that the entry of a list under an index is. -/
def Enumeration.pairOf (index : Nat) (v : Value) : Except Failure (Value × Value) :=
  match v.listed? with
  | none => .error .wrongType
  | some [key, value] => if key.isKey then .ok (key, value) else .error .wrongType
  | some xs => .error (.noPair index xs.length)

/-- The constants that a mapping or a list of pairs defines. -/
def Enumeration.ofValue (v : Value) : Except Failure Enumeration :=
  match v with
  | .map entries => .ok entries
  | v =>
    match v.listed? with
    | none => .error .wrongType
    | some xs => do return putEntries (← (xs.mapIdx Enumeration.pairOf).mapM id)

/-- The enumeration under the key `enum`. -/
def Enumeration.ofEntries (entries : List (Value × Value)) :
    Except Failure (Option Enumeration) :=
  (valueAt entries "enum").mapM Enumeration.ofValue

/-! ## Fields -/

def Header.ofEntries (entries : List (Value × Value)) : Header where
  name := valueAt entries "name"
  shortName := valueAt entries "short_name"
  desc := valueAt entries "desc"
  offset := valueAt entries "offset"

def Item.ofValue : Value → Except Failure Item
  | .map entries => do
    return {
      header := .ofEntries entries
      bits := ← require entries "bits"
      enumeration := ← Enumeration.ofEntries entries
      only := valueAt entries "only" }
  | _ => .error .wrongType

/-- The items of a bit field, listed under the key `fields`. -/
def Item.listOf (entries : List (Value × Value)) : Except Failure (List Item) := do
  match (← require entries "fields").listed? with
  | some xs => xs.mapM Item.ofValue
  | none => throw .wrongType

namespace Field

/-- A field of the kind that its entries name, given the fields that they hold. -/
def ofEntries (entries : List (Value × Value)) (fields : Except Failure (List Field)) :
    Except Failure Field := do
  let kind ← require entries "type"
  let header := Header.ofEntries entries
  match FieldKind.ofValue? kind with
  | some .word =>
    return word {
      header
      bits := ← require entries "bits"
      signed := valueAt entries "signed"
      typedef := valueAt entries "typedef"
      enumeration := ← Enumeration.ofEntries entries }
  | some .bitfield =>
    return bitfield { header, bits := ← require entries "bits", items := ← Item.listOf entries }
  | some .struct => return struct header (← fields)
  | some .blob =>
    return blob { header, bytes := ← require entries "bytes", decl := valueAt entries "decl" }
  | some .union => return union header (← fields)
  | none => throw (if kind.isWritable then .unknownKind kind.text else .longNumber)

mutual

/-- The layout that a value describes. -/
def ofValue : Value → Except Failure Field
  | .map entries => ofEntries entries (fieldsOf entries)
  | _ => .error .wrongType
termination_by structural v => v

/-- The fields listed under the key `fields`. -/
def fieldsOf : List (Value × Value) → Except Failure (List Field)
  | [] => .error .missingKey
  | (key, value) :: rest =>
    if key.same (.str "fields") then
      match value with
      | .list xs => ofValues xs
      | v => if (v.listed?.map List.isEmpty).getD false then .ok [] else .error .wrongType
    else fieldsOf rest
termination_by structural entries => entries

def ofValues : List Value → Except Failure (List Field)
  | [] => .ok []
  | x :: xs => do
    let f ← ofValue x
    return f :: (← ofValues xs)
termination_by structural xs => xs

end

end Field

end RegisterLayout
