import RegisterLayout.Value.Basic

/-!
# Causes of layout errors

What can be wrong with a layout whose document has the right form.

Principal definitions: `Cause`, `Cause.text`, `Cause.kind`, `Cause.isWritable`.
-/

namespace RegisterLayout

/-- The widths that a word, or the word behind a bit field, can have. -/
def wordWidths : List Int := [8, 16, 32, 64]

/-- The classes of layout errors. -/
inductive ErrorKind where
  | offsetMismatch
  | alignment
  | bitfieldWidthMismatch
  | unusedMetadata
  | nestedStruct
  | unionMember
  | enumRange
  | duplicateName
  | invalidName
  | labelsExhausted
  | bitfieldTooWide
  | straddle
  | unalignedBlob
  | wordWidth
  | root
  | emptyField
  deriving DecidableEq, Repr

/-- What is wrong with a layout. -/
inductive Cause where
  | reservedName (name : Text)
  | shortNameAlone (shortName : Value)
  | unnamedUnion
  | unnamedRoot
  | rootKind (kind : String)
  | rootOffset (given : Value)
  | fieldOffset (field given : Value) (reached : Number)
  | misaligned (bits : Value) (byteOffset : Number)
  | wordWidth (bits : Value)
  | bitfieldWidth (bits : Value)
  | wideWord (bits : Value)
  | itemWidth (bits : Value)
  | widthSum (shortfall : Number)
  | blobSize (bytes : Value)
  | emptyUnion
  | itemEnumUnused
  | enumUnused
  | typedefUnused
  | signedUnused
  | structInStruct (field : Value)
  | structMember
  | memberOffset (union : Text)
  | memberDecl (union : Text)
  | memberName (union : Text)
  | enumBelow (key value : Value) (least : Int)
  | enumAbove (key value : Value) (greatest : Int)
  | sharedName (name : Option Text)
  | sharedConstant (key : Value) (constant : Text)
  | noLetter
  | noLabel (maxLength : Number)
  | labelTooLong (maxLength : Number)
  | bitfieldOverRow
  | bitfieldStraddles (first last : Number)
  | blobStraddles (first last : Number)
  | blobOffRow (bits start : Number)
  | blobNotRows (bits : Number)
  deriving Repr

namespace Cause

def kind : Cause → ErrorKind
  | reservedName _ | shortNameAlone _ | unnamedUnion => .invalidName
  | unnamedRoot | rootKind _ => .root
  | rootOffset _ | fieldOffset .. => .offsetMismatch
  | misaligned .. => .alignment
  | wordWidth _ | bitfieldWidth _ | wideWord _ => .wordWidth
  | itemWidth _ | widthSum _ => .bitfieldWidthMismatch
  | blobSize _ | emptyUnion => .emptyField
  | itemEnumUnused | enumUnused | typedefUnused | signedUnused => .unusedMetadata
  | structInStruct _ | structMember => .nestedStruct
  | memberOffset _ | memberDecl _ | memberName _ => .unionMember
  | enumBelow .. | enumAbove .. => .enumRange
  | sharedName _ | sharedConstant .. => .duplicateName
  | noLetter | noLabel _ | labelTooLong _ => .labelsExhausted
  | bitfieldOverRow => .bitfieldTooWide
  | bitfieldStraddles .. | blobStraddles .. | blobOffRow .. => .straddle
  | blobNotRows _ => .unalignedBlob

/-- The text of an absent name in a message. -/
def nameText (name : Option Text) : Text := name.getD "None"

/-- The widths of words as messages list them. -/
def wordWidthsText : String := "(" ++ ", ".intercalate (wordWidths.map toString) ++ ")"

private def fromTo (first last : Number) : String :=
  "(" ++ first.text ++ " -> " ++ last.text ++ ")"

/-- The text of a cause. -/
def text : Cause → Text
  | reservedName name =>
    "The name " ++ name ++ " collides with internal naming system, please use a different name"
  | shortNameAlone short => "has a short name " ++ short.text ++ " but no name"
  | unnamedUnion => "Unions must have a name"
  | unnamedRoot => "The root struct needs a name"
  | rootKind kind => "Type " ++ kind ++ " not supported yet, the root must be a struct"
  | rootOffset given => "Specified offset is " ++ given.text
      ++ " but the root object always starts at 0"
  | fieldOffset field given reached => "Handling field " ++ field.text ++ " - Specified offset is "
      ++ given.text ++ " but there are " ++ reached.text
      ++ " bytes of other fields behind this one"
  | misaligned bits byteOffset => bits.text ++ " bit word at byte offset " ++ byteOffset.text
      ++ " does not have required alignment"
  | wordWidth bits => "Word width " ++ bits.text ++ " is not one of " ++ wordWidthsText
  | bitfieldWidth bits => "Bitfield width " ++ bits.text ++ " is not one of " ++ wordWidthsText
  | wideWord bits => "Word has size " ++ bits.text ++ " which is unsupported"
  | itemWidth bits =>
    "bits is invalid (" ++ bits.quoted ++ "), must be a positive whole number"
  | widthSum shortfall =>
    "bit field widths do not add up to word size, off by " ++ shortfall.text
  | blobSize bytes =>
    "bytes is invalid (" ++ bytes.quoted ++ "), must be a positive whole number"
  | emptyUnion => "Union has no members"
  | itemEnumUnused => "Bitfield item has an enum despite being nameless (unused)"
  | enumUnused => "has an enum despite being nameless (unused)"
  | typedefUnused => "has a typedef despite being nameless (unused)"
  | signedUnused => "has a signed attribute despite being nameless (unused)"
  | structInStruct field => "Field " ++ field.text
      ++ " is a struct, nested structs are currently not supported"
  | structMember => "nested structs are currently not supported"
  | memberOffset union => "Member of union " ++ union
      ++ " has an offset, which is illegal for union members"
  | memberDecl union => "Opaque member of union " ++ union
      ++ " has no 'decl' property, which is required for union members"
  | memberName union => "Member of union " ++ union
      ++ " has no 'name' property, which is required for union members"
  | enumBelow key value least => "Enum has " ++ key.text ++ " = " ++ value.text
      ++ " which is < min val " ++ toString least
  | enumAbove key value greatest => "Enum has " ++ key.text ++ " = " ++ value.text
      ++ " which is > max val " ++ toString greatest
  | sharedName name => "Multiple items resolve to fully-qualified name \"" ++ nameText name
      ++ "\". Please use more distinct names in your structure or avoid anonymous bitfields"
  | sharedConstant key constant => "Enum entry " ++ key.text ++ " resolves to " ++ constant
      ++ " which is used in multiple places"
  | noLetter => "Impossible to represent as 1 letter"
  | noLabel maxLength => "Out of ideas for how to make a short name of at most "
      ++ maxLength.text ++ " letters"
  | labelTooLong maxLength =>
    "Brief name is not short enough (max letters: " ++ maxLength.text ++ ")"
  | bitfieldOverRow => "Bitfields over 32 bits wide are not currently supported"
  | bitfieldStraddles first last =>
    "bitfield straddles a 32 bit boundary and this is currently not supported. "
      ++ fromTo first last
  | blobStraddles first last =>
    "straddles a 32 bit boundary and this is currently not supported. " ++ fromTo first last
  | blobOffRow bits start => bits.text ++ " bit object starts at bit " ++ start.text
      ++ " of a 32 bit word and this is currently not supported"
  | blobNotRows bits => "not an even number of 32 bit words in size and this is "
      ++ "currently not supported. Width: " ++ bits.text

/-- The values that the text of a cause shows. -/
def values : Cause → List Value
  | shortNameAlone v | rootOffset v | wordWidth v | bitfieldWidth v | wideWord v | itemWidth v
  | blobSize v | structInStruct v | sharedConstant v _ => [v]
  | fieldOffset field given reached => [field, given, .num reached]
  | misaligned bits byteOffset => [bits, .num byteOffset]
  | enumBelow key value bound | enumAbove key value bound => [key, value, .int bound]
  | widthSum n | noLabel n | labelTooLong n | blobNotRows n => [.num n]
  | bitfieldStraddles m n | blobStraddles m n | blobOffRow m n => [.num m, .num n]
  | reservedName _ | unnamedUnion | unnamedRoot | rootKind _ | emptyUnion | itemEnumUnused
  | enumUnused | typedefUnused | signedUnused | structMember | memberOffset _ | memberDecl _
  | memberName _ | sharedName _ | noLetter | bitfieldOverRow => []

/-- A cause has a text if all values that it shows have. -/
def isWritable (c : Cause) : Bool := c.values.all Value.isWritable

/-- How far the items of a bit field fall short of its width, for the errors that say so. -/
def shortfall? : Cause → Option Number
  | widthSum shortfall => some shortfall
  | itemWidth _ => some 0
  | _ => none

end Cause

end RegisterLayout
