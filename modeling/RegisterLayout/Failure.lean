import RegisterLayout.Cause

/-!
# Failures

Why an operation on a layout does not succeed.  A layout error names the node at fault and its
cause; every other failure concerns the document, its text, the numbers in it or the way a layout
was put together by hand.

Principal definitions: `LayoutError`, `Failure`, `Failure.ofCause`, `Failure.message?`.
-/

namespace RegisterLayout

/-- A cause with the full name of the node at fault, or of its closest named ancestor. -/
structure LayoutError where
  fullName : Value
  cause : Cause
  deriving Repr

/-- The name and the cause; only the cause where there is no name. -/
def LayoutError.message (e : LayoutError) : Text :=
  if e.fullName.isTruthy then e.fullName.text ++ ": " ++ e.cause.text else e.cause.text

/-- Why an operation failed. -/
inductive Failure where
  | layout (e : LayoutError)
  /-- The document does not have the form of a model, one message for each violation. -/
  | violations (messages : List Text)
  /-- The text is no document. -/
  | malformedText
  /-- Something goes deeper than it can be followed, as does what contains itself. -/
  | tooDeep
  /-- An operation that needs a placed tree met one that was not placed. -/
  | unplaced (operation : String)
  | unknownStyle (style : Value)
  | unknownKind (kind : Text)
  /-- An item met outside of a bit field. -/
  | strayItem
  | noWordType (bits : Number)
  | negativeShift
  | hexOfReal
  | hexOfText
  /-- A scalar of a document that its tag does not admit. -/
  | badNumeral (base : Nat) (text : Text)
  | badReal (text : Text)
  /-- A whole number with more digits than are read. -/
  | longNumeral (digits : Nat)
  /-- A whole number with more digits than are written. -/
  | longNumber
  /-- A number beyond the range of those that it meets. -/
  | overflow
  | calendar (fault : CalendarFault)
  /-- A code point beyond the last one. -/
  | noSuchCharacter
  /-- An entry of a mapping written as a list of pairs that is no pair. -/
  | noPair (index length : Nat)
  | missingKey
  | wrongType
  | missingAttribute
  | outOfRange
  | undecodable
  /-- A text with surrogates, which no file can hold. -/
  | unencodable
  | noSuchFile
  | isDirectory
  | notDirectory
  /-- A path, or a name in it, that is longer than files can have. -/
  | longPath
  /-- A path with a null character, which no file can have. -/
  | nullInPath
  deriving Inhabited, Repr

namespace Failure

/-- The failure of a layout at a node, if its message can be written. -/
def atNode (fullName : Value) (cause : Cause) : Failure :=
  if fullName.isWritable && cause.isWritable then .layout ⟨fullName, cause⟩ else .longNumber

/-- The failure of a layout at a named node. -/
def ofCause (fullName : Text) (cause : Cause) : Failure := atNode (.str fullName) cause

/-- The failure of a layout at a node that may have no name yet. -/
def ofNode (fullName : Option Text) (cause : Cause) : Failure :=
  atNode ((fullName.map .str).getD .null) cause

private def limitText : String :=
  "Exceeds the limit (" ++ toString Number.maxDigits ++ " digits) for integer string conversion"

private def limitAdvice : String := "; use sys.set_int_max_str_digits() to increase the limit"

/-- The longest text that a message about a numeral quotes, quotes included. -/
def maxQuotedNumeral : Nat := 200

/-- The message of the failures that carry one besides layout errors and violations. -/
def message? : Failure → Option Text
  | unplaced operation =>
    some (operation ++ "() needs a resolved tree, call resolve() first" : String)
  | unknownStyle style => some ("Unknown diagram style " ++ style.quoted
      ++ ", expected one of ('comment', 'markdown')")
  | unknownKind kind => some ("Unknown field type: " ++ kind)
  | strayItem => some "Unknown field type: BitFieldItem"
  | noWordType bits => some ("No word type with " ++ bits.text ++ " bits" : String)
  | negativeShift => some "negative shift count"
  | hexOfReal => some "Unknown format code 'x' for object of type 'float'"
  | hexOfText => some "Unknown format code 'x' for object of type 'str'"
  | badNumeral base text =>
    some (("invalid literal for int() with base " ++ toString base ++ ": " : String)
      ++ (Text.quoted text).take maxQuotedNumeral)
  | badReal text => some ("could not convert string to float: " ++ Text.quoted text)
  | longNumeral digits =>
    some (limitText ++ ": value has " ++ toString digits ++ " digits" ++ limitAdvice : String)
  | longNumber => some (limitText ++ limitAdvice : String)
  | calendar fault => some fault.message
  | noSuchCharacter => some "chr() arg not in range(0x110000)"
  | nullInPath => some "embedded null byte"
  | noPair index length => some ("dictionary update sequence element #" ++ toString index
      ++ " has length " ++ toString length ++ "; 2 is required" : String)
  | _ => none

end Failure

/-! ## Texts and arithmetic that can fail -/

namespace Value

/-- The value itself, if it can be written. -/
def writable (v : Value) : Except Failure Value :=
  if v.isWritable then .ok v else .error .longNumber

/-- The plain text of a value, if it can be written. -/
def written (v : Value) : Except Failure Text := v.writable.map text

@[simp] theorem written_str (s : Text) : (str s).written = .ok s := rfl

/-- The number that a value counts as. -/
def number (v : Value) : Except Failure Number :=
  match v.number? with
  | some n => .ok n
  | none => .error .wrongType

@[simp] theorem number_num (n : Number) : (num n).number = .ok n := rfl

end Value

namespace Number

private def within {α : Type} : Option α → Except Failure α
  | some n => .ok n
  | none => .error .overflow

/-- The binary64 number that stands for a number beside others of that format. -/
def asReal (n : Number) : Except Failure Binary64 := within n.toReal?

/-- The sum of two numbers. -/
def plus (a b : Number) : Except Failure Number := within (a.add? b)

/-- The difference of two numbers. -/
def minus (a b : Number) : Except Failure Number := within (a.sub? b)

@[simp] theorem plus_int (a b : Int) : (int a).plus (int b) = .ok (int (a + b)) := rfl

@[simp] theorem minus_int (a b : Int) : (int a).minus (int b) = .ok (int (a - b)) := rfl

end Number

end RegisterLayout
