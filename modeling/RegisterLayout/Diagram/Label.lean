import RegisterLayout.Failure
import RegisterLayout.Text.Case
import RegisterLayout.Text.Line

/-!
# Labels of cells

Every cell of a diagram carries a label that fits its width and no other cell has.  The name of
the field is the first choice; a cell of one letter takes a letter of the name or of the alphabet,
and a wider cell one of a few abbreviations of the name.

Principal definitions: `letterChoices`, `labelCandidates`, `findLabel`, `labelOf`.
-/

namespace RegisterLayout

/-- Words that could be read as "reserved" or "unknown", and are no abbreviations for that. -/
def ambiguousLabels : List Text := [
  "rs", "rsv", "rsvd", "rsrvd", "reserv", "reservd", "reserved",
  "un", "unk", "unkn", "unkno", "unknow", "unknown"]

/-- Letters that may stand for a name alone: `r` would mean reserved and `u` unknown. -/
def isPlainLetter (c : Char) : Bool := c.isAlpha && c ∉ ['R', 'r', 'U', 'u']

/-- The letters without vowels, `r` and `y`. -/
def isConsonant (c : Char) : Bool :=
  c ∈ "BCDFGHJKLMNPQSTVWXZbcdfghjklmnpqstvwxz".toList

/-- The letters for names of which no letter is left. -/
def spareLetters : List Char := "ABCDEFGHIJKLMNOPQSTUVWXYZabcdefghijklmnopqstuvwxyz".toList

/-- The parts of a name between underscores. -/
def nameParts (name : Text) : List Text := Text.splitOn (.char '_') name

/-- The last part of a name. -/
def lastPart (name : Text) : Text := ((nameParts name).getLast?).getD []

/-- The plain letters of a text as capitals. -/
def plainCapitals (s : Text) : List Char := s.filterMap fun
  | .char c => if isPlainLetter c then some c.toUpper else none
  | .surrogate _ => none

/-- The letters for a cell of one letter, best first: of the last part, of the whole name, and
then of the alphabet. -/
def letterChoices (name : Text) : List Char :=
  plainCapitals (lastPart name) ++ plainCapitals (nameParts name).flatten ++ spareLetters

/-- The first `length` code points; a negative length counts from the end. -/
def clip (length : Int) (s : Text) : Text :=
  s.take (if length < 0 then s.length + length else length).toNat

/-- The consonants of a text. -/
def consonants (s : Text) : Text := s.filter (·.holds isConsonant)

/-- The abbreviations of a name for a wider cell, best first. -/
def labelCandidates (name : Text) (maxLength : Int) : List Text :=
  let parts := nameParts name
  let whole := parts.flatten
  let acronym := parts.dropLast.flatMap (·.take 1)
  let last := lastPart name
  [whole, consonants whole, clip maxLength (acronym ++ last),
    clip maxLength (acronym ++ consonants last), acronym ++ last].map Text.lower

/-- A candidate that fits, is free and is not ambiguous. -/
def isUsableLabel (maxLength : Int) (taken : List Text) (candidate : Text) : Bool :=
  candidate.length ≤ maxLength && candidate ∉ ambiguousLabels && candidate ∉ taken

/-- A label for a name that has at most `maxLength` code points and is not taken.  A length that
is not whole admits the name itself or a letter. -/
def findLabel (name : Text) (maxLength : Number) (taken : List Text) : Except Failure Text :=
  if (Number.int name.length).le maxLength && name ∉ taken then .ok name
  else if maxLength.same 1 then
    match (letterChoices name).find? fun c => [CodePoint.char c] ∉ taken with
    | some letter => .ok [.char letter]
    | none => .error (.ofCause name .noLetter)
  else
    match maxLength with
    | .real _ => .error .wrongType
    | .int n =>
      match (labelCandidates name n).find? (isUsableLabel n taken) with
      | some label => .ok label
      | none => .error (.ofCause name (.noLabel maxLength))

/-- A label for whatever stands as a name.  Only a text has one: a collection has a length to be
compared and then cannot be shortened, any other value has not even a length. -/
def labelOf (name : Value) (maxLength : Number) (taken : List Text) : Except Failure Text :=
  match name with
  | .str s => findLabel s maxLength taken
  | .list xs => refuse xs.length
  | .map entries => refuse entries.length
  | _ => .error .wrongType
where
  refuse (length : Nat) : Except Failure Text :=
    .error (if (Number.int length).le maxLength then .wrongType else .missingAttribute)

end RegisterLayout
