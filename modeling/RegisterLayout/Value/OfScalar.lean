import RegisterLayout.Document.Tag
import RegisterLayout.Failure
import RegisterLayout.Number.Numeral
import RegisterLayout.Text.Case
import RegisterLayout.Text.Line

/-!
# Values of scalars

What the text of a scalar stands for, as its tag says: a number in one of several bases, a truth
value, a date with or without a time, bytes, or the text itself.

Principal definitions: `Value.readInt`, `Value.readReal`, `Value.readTimestamp`,
`Value.readScalar`.
-/

namespace RegisterLayout.Value

open Document

/-! ## Numbers and truth values -/

private def intOf (base : Nat) (s : Text) : Except Failure Int :=
  match s.chars?.bind (Numeral.readDigits? base) with
  | none => .error (.badNumeral base s)
  | some (negative, digits) =>
    if base = 10 ∧ Number.maxDigits < digits.length then .error (.longNumeral digits.length)
    else
      let n : Int := Numeral.ofDigits base digits
      .ok (if negative then -n else n)

/-- The text of a numeral without its gaps. -/
private def withoutGaps (text : Text) : Text := text.filter (· ≠ .char '_')

/-- A sign before a numeral, and the rest; something has to be there. -/
private def signed (text : Text) : Except Failure (Bool × Text) :=
  match text with
  | [] => .error .outOfRange
  | .char '-' :: s => .ok (true, s)
  | .char '+' :: s => .ok (false, s)
  | s => .ok (false, s)

private def colon : CodePoint := .char ':'

/-- A whole number: binary, hexadecimal and octal behind a zero, in sixties between colons. -/
def readInt (text : Text) : Except Failure Int := do
  let (negative, s) ← signed (withoutGaps text)
  let n ← match s with
    | [.char '0'] => pure 0
    | .char '0' :: .char 'b' :: digits => intOf 2 digits
    | .char '0' :: .char 'x' :: digits => intOf 16 digits
    | .char '0' :: _ => intOf 8 s
    | [] => throw .outOfRange
    | _ =>
      if colon ∈ s then do
        let ns ← (Text.splitOn colon s).mapM (intOf 10)
        pure (ns.foldl (fun n d => n * 60 + d) 0)
      else intOf 10 s
  return if negative then -n else n

private def realOf (s : Text) : Except Failure Binary64 :=
  match s.chars?.bind Numeral.readReal? with
  | some x => .ok x
  | none => .error (.badReal s)

/-- The sum of digits in sixties, the last one first. -/
private def sumSixties (base : Int) (total : Binary64) : List Binary64 → Except Failure Binary64
  | [] => .ok total
  | d :: ds => do
    sumSixties (base * 60) (total.add (d.mul (← (Number.int base).asReal))) ds

/-- A number with a point, an infinity or the undefined value. -/
def readReal (text : Text) : Except Failure Binary64 := do
  let (negative, s) ← signed (withoutGaps text).lower
  let x ←
    if s = ".inf" then pure (.infinite false)
    else if s = ".nan" then return .nan
    else if colon ∈ s then do
      let ds ← (Text.splitOn colon s).mapM realOf
      sumSixties 1 (.finite 0) ds.reverse
    else realOf s
  return if negative then x.neg else x

def readBool (text : Text) : Except Failure Bool :=
  match Tag.truthWords.find? fun (word, _) => Text.lower text = word with
  | some (_, b) => .ok b
  | none => .error .missingKey

/-! ## Dates -/

private def takeNumber (s : List Char) : Option Nat × List Char :=
  let digits := s.takeWhile Char.isDigit
  (if digits.isEmpty then none else (String.ofList digits).toNat?, s.drop digits.length)

private def dropChar (s : List Char) : List Char := s.drop 1

/-- The microseconds of a fraction, of which six digits count. -/
private def microseconds (s : List Char) : Nat :=
  let digits := (s.takeWhile Char.isDigit).take 6
  Numeral.ofDigits 10 (digits.map (·.toNat - '0'.toNat)) * Nat.pow 10 (6 - digits.length)

/-- The offset in minutes at the end of a time. -/
private def zone? (s : List Char) : Option Int :=
  match s.dropWhile fun c => c == ' ' || c == '\t' with
  | 'Z' :: _ => some 0
  | mark :: rest =>
    let (hours, rest) := takeNumber rest
    let (minutes, _) := takeNumber (dropChar rest)
    let offset : Int := hours.getD 0 * 60 + minutes.getD 0
    some (if mark = '-' then -offset else offset)
  | [] => none

/-- A date, with a time of day behind it or alone. -/
def readTimestamp (text : Text) : Except Failure Value := do
  let s := Text.dropFeed (text.chars?.getD [])
  if !(Tag.longDateForm.covers s || Tag.momentForm.covers s) then throw .missingAttribute
  let (year, s) := takeNumber s
  let (month, s) := takeNumber (dropChar s)
  let (day, s) := takeNumber (dropChar s)
  let d : Date := ⟨year.getD 0, month.getD 0, day.getD 0⟩
  if s.isEmpty then
    if let some fault := d.fault? then throw (.calendar fault)
    return .date d
  let (hour, s) := takeNumber (s.dropWhile (!·.isDigit))
  let (minute, s) := takeNumber (dropChar s)
  let (second, s) := takeNumber (dropChar s)
  let (micro, s) := match s with
    | '.' :: rest => (microseconds rest, rest.dropWhile Char.isDigit)
    | s => (0, s)
  let c : Clock := ⟨hour.getD 0, minute.getD 0, second.getD 0, micro, zone? s⟩
  let zoneFault := (c.zone.filter fun z => 1440 ≤ z.natAbs).map CalendarFault.zone
  if let some fault := (zoneFault.or d.fault?).or c.fault? then throw (.calendar fault)
  return .moment d c

/-! ## Binary data -/

private def sextet? (c : Char) : Option Nat :=
  if 'A' ≤ c ∧ c ≤ 'Z' then some (c.toNat - 'A'.toNat)
  else if 'a' ≤ c ∧ c ≤ 'z' then some (c.toNat - 'a'.toNat + 26)
  else if c.isDigit then some (c.toNat - '0'.toNat + 52)
  else if c = '+' then some 62
  else if c = '/' then some 63
  else none

/-- The bytes written in groups of four characters.  `group` holds the characters of the current
group, the latest first; other characters are passed over. -/
private def bytesFrom (group : List Nat) (pads : Nat) : List Char → Option (List Nat)
  | [] => if group.isEmpty then some [] else none
  | c :: rest =>
    match sextet? c, group with
    | some n, [c3, c2, c1] =>
      (bytesFrom [] 0 rest).map fun more =>
        [c1 * 4 + c2 / 16, c2 % 16 * 16 + c3 / 4, c3 % 4 * 64 + n] ++ more
    | some n, group => bytesFrom (n :: group) 0 rest
    | none, group =>
      if c = '=' ∧ 2 ≤ group.length then
        if 4 ≤ group.length + pads + 1 then
          match group with
          | [c3, c2, c1] => some [c1 * 4 + c2 / 16, c2 % 16 * 16 + c3 / 4]
          | [c2, c1] => some [c1 * 4 + c2 / 16]
          | _ => none
        else bytesFrom group (pads + 1) rest
      else bytesFrom group pads rest

def readBytes (text : Text) : Except Failure Value :=
  match text.chars? with
  | none => .error .malformedText
  | some s =>
    if s.any fun c => 0x80 ≤ c.toNat then .error .malformedText
    else
      match bytesFrom [] 0 s with
      | some data => .ok (.bytes data)
      | none => .error .malformedText

/-- A scalar as its tag says. -/
def readScalar (tag : Tag) (text : Text) : Except Failure Value :=
  match tag with
  | .null => .ok .null
  | .bool => (readBool text).map .bool
  | .int => (readInt text).map .int
  | .real => (readReal text).map fun x => .num (.real x)
  | .timestamp => readTimestamp text
  | .binary => readBytes text
  | .str => .ok (.str text)
  | _ => .error .malformedText

end RegisterLayout.Value
