import RegisterLayout.Number.Basic
import RegisterLayout.Text.Line

/-!
# Numerals

Texts that stand for numbers.  The digits of every script count, blanks around a numeral do not,
and single underscores may stand between digits.

Principal definitions: `Numeral.readInt?`, `Numeral.readReal?`.
-/

namespace RegisterLayout

namespace Numeral

/-- The code points of the digit zero in each script; the other nine digits follow it. -/
def zeroDigits : List Nat := [
  0x30, 0x660, 0x6F0, 0x7C0, 0x966, 0x9E6, 0xA66, 0xAE6, 0xB66, 0xBE6, 0xC66, 0xCE6, 0xD66,
  0xDE6, 0xE50, 0xED0, 0xF20, 0x1040, 0x1090, 0x17E0, 0x1810, 0x1946, 0x19D0, 0x1A80, 0x1A90,
  0x1B50, 0x1BB0, 0x1C40, 0x1C50, 0xA620, 0xA8D0, 0xA900, 0xA9D0, 0xA9F0, 0xAA50, 0xABF0, 0xFF10,
  0x104A0, 0x10D30, 0x11066, 0x110F0, 0x11136, 0x111D0, 0x112F0, 0x11450, 0x114D0, 0x11650,
  0x116C0, 0x11730, 0x118E0, 0x11950, 0x11C50, 0x11D50, 0x11DA0, 0x16A60, 0x16AC0, 0x16B50,
  0x1D7CE, 0x1D7D8, 0x1D7E2, 0x1D7EC, 0x1D7F6, 0x1E140, 0x1E2F0, 0x1E950, 0x1FBF0]

/-- The value of a decimal digit of any script. -/
def decimalDigit? (c : Char) : Option Nat :=
  (zeroDigits.find? fun z => z ≤ c.toNat && c.toNat < z + 10).map (c.toNat - ·)

/-- The value of a digit in a base of at most sixteen. -/
def digit? (base : Nat) (c : Char) : Option Nat :=
  let value? := match decimalDigit? c with
    | some n => some n
    | none =>
      if 'a' ≤ c ∧ c ≤ 'f' then some (c.toNat - 'a'.toNat + 10)
      else if 'A' ≤ c ∧ c ≤ 'F' then some (c.toNat - 'A'.toNat + 10)
      else none
  value?.filter (· < base)

/-- The digits at the start of a text and the rest.  An underscore between two digits is left
out, `inside` telling whether a digit was just read. -/
def takeDigits (base : Nat) (inside : Bool) : List Char → List Nat × List Char
  | [] => ([], [])
  | c :: rest =>
    match digit? base c with
    | some n =>
      let (digits, rest) := takeDigits base true rest
      (n :: digits, rest)
    | none =>
      let joins := inside && c == '_' && (rest.head?.bind (digit? base)).isSome
      if joins then takeDigits base false rest else ([], c :: rest)

def ofDigits (base : Nat) (digits : List Nat) : Nat :=
  digits.foldl (fun n d => n * base + d) 0

/-- A sign in front of a numeral, and the rest. -/
def takeSign : List Char → Bool × List Char
  | '-' :: rest => (true, rest)
  | '+' :: rest => (false, rest)
  | s => (false, s)

/-- The mark of a base in front of a numeral left out. -/
def dropBaseMark (base : Nat) (s : List Char) : List Char :=
  match s with
  | '0' :: mark :: rest =>
    let marked := (base = 16 ∧ mark ∈ ['x', 'X']) ∨ (base = 8 ∧ mark ∈ ['o', 'O'])
      ∨ (base = 2 ∧ mark ∈ ['b', 'B'])
    if marked then (match rest with | '_' :: more => more | _ => rest) else s
  | _ => s

/-- The whole number that a text stands for in a base, with any count of digits. -/
def readDigits? (base : Nat) (s : List Char) : Option (Bool × List Nat) :=
  let (negative, s) := takeSign (Text.stripChars s)
  let (digits, rest) := takeDigits base false (dropBaseMark base s)
  if digits.isEmpty || !rest.isEmpty then none else some (negative, digits)

/-- The whole number that a text stands for in a base. -/
def readInt? (base : Nat) (s : List Char) : Option Int := do
  let (negative, digits) ← readDigits? base s
  if base = 10 ∧ Number.maxDigits < digits.length then none
  else
    let n : Int := ofDigits base digits
    return if negative then -n else n

/-- The exponent at the end of a decimal numeral; without one it is zero. -/
def readExponent? (s : List Char) : Option Int :=
  match s with
  | [] => some 0
  | mark :: rest =>
    if mark = 'e' ∨ mark = 'E' then
      let (negative, rest) := takeSign rest
      let (digits, rest) := takeDigits 10 false rest
      if digits.isEmpty || !rest.isEmpty then none
      else
        let n : Int := ofDigits 10 digits
        some (if negative then -n else n)
    else none

/-- The words for infinities and the undefined value, without a sign. -/
def readSpecial? (negative : Bool) (s : List Char) : Option Binary64 :=
  let word := String.ofList (s.map Char.toLower)
  if word = "inf" ∨ word = "infinity" then some (.infinite negative)
  else if word = "nan" then some .nan
  else none

/-- The binary64 number that a decimal text stands for. -/
def readReal? (s : List Char) : Option Binary64 :=
  let (negative, s) := takeSign (Text.stripChars s)
  let (whole, rest) := takeDigits 10 false s
  let (fraction, rest) := match rest with
    | '.' :: rest => takeDigits 10 false rest
    | rest => ([], rest)
  if whole.isEmpty && fraction.isEmpty then readSpecial? negative s
  else
    (readExponent? rest).map fun e =>
      .ofDecimal negative (ofDigits 10 (whole ++ fraction)) (e - fraction.length)

end Numeral

end RegisterLayout
