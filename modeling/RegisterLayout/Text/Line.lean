import RegisterLayout.Text.CodePoint

/-!
# Blanks, lines and words

The white space that is stripped from the ends of a line, among it the separators beyond ASCII; the
lines of a text, and its words between the occurrences of a separator.

Two sets of line boundaries are in use.  `splitLines` knows every boundary that a text viewer
may honour; `isDocumentBreak` tells the smaller set that ends a line of a document.

Principal definitions: `isBlank`, `stripRight`, `strip`; `splitLines`, `isDocumentBreak`,
`unifyNewlines`; `splitBy`, `splitOn`.
Principal results: `flatten_splitBy` — the parts hold all of the text but the separators;
`splitBy_ne_nil` — there is at least one part.
-/

namespace RegisterLayout.Text

/-! ## Blank characters -/

/-- First and last code point of each range of blank characters. -/
def blankRanges : List (Nat × Nat) := [
  (0x9, 0xD), (0x1C, 0x20), (0x85, 0x85), (0xA0, 0xA0), (0x1680, 0x1680), (0x2000, 0x200A),
  (0x2028, 0x2029), (0x202F, 0x202F), (0x205F, 0x205F), (0x3000, 0x3000)]

/-- Membership in a list of ranges of code points. -/
def inRanges (ranges : List (Nat × Nat)) (c : Char) : Bool :=
  ranges.any fun (first, last) => first ≤ c.toNat && c.toNat ≤ last

def isBlank (c : Char) : Bool := inRanges blankRanges c

/-- A list without elements at its end that pass a test. -/
def dropRight {α : Type} (p : α → Bool) (s : List α) : List α :=
  (s.reverse.dropWhile p).reverse

/-- The text without blank characters at its end. -/
def stripRight (s : Text) : Text := dropRight (·.holds isBlank) s

/-- The text without blank characters at either end. -/
def strip (s : Text) : Text := stripRight (s.dropWhile (·.holds isBlank))

/-- The characters without blank ones at either end. -/
def stripChars (s : List Char) : List Char := dropRight isBlank (s.dropWhile isBlank)

theorem isBlank_space : isBlank ' ' = true := by decide

/-! ## Lines -/

/-- A character that ends a line; a carriage return and a line feed together end one line. -/
def isLineBoundary (c : Char) : Bool :=
  c ∈ ['\n', '\r', '\x0b', '\x0c', '\x1c', '\x1d', '\x1e', '\x85', '\u2028', '\u2029']

/-- The lines of a text without their boundaries, `line` holding the current one reversed.  A
boundary at the very end opens no further line. -/
def splitLinesFrom (line : Text) : Text → List Text
  | [] => if line.isEmpty then [] else [line.reverse]
  | .char '\r' :: .char '\n' :: rest => line.reverse :: splitLinesFrom [] rest
  | c :: rest =>
    if c.holds isLineBoundary then line.reverse :: splitLinesFrom [] rest
    else splitLinesFrom (c :: line) rest

def splitLines (s : Text) : List Text := splitLinesFrom [] s

/-- A character that ends a line of a document. -/
def isDocumentBreak (c : Char) : Bool := c ∈ ['\n', '\r', '\x85', '\u2028', '\u2029']

/-- The characters without a line feed at the end. -/
def dropFeed (s : List Char) : List Char := if s.getLast? = some '\n' then s.dropLast else s

/-- Every carriage return, alone or before a line feed, becomes one line feed. -/
def unifyNewlines : List Char → List Char
  | [] => []
  | '\r' :: '\n' :: rest => '\n' :: unifyNewlines rest
  | c :: rest => (if c = '\r' then '\n' else c) :: unifyNewlines rest

/-! ## Words -/

section

variable {α : Type}

/-- The parts of a text between the separators, empty ones included. -/
def splitBy (isSeparator : α → Bool) : List α → List (List α)
  | [] => [[]]
  | c :: rest =>
    if isSeparator c then [] :: splitBy isSeparator rest
    else
      match splitBy isSeparator rest with
      | [] => [[c]]
      | part :: parts => (c :: part) :: parts

/-- The parts of a text between the occurrences of one separator. -/
def splitOn [DecidableEq α] (separator : α) (s : List α) : List (List α) :=
  splitBy (fun c => decide (c = separator)) s

theorem splitBy_ne_nil (isSeparator : α → Bool) (s : List α) : splitBy isSeparator s ≠ [] := by
  cases s with
  | nil => simp [splitBy]
  | cons c rest =>
    simp only [splitBy]
    split
    · simp
    · split <;> simp

theorem flatten_splitBy (isSeparator : α → Bool) (s : List α) :
    (splitBy isSeparator s).flatten = s.filter (!isSeparator ·) := by
  induction s with
  | nil => simp [splitBy]
  | cons c rest ih =>
    simp only [splitBy]
    by_cases h : isSeparator c
    · simp [h, ih]
    · simp only [h, if_false, List.filter_cons, Bool.not_false, if_true, Bool.false_eq_true]
      split
      · rename_i hnil
        exact absurd hnil (splitBy_ne_nil isSeparator rest)
      · rename_i part parts hparts
        rw [hparts] at ih
        simpa using ih

end

end RegisterLayout.Text
