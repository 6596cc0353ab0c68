/-!
# Code points

A text is a list of code points.  All of them but the halves of surrogate pairs are characters;
an escape can name such a half on its own, and it then stays a code point of its own, which is
counted and shown like any other but stands for nothing.

Texts have an order, by their first difference; lists are sorted by insertion, which keeps entries
of equal rank as they stood.

Principal definitions: `CodePoint`, `Text`, `Text.chars?`, `Text.joined`, `Text.compare`,
`Text.sortBy`.
Principal results: `Text.sortBy_perm`, `Text.sortBy_eq_nil_iff`.
-/

namespace RegisterLayout

/-- A character, or one half of a surrogate pair on its own. -/
inductive CodePoint where
  | char (c : Char)
  | surrogate (index : Fin 0x800)
  deriving DecidableEq, Inhabited, Repr

namespace CodePoint

instance : Coe Char CodePoint := ⟨char⟩

/-- The number of a code point. -/
def code : CodePoint → Nat
  | char c => c.toNat
  | surrogate index => 0xD800 + index

/-- The code point with a number; the numbers end below `0x110000`. -/
def ofNat? (n : Nat) : Option CodePoint :=
  if h : 0xD800 ≤ n ∧ n < 0xE000 then some (surrogate ⟨n - 0xD800, by omega⟩)
  else if n < 0x110000 then some (char (Char.ofNat n))
  else none

/-- A test of characters, which no surrogate passes. -/
def holds (p : Char → Bool) : CodePoint → Bool
  | char c => p c
  | surrogate _ => false

theorem code_inj {a b : CodePoint} (h : a.code = b.code) : a = b := by
  have hchar : ∀ (c : Char) (i : Fin 0x800), c.toNat ≠ 0xD800 + i := by
    intro c i hc
    have hvalid := c.valid
    have hnat : c.val.toNat = c.toNat := rfl
    simp only [UInt32.isValidChar, Nat.isValidChar] at hvalid
    omega
  cases a with
  | char c =>
    cases b with
    | char d => exact congrArg CodePoint.char (Char.toNat_inj.1 h)
    | surrogate i => exact absurd h (hchar c i)
  | surrogate i =>
    cases b with
    | char d => exact absurd h.symm (hchar d i)
    | surrogate j =>
      have hij : (i : Nat) = j := Nat.add_left_cancel h
      rw [Fin.ext hij]

end CodePoint

/-- A text of any code points. -/
abbrev Text := List CodePoint

instance : LawfulBEq Text := inferInstance

namespace Text

def ofChars (s : List Char) : Text := s.map .char

def ofString (s : String) : Text := ofChars s.toList

instance : Coe String Text := ⟨ofString⟩

/-- The characters of a text without surrogates. -/
def chars? : Text → Option (List Char)
  | [] => some []
  | .char c :: rest => (chars? rest).map (c :: ·)
  | .surrogate _ :: _ => none

/-- The text as a string, which has no place for surrogates. -/
def toString? (s : Text) : Option String := (chars? s).map String.ofList

/-- A test of the characters of a text, which no text with a surrogate passes. -/
def satisfies (p : List Char → Bool) (s : Text) : Bool := (s.chars?.map p).getD false

def blanks (n : Nat) : Text := List.replicate n (.char ' ')

/-- Texts one after the other with a separator between them. -/
def joined (separator : Text) (parts : List Text) : Text := separator.intercalate parts

/-- Texts one after the other, each at the end of a line. -/
def ofLines (lines : List Text) : Text := lines.flatMap fun line => line ++ "\n"

/-- The order of texts by their code points. -/
def compare : Text → Text → Ordering
  | [], [] => .eq
  | [], _ :: _ => .lt
  | _ :: _, [] => .gt
  | a :: s, b :: t => (Ord.compare a.code b.code).then (compare s t)

theorem eq_of_compare {s t : Text} (h : compare s t = .eq) : s = t := by
  induction s generalizing t with
  | nil => cases t <;> simp_all [compare]
  | cons a s ih =>
    cases t with
    | nil => simp [compare] at h
    | cons b t =>
      rw [compare, Ordering.then_eq_eq, Nat.compare_eq_eq] at h
      rw [CodePoint.code_inj h.1, ih h.2]

/-- The order of lists of texts, the first difference deciding. -/
def compareAll : List Text → List Text → Ordering
  | [], [] => .eq
  | [], _ :: _ => .lt
  | _ :: _, [] => .gt
  | a :: s, b :: t => (compare a b).then (compareAll s t)

@[simp] theorem chars?_ofChars (s : List Char) : (ofChars s).chars? = some s := by
  induction s with
  | nil => rfl
  | cons c rest ih => simpa [ofChars, chars?] using ih

@[simp] theorem ofChars_append (s t : List Char) : ofChars (s ++ t) = ofChars s ++ ofChars t := by
  simp [ofChars]

/-- A text has characters only if it is made of them. -/
theorem eq_ofChars_of_chars? {s : Text} {cs : List Char} (h : s.chars? = some cs) :
    s = ofChars cs := by
  induction s generalizing cs with
  | nil => simp_all [chars?, ofChars]
  | cons c rest ih =>
    cases c with
    | surrogate _ => simp [chars?] at h
    | char c =>
      obtain ⟨more, hm, rfl⟩ := Option.map_eq_some_iff.1 h
      simp [ofChars, ih hm]

/-! ## Sorting -/

/-- Puts an entry before the first one that it may stand before. -/
def insertBy {α : Type} (before : α → α → Bool) (x : α) : List α → List α
  | [] => [x]
  | y :: ys => if before x y then x :: y :: ys else y :: insertBy before x ys

/-- The entries in order, those of equal rank as they were. -/
def sortBy {α : Type} (before : α → α → Bool) : List α → List α
  | [] => []
  | x :: xs => insertBy before x (sortBy before xs)

theorem insertBy_perm {α : Type} (before : α → α → Bool) (x : α) (ys : List α) :
    (insertBy before x ys).Perm (x :: ys) := by
  induction ys with
  | nil => exact List.Perm.refl _
  | cons y ys ih =>
    unfold insertBy
    split
    · exact List.Perm.refl _
    · exact (ih.cons y).trans (List.Perm.swap x y ys)

theorem sortBy_perm {α : Type} (before : α → α → Bool) (xs : List α) :
    (sortBy before xs).Perm xs := by
  induction xs with
  | nil => exact List.Perm.refl _
  | cons x xs ih => exact (insertBy_perm before x _).trans (ih.cons x)

theorem sortBy_eq_nil_iff {α : Type} (before : α → α → Bool) (xs : List α) :
    sortBy before xs = [] ↔ xs = [] := by
  rw [← List.length_eq_zero_iff, (sortBy_perm before xs).length_eq, List.length_eq_zero_iff]

end Text

end RegisterLayout
