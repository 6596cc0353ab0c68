import RegisterLayout.Number.Decimal

/-!
# Numbers of a model

A width, an offset or an enumeration value is a whole number of any size or a binary64 number.
Whole numbers stay whole under arithmetic; a binary64 operand makes the result one, which a whole
number beyond the range of the format does not allow.

Principal definitions: `Number`, `Number.add?`, `Number.sub?`, `Number.same` and `Number.lt`
(numeric comparison across the two kinds), `Number.text` and `Number.isWritable`.
-/

namespace RegisterLayout

/-- A whole number or a binary64 number. -/
inductive Number where
  | int (n : Int)
  | real (x : Binary64)
  deriving DecidableEq, Repr

namespace Number

instance : OfNat Number n := ⟨.int n⟩

instance : Inhabited Number := ⟨0⟩

instance : Coe Int Number := ⟨.int⟩

/-- The nearest binary64 number; none for a whole number beyond the range of the format. -/
def toReal? : Number → Option Binary64
  | int n =>
    match Binary64.ofInt n with
    | .infinite _ => none
    | x => some x
  | real x => some x

/-- The sum; none if only one of the numbers is whole and too large to be added to the other. -/
def add? : Number → Number → Option Number
  | int a, int b => some (int (a + b))
  | a, b => do return real ((← a.toReal?).add (← b.toReal?))

def neg : Number → Number
  | int a => int (-a)
  | real x => real x.neg

/-- The difference, where the sum with the negated number is there. -/
def sub? (a b : Number) : Option Number := a.add? b.neg

/-- The number `n` further on. -/
def shift (n : Int) : Number → Number
  | int a => int (a + n)
  | real x => real (x.add (.ofInt n))

/-- The number taken `n` times. -/
def scale (n : Int) : Number → Number
  | int a => int (a * n)
  | real x => real (x.mul (.ofInt n))

/-- The greatest whole number not above `a / d`. -/
def floorDiv : Number → Int → Number
  | int a, d => int (a.fdiv d)
  | real x, d => real (x.floorDiv d)

/-- The remainder that goes with `floorDiv`. -/
def mod : Number → Int → Number
  | int a, d => int (a.fmod d)
  | real x, d => real (x.mod d)

@[simp] theorem add?_int (a b : Int) : (int a).add? (int b) = some (int (a + b)) := rfl

@[simp] theorem sub?_int (a b : Int) : (int a).sub? (int b) = some (int (a - b)) := rfl

@[simp] theorem shift_int (n a : Int) : (int a).shift n = int (a + n) := rfl

@[simp] theorem scale_int (n a : Int) : (int a).scale n = int (a * n) := rfl

@[simp] theorem floorDiv_int (a d : Int) : (int a).floorDiv d = int (a.fdiv d) := rfl

@[simp] theorem mod_int (a d : Int) : (int a).mod d = int (a.fmod d) := rfl

def isZero : Number → Bool
  | int n => n == 0
  | real x => x.isZero

/-- The remainder of a multiple. -/
theorem isZero_mod_int {d : Int} (hd : 0 ≤ d) (a : Int) :
    ((int a).mod d).isZero = decide (d ∣ a) := by
  show (a.fmod d == 0) = decide (d ∣ a)
  rw [Int.fmod_eq_emod_of_nonneg a hd, Bool.beq_eq_decide_eq, decide_eq_decide]
  exact Int.dvd_iff_emod_eq_zero.symm

/-! ## Comparison -/

/-- The exact order of two numbers of either kind. -/
def lt : Number → Number → Bool
  | int a, int b => decide (a < b)
  | real x, real y => x.lt y
  | int a, real y =>
    match y with
    | .infinite negative => !negative
    | y => (y.toRat?.map fun q => decide ((a : Rat) < q)).getD false
  | real x, int b =>
    match x with
    | .infinite negative => negative
    | x => (x.toRat?.map fun q => decide (q < (b : Rat))).getD false

/-- Equality of values: the whole number `8` and the binary64 number `8` are the same. -/
def same : Number → Number → Bool
  | int a, int b => a == b
  | real x, real y => x.same y
  | int a, real y => y.toRat? == some (a : Rat)
  | real x, int b => x.toRat? == some (b : Rat)

def le (a b : Number) : Bool := a.lt b || a.same b

@[simp] theorem le_int (a b : Int) : (int a).le (int b) = decide (a ≤ b) := by
  rw [Bool.eq_iff_iff]
  simp only [le, lt, same, Bool.or_eq_true, decide_eq_true_eq, beq_iff_eq]
  omega

@[simp] theorem lt_int (a b : Int) : (int a).lt (int b) = decide (a < b) := rfl

@[simp] theorem same_int (a b : Int) : (int a).same (int b) = (a == b) := rfl

/-- The first of two numbers unless the second is below it. -/
def min (a b : Number) : Number := if b.lt a then b else a

/-- The first of two numbers unless the second is above it. -/
def max (a b : Number) : Number := if a.lt b then b else a

theorem min_int (a b : Int) : (int a).min (int b) = int (Min.min a b) := by
  simp only [min, lt_int, decide_eq_true_eq]
  split <;> congr 1 <;> omega

theorem max_int (a b : Int) : (int a).max (int b) = int (Max.max a b) := by
  simp only [max, lt_int, decide_eq_true_eq]
  split <;> congr 1 <;> omega

/-! ## Text -/

def text : Number → String
  | int n => toString n
  | real x => x.text

/-- The text of a number is a numeral, or the name of a number without value. -/
theorem isNumeralText_text (n : Number) : IsNumeralText n.text := by
  cases n with
  | int n =>
    cases n with
    | ofNat n => exact isNumeralText_toString n
    | negSucc n => exact (by decide : IsNumeralText "-").append (isNumeralText_toString (n + 1))
  | real x => exact x.isNumeralText_text

/-- The most digits of a whole number that are written or read in one numeral. -/
def maxDigits : Nat := 4300

/-- A number that has a text: a whole number of too many digits has none. -/
def isWritable : Number → Bool
  | int n => n.natAbs < Nat.pow 10 maxDigits
  | real _ => true

/-- The number without its fraction, as a count in a message; `0` for a number without value. -/
def truncate : Number → Int
  | int n => n
  | real x =>
    match x.toRat? with
    | some q => if q < 0 then -(-q).floor else q.floor
    | none => 0

/-- The least whole number not below; `0` for a number without value. -/
def ceiling : Number → Int
  | int n => n
  | real x => ((x.toRat?.map fun q => -(-q).floor)).getD 0

@[simp] theorem ceiling_int (n : Int) : (int n).ceiling = n := rfl

/-- Lower case hexadecimal digits. -/
def hexText (n : Nat) : String := String.ofList (Nat.toDigits 16 n)

/-- Hexadecimal digits after `0x`, the sign after the mark. -/
def hexText? : Number → Option String
  | int n => some ("0x" ++ (if n < 0 then "-" else "") ++ hexText n.natAbs)
  | real _ => none

end Number

end RegisterLayout
