/-!
# Binary64 numbers

Numbers of the binary interchange format with 64 bits, kept as exact rationals.  A sum or a
product is the exact one, rounded once to the nearest number of the format, a tie going to the
even significand.

Principal definitions:

* `Binary64` — a finite value, the negative zero, an infinity or the undefined value;
* `Binary64.ofRatio` — the nearest number of the format to a quotient of naturals;
* `Binary64.add`, `Binary64.mul`, `Binary64.floorDiv`, `Binary64.mod` — the arithmetic of the
  format.
-/

namespace RegisterLayout

/-- A number of the 64 bit binary format; `finite 0` is the positive zero. -/
inductive Binary64 where
  | finite (value : Rat)
  | negativeZero
  | infinite (negative : Bool)
  | nan
  deriving DecidableEq, Repr

/-- The nearest whole number to `num / den`, a tie going to the even one. -/
def nearestEven (num den : Nat) : Nat :=
  let q := num / den
  let r := num % den
  if 2 * r < den then q else if den < 2 * r then q + 1 else q + q % 2

/-- `base ^ e` as a quotient of two naturals, for an exponent of either sign. -/
def scaleRatio (base : Nat) (e : Int) (num den : Nat) : Nat × Nat :=
  (num * Nat.pow base e.toNat, den * Nat.pow base (-e).toNat)

/-- The exponent `e` with `2 ^ e ≤ num / den < 2 ^ (e + 1)`, for positive `num` and `den`. -/
def binaryExponent (num den : Nat) : Int :=
  let e : Int := num.log2 - den.log2
  let (n, d) := scaleRatio 2 (-e) num den
  if n < d then e - 1 else e

namespace Binary64

def zero (negative : Bool) : Binary64 := if negative then .negativeZero else .finite 0

/-- `num / den` with the sign given, rounded to the nearest number of the format. -/
def ofRatio (negative : Bool) (num den : Nat) : Binary64 :=
  if num = 0 then zero negative else
  let unit := max (binaryExponent num den - 52) (-1074)
  let (n, d) := scaleRatio 2 (-unit) num den
  let significand := nearestEven n d
  let (n, d) := scaleRatio 2 unit significand 1
  if significand = 0 then zero negative
  else if Nat.pow 2 1024 * d ≤ n then .infinite negative
  else .finite (mkRat (if negative then -n else n) d)

/-- The nearest number of the format; `0` is taken as positive. -/
def ofRat (q : Rat) : Binary64 := ofRatio (decide (q < 0)) q.num.natAbs q.den

def ofInt (n : Int) : Binary64 := ofRatio (decide (n < 0)) n.natAbs 1

/-- The number written as `digits` times a power of ten.  Powers far outside the range of the
format are settled without computing them. -/
def ofDecimal (negative : Bool) (digits : Nat) (exponent : Int) : Binary64 :=
  let size : Int := (Nat.toDigits 10 digits).length + exponent
  if digits = 0 then zero negative
  else if size > 400 then .infinite negative
  else if size < -400 then zero negative
  else
    let (n, d) := scaleRatio 10 exponent digits 1
    ofRatio negative n d

def isNegative : Binary64 → Bool
  | .finite q => decide (q < 0)
  | .negativeZero => true
  | .infinite negative => negative
  | .nan => false

/-- The exact value of a finite number. -/
def toRat? : Binary64 → Option Rat
  | .finite q => some q
  | .negativeZero => some 0
  | _ => none

def isZero (x : Binary64) : Bool := x.toRat? == some 0

/-! ## Arithmetic -/

def add : Binary64 → Binary64 → Binary64
  | .nan, _ | _, .nan => .nan
  | .infinite a, .infinite b => if a = b then .infinite a else .nan
  | .infinite a, _ | _, .infinite a => .infinite a
  | .negativeZero, y => y
  | x, .negativeZero => x
  | .finite a, .finite b => ofRat (a + b)

def neg : Binary64 → Binary64
  | .finite q => if q = 0 then .negativeZero else .finite (-q)
  | .negativeZero => .finite 0
  | .infinite negative => .infinite (!negative)
  | .nan => .nan

def mul (x y : Binary64) : Binary64 :=
  let negative := x.isNegative != y.isNegative
  match x.toRat?, y.toRat? with
  | some a, some b => if a * b = 0 then zero negative else ofRat (a * b)
  | _, _ =>
    if x = .nan ∨ y = .nan ∨ x.isZero ∨ y.isZero then .nan else .infinite negative

/-- The greatest whole number not above `x / d`, for a divisor `d ≠ 0`. -/
def floorDiv (x : Binary64) (d : Int) : Binary64 :=
  match x with
  | .finite q => if q = 0 then zero (decide (d < 0)) else ofInt (q / d).floor
  | .negativeZero => zero (decide (0 < d))
  | _ => .nan

/-- What `d * floorDiv x d` leaves of `x`; it has the sign of `d`. -/
def mod (x : Binary64) (d : Int) : Binary64 :=
  match x.toRat? with
  | some q =>
    let r := q - d * (q / d).floor
    if r = 0 then zero (decide (d < 0)) else ofRat r
  | none => .nan

/-- Numeric order; nothing is below or above `nan`. -/
def lt (x y : Binary64) : Bool :=
  match x.toRat?, y.toRat? with
  | some a, some b => decide (a < b)
  | _, _ =>
    match x, y with
    | .nan, _ | _, .nan => false
    | .infinite a, .infinite b => a && !b
    | .infinite a, _ => a
    | _, .infinite b => !b
    | _, _ => false

/-- Equality of values: both zeros are one value, and nothing is equal to `nan`. -/
def same (x y : Binary64) : Bool :=
  match x.toRat?, y.toRat? with
  | some a, some b => decide (a = b)
  | _, _ => decide (x = y ∧ x ≠ .nan)

end Binary64

end RegisterLayout
