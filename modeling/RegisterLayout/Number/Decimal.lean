import RegisterLayout.Number.Binary64

/-!
# Decimal text of binary64 numbers

Two texts are in use: the shortest digits that read back as the same number, and a fixed count
of significant digits.  Both place the point by the same rule: positional notation for a range
of exponents, otherwise one digit before the point and an exponent.

Principal definitions: `Binary64.shortestDigits`, `Binary64.roundedDigits`, `Binary64.text`,
`Binary64.generalText`.
Principal result: `Binary64.isNumeralText_text` — such a text has no other characters than numerals
have.
-/

namespace RegisterLayout

/-- A character of a numeral. -/
def IsNumeralChar (c : Char) : Prop := c.isAlphanum = true ∨ c ∈ ['.', '+', '-']

instance (c : Char) : Decidable (IsNumeralChar c) := inferInstanceAs (Decidable (_ ∨ _))

/-- A text made of characters of numerals. -/
def IsNumeralText (s : String) : Prop := ∀ c ∈ s.toList, IsNumeralChar c

instance (s : String) : Decidable (IsNumeralText s) :=
  List.decidableBAll IsNumeralChar s.toList

theorem IsNumeralText.append {s t : String} (hs : IsNumeralText s) (ht : IsNumeralText t) :
    IsNumeralText (s ++ t) := by
  intro c hc
  rw [String.toList_append, List.mem_append] at hc
  exact hc.elim (hs c) (ht c)

theorem isNumeralText_ofList {cs : List Char} (h : ∀ c ∈ cs, c.isDigit = true) :
    IsNumeralText (String.ofList cs) := by
  intro c hc
  rw [String.toList_ofList] at hc
  exact .inl (by rw [Char.isAlphanum, h c hc, Bool.or_true])

/-- The digits of a number are those of a numeral. -/
theorem isNumeralText_toString (n : Nat) : IsNumeralText (toString n) := by
  rw [Nat.toString_eq_repr, ← String.ofList_toList (s := n.repr), Nat.toList_repr]
  exact isNumeralText_ofList fun _ hc => Nat.isDigit_of_mem_toDigits (by decide) (by decide) hc

/-- Decimal digits `digits` standing for `digits * 10 ^ exponent`. -/
structure Decimal where
  digits : Nat
  exponent : Int
  deriving DecidableEq, Repr

/-- How the digits of a number are set: exponents of the leading digit from `lowest` up to but
excluding `highest` are written positionally, and `wholePoint` adds `.0` to a whole number. -/
structure DecimalStyle where
  lowest : Int
  highest : Int
  wholePoint : Bool

/-- Shortest texts are positional from `1e-4` to below `1e16` and keep a point. -/
def DecimalStyle.shortest : DecimalStyle := ⟨-4, 16, true⟩

/-- General texts are positional from `1e-4` to below `1e6` and drop the point of a whole. -/
def DecimalStyle.general : DecimalStyle := ⟨-4, 6, false⟩

namespace Decimal

/-- The digits without trailing zeros. -/
def trim : Nat → Decimal → Decimal
  | 0, x => x
  | fuel + 1, x =>
    if x.digits ≠ 0 ∧ x.digits % 10 = 0 then trim fuel ⟨x.digits / 10, x.exponent + 1⟩ else x

private def exponentText (e : Int) : String :=
  let digits := toString e.natAbs
  "e" ++ (if e < 0 then "-" else "+") ++ (if digits.length < 2 then "0" else "") ++ digits

private def zeros (n : Nat) : String := String.ofList (List.replicate n '0')

/-- The text of a decimal in a style. -/
def text (style : DecimalStyle) (x : Decimal) : String :=
  let chars := Nat.toDigits 10 x.digits
  let whole := String.ofList chars
  let leading : Int := x.exponent + chars.length - 1
  if style.lowest ≤ leading ∧ leading < style.highest then
    if 0 ≤ x.exponent then
      whole ++ zeros x.exponent.toNat ++ (if style.wholePoint then ".0" else "")
    else if 0 ≤ leading then
      let n := leading.toNat + 1
      String.ofList (chars.take n) ++ "." ++ String.ofList (chars.drop n)
    else "0." ++ zeros (-leading - 1).toNat ++ whole
  else
    let rest := chars.drop 1
    String.ofList (chars.take 1) ++ (if rest.isEmpty then "" else "." ++ String.ofList rest)
      ++ exponentText leading

theorem isNumeralText_text (style : DecimalStyle) (x : Decimal) : IsNumeralText (x.text style) := by
  have hdigits : ∀ c ∈ Nat.toDigits 10 x.digits, c.isDigit = true :=
    fun c hc => Nat.isDigit_of_mem_toDigits (by decide) (by decide) hc
  have htake : ∀ n, IsNumeralText (String.ofList ((Nat.toDigits 10 x.digits).take n)) :=
    fun n => isNumeralText_ofList fun c hc => hdigits c (List.mem_of_mem_take hc)
  have hdrop : ∀ n, IsNumeralText (String.ofList ((Nat.toDigits 10 x.digits).drop n)) :=
    fun n => isNumeralText_ofList fun c hc => hdigits c (List.mem_of_mem_drop hc)
  have hzeros : ∀ n, IsNumeralText (zeros n) := fun n => isNumeralText_ofList fun c hc => by
    rw [List.eq_of_mem_replicate hc]
    rfl
  have hexponent : ∀ e, IsNumeralText (exponentText e) := by
    intro e
    have hsign : IsNumeralText (if e < 0 then "-" else "+") := by split <;> decide
    have hpad : IsNumeralText (if (toString e.natAbs).length < 2 then "0" else "") := by
      split <;> decide
    exact (((by decide : IsNumeralText "e").append hsign).append hpad).append
      (isNumeralText_toString e.natAbs)
  have hwhole := isNumeralText_ofList hdigits
  unfold text
  dsimp only
  split
  · split
    · refine (hwhole.append (hzeros _)).append ?_
      split <;> decide
    split
    · exact ((htake _).append (by decide)).append (hdrop _)
    · exact ((by decide : IsNumeralText "0.").append (hzeros _)).append hwhole
  · refine ((htake 1).append ?_).append (hexponent _)
    split
    · decide
    · exact (by decide : IsNumeralText ".").append (hdrop 1)

end Decimal

/-- The exponent `e` with `10 ^ e ≤ num / den < 10 ^ (e + 1)`, for positive `num` and `den`. -/
def decimalExponent (num den : Nat) : Int :=
  let e : Int := (Nat.toDigits 10 num).length - (Nat.toDigits 10 den).length
  let (n, d) := scaleRatio 10 (-e) num den
  if n < d then e - 1 else e

namespace Binary64

/-- The decimals with `count` digits next to `num / den`, below and above, that read back as
`x`; the nearer one comes first. -/
def readingBack (x : Binary64) (num den count : Nat) : List Decimal :=
  let e := decimalExponent num den - count + 1
  let (n, d) := scaleRatio 10 (-e) num den
  let low := n / d
  let candidates := if 2 * (n % d) < d ∨ (2 * (n % d) = d ∧ low % 2 = 0)
    then [low, low + 1] else [low + 1, low]
  (candidates.map (Decimal.mk · e)).filter
    fun c => ofDecimal false c.digits c.exponent = x

/-- The fewest digits that read back as the positive number `num / den`. -/
def shortestDigits (num den : Nat) : Decimal :=
  let x := ofRatio false num den
  let found := (List.range 17).findSome? fun k => (readingBack x num den (k + 1)).head?
  (found.getD ⟨num, 0⟩).trim 400

/-- `num / den` rounded to `count` significant digits, a tie going to the even digit. -/
def roundedDigits (count num den : Nat) : Decimal :=
  let e := decimalExponent num den - count + 1
  let (n, d) := scaleRatio 10 (-e) num den
  Decimal.trim count ⟨nearestEven n d, e⟩

private def textWith (style : DecimalStyle) (digitsOf : Nat → Nat → Decimal) (x : Binary64) :
    String :=
  match x with
  | .nan => "nan"
  | .infinite negative => if negative then "-inf" else "inf"
  | .negativeZero => "-" ++ Decimal.text style ⟨0, 0⟩
  | .finite q =>
    if q = 0 then Decimal.text style ⟨0, 0⟩
    else (if q < 0 then "-" else "") ++ Decimal.text style (digitsOf q.num.natAbs q.den)

/-- The shortest text that reads back. -/
def text (x : Binary64) : String := textWith .shortest shortestDigits x

theorem isNumeralText_text (x : Binary64) : IsNumeralText x.text := by
  have hzero := Decimal.isNumeralText_text .shortest ⟨0, 0⟩
  cases x with
  | nan => decide
  | infinite negative => cases negative <;> decide
  | negativeZero => exact (by decide : IsNumeralText "-").append hzero
  | finite q =>
    unfold text textWith
    dsimp only
    split
    · exact hzero
    · refine IsNumeralText.append ?_ (Decimal.isNumeralText_text _ _)
      split <;> decide

/-- The text with six significant digits. -/
def generalText (x : Binary64) : String := textWith .general (roundedDigits 6) x

end Binary64

end RegisterLayout
