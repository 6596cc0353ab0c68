import Mathlib.Algebra.Order.Field.Rat
import Mathlib.Data.Rat.Lemmas
import RegisterLayout.Number.Basic

/-!
# Rounding of what is not small

A power of two from one on is a number of the binary64 format, so no rounding takes a number from
above it to below it.  A sum of numbers none of which is negative, one of them at least as large as
such a power, therefore stays at least as large, be the sum exact, rounded or infinite.

Principal definition: `Number.Reaches`, a number that is not below a whole number.
Principal results: `Binary64.reaches_ofRatio`, `Number.reaches_of_add?`.
-/

namespace RegisterLayout

namespace Binary64

/-- A number of the format that is not below a positive whole number. -/
def Reaches (x : Binary64) (n : Nat) : Prop :=
  match x with
  | finite q => (n : Rat) ≤ q
  | infinite negative => negative = false
  | negativeZero | nan => False

theorem le_nearestEven {num den n : Nat} (hden : 0 < den) (h : n * den ≤ num) :
    n ≤ nearestEven num den := by
  have hfloor : n ≤ num / den := (Nat.le_div_iff_mul_le hden).2 h
  unfold nearestEven
  dsimp only
  split
  · exact hfloor
  · split <;> omega

/-- The exponent of a quotient is not above the difference of those of its parts. -/
theorem binaryExponent_le (num den : Nat) :
    binaryExponent num den ≤ (num.log2 : Int) - den.log2 := by
  unfold binaryExponent
  dsimp only
  split <;> omega

/-- The unit to which a quotient is rounded is not above the quotient, unless it is a fraction. -/
theorem unit_le {num den s : Nat} (hnum : num ≠ 0)
    (hs : (s : Int) = max (binaryExponent num den - 52) (-1074)) : 2 ^ s * den ≤ num := by
  have hexponent := binaryExponent_le num den
  have hlog : s + (den.log2 + 1) ≤ num.log2 := by omega
  calc
    2 ^ s * den ≤ 2 ^ s * 2 ^ (den.log2 + 1) := Nat.mul_le_mul_left _ Nat.lt_log2_self.le
    _ = 2 ^ (s + (den.log2 + 1)) := (Nat.pow_add 2 s _).symm
    _ ≤ 2 ^ num.log2 := Nat.pow_le_pow_right (by decide) hlog
    _ ≤ num := Nat.log2_self_le hnum

/-- A significand times its unit is not below a power of two that the quotient is not below. -/
theorem pow_le_significand {num den k : Nat} {unit : Int} (hden : 0 < den)
    (h : 2 ^ k * den ≤ num) (hunit : ∀ s : Nat, (s : Int) = unit → 2 ^ s * den ≤ num) :
    2 ^ k * 2 ^ (-unit).toNat ≤
      nearestEven (num * 2 ^ (-unit).toNat) (den * 2 ^ unit.toNat) * 2 ^ unit.toNat := by
  rcases Int.le_total unit 0 with hle | hge
  · -- The unit is a fraction, of which the power of two is a multiple.
    have hzero : unit.toNat = 0 := Int.toNat_of_nonpos hle
    rw [hzero, Nat.pow_zero, Nat.mul_one, Nat.mul_one]
    refine le_nearestEven hden ?_
    calc
      2 ^ k * 2 ^ (-unit).toNat * den = 2 ^ k * den * 2 ^ (-unit).toNat := Nat.mul_right_comm _ _ _
      _ ≤ num * 2 ^ (-unit).toNat := Nat.mul_le_mul_right _ h
  · obtain ⟨s, rfl⟩ := Int.eq_ofNat_of_zero_le hge
    have hzero : (-(s : Int)).toNat = 0 := by omega
    have hpos : 0 < den * 2 ^ s := Nat.mul_pos hden (Nat.two_pow_pos s)
    rw [hzero, Nat.pow_zero, Nat.mul_one, Nat.mul_one, Int.toNat_natCast]
    rcases Nat.le_total s k with hs | hs
    · have hk : 2 ^ k = 2 ^ (k - s) * 2 ^ s := by rw [← Nat.pow_add, Nat.sub_add_cancel hs]
      rw [hk]
      refine Nat.mul_le_mul_right _ (le_nearestEven hpos ?_)
      rw [Nat.mul_comm den, ← Nat.mul_assoc, ← hk]
      exact h
    · -- The unit is larger than the power of two, and the significand is not zero.
      have hone : 1 ≤ nearestEven num (den * 2 ^ s) := by
        refine le_nearestEven hpos ?_
        rw [Nat.one_mul, Nat.mul_comm]
        exact hunit s rfl
      calc
        2 ^ k ≤ 2 ^ s := Nat.pow_le_pow_right (by decide) hs
        _ = 1 * 2 ^ s := (Nat.one_mul _).symm
        _ ≤ _ := Nat.mul_le_mul_right _ hone

/-- **Rounding takes no quotient below a power of two.** -/
theorem reaches_ofRatio {num den k : Nat} (hden : 0 < den) (h : 2 ^ k * den ≤ num) :
    (ofRatio false num den).Reaches (2 ^ k) := by
  have hnum : num ≠ 0 := by
    have := Nat.mul_pos (Nat.two_pow_pos k) hden
    omega
  have hsignificand := pow_le_significand hden h fun s hs => unit_le hnum hs
  generalize hunit : max (binaryExponent num den - 52) (-1074) = unit at hsignificand
  have hne : nearestEven (num * 2 ^ (-unit).toNat) (den * 2 ^ unit.toNat) ≠ 0 := by
    intro hzero
    rw [hzero, Nat.zero_mul, Nat.le_zero] at hsignificand
    exact absurd hsignificand (Nat.mul_pos (Nat.two_pow_pos k) (Nat.two_pow_pos _)).ne'
  unfold ofRatio
  generalize Nat.pow 2 1024 = limit
  simp only [hnum, hunit, scaleRatio, if_false, Nat.one_mul, Bool.false_eq_true, neg_neg,
    Nat.pow_eq, hne]
  split
  · rfl
  · have hpos : (0 : Rat) < ((2 ^ (-unit).toNat : Nat) : Rat) := by
      exact_mod_cast Nat.two_pow_pos (-unit).toNat
    simp only [Reaches, Rat.mkRat_eq_div]
    rw [le_div_iff₀ hpos]
    exact_mod_cast hsignificand

theorem reaches_ofRat {q : Rat} {k : Nat} (h : ((2 ^ k : Nat) : Rat) ≤ q) :
    (ofRat q).Reaches (2 ^ k) := by
  have hnonneg : 0 ≤ q := le_trans (Nat.cast_nonneg _) h
  have hsign : decide (q < 0) = false := decide_eq_false (not_lt.2 hnonneg)
  have hnum : ((q.num.natAbs : Nat) : Rat) = q * q.den := by
    rw [Rat.mul_den_eq_num, ← Int.cast_natCast, Int.natAbs_of_nonneg (Rat.num_nonneg.2 hnonneg)]
  rw [ofRat, hsign]
  refine reaches_ofRatio q.den_pos ?_
  have hscaled : ((2 ^ k : Nat) : Rat) * q.den ≤ q * q.den :=
    mul_le_mul_of_nonneg_right h (Nat.cast_nonneg _)
  rw [← hnum] at hscaled
  exact_mod_cast hscaled

theorem reaches_ofInt {n : Int} {k : Nat} (h : ((2 ^ k : Nat) : Int) ≤ n) :
    (ofInt n).Reaches (2 ^ k) := by
  have hpos : (0 : Int) ≤ ((2 ^ k : Nat) : Int) := Int.natCast_nonneg _
  have hsign : decide (n < 0) = false := decide_eq_false (by omega)
  rw [ofInt, hsign]
  exact reaches_ofRatio (by decide) (by omega)

theorem add_comm (x y : Binary64) : x.add y = y.add x := by
  cases x <;> cases y <;> simp only [add, Rat.add_comm]
  rename_i a b
  cases a <;> cases b <;> rfl

/-- A sum is not below a power of two that one of its numbers is not below, if the other is not
either or is nothing. -/
theorem reaches_add {x y : Binary64} {k : Nat} (hx : x.Reaches (2 ^ k))
    (hy : y = .finite 0 ∨ y.Reaches (2 ^ k)) : (x.add y).Reaches (2 ^ k) := by
  have hone : (0 : Rat) ≤ ((2 ^ k : Nat) : Rat) := Nat.cast_nonneg _
  cases x with
  | finite a =>
    rcases hy with rfl | hy
    · refine reaches_ofRat ?_
      rw [add_zero]
      exact hx
    · cases y with
      | finite b => exact reaches_ofRat (le_add_of_le_of_nonneg hx (le_trans hone hy))
      | infinite negative => exact hy
      | _ => exact hy.elim
  | infinite negative =>
    obtain rfl : negative = false := hx
    rcases hy with rfl | hy
    · rfl
    · cases y with
      | finite b => rfl
      | infinite negative =>
        obtain rfl : negative = false := hy
        rfl
      | _ => exact hy.elim
  | _ => exact hx.elim

end Binary64

namespace Number

/-- A number that is not below a whole number. -/
def Reaches (a : Number) (n : Nat) : Prop := (Number.int n).le a = true

theorem reaches_int {m : Int} {n : Nat} : (int m).Reaches n ↔ (n : Int) ≤ m := by
  rw [Reaches, le_int, decide_eq_true_eq]

theorem reaches_real {x : Binary64} {n : Nat} (hn : 0 < n) :
    (real x).Reaches n ↔ x.Reaches n := by
  unfold Reaches Binary64.Reaches
  cases x with
  | finite q =>
    simp only [le, lt, same, Binary64.toRat?, Option.map_some, Option.getD_some, Bool.or_eq_true,
      decide_eq_true_eq, beq_iff_eq, Option.some.injEq, Int.cast_natCast, eq_comm (a := q)]
    exact le_iff_lt_or_eq.symm
  | infinite negative => simp [le, lt, same, Binary64.toRat?]
  | negativeZero =>
    have hpos : (0 : Rat) < n := Nat.cast_pos.2 hn
    simp [le, lt, same, Binary64.toRat?, hpos.not_gt, hpos.ne]
  | nan => simp [le, lt, same, Binary64.toRat?]

variable {a b c : Number} {k : Nat}

theorem reaches_of_toReal? {x : Binary64} (ha : a.Reaches (2 ^ k)) (hx : a.toReal? = some x) :
    x.Reaches (2 ^ k) := by
  cases a with
  | int n =>
    have hrounded := Binary64.reaches_ofInt (reaches_int.1 ha)
    unfold toReal? at hx
    dsimp only at hx
    split at hx
    · cases hx
    · obtain rfl := Option.some.inj hx
      exact hrounded
  | real y =>
    obtain rfl := Option.some.inj hx
    exact (reaches_real (Nat.two_pow_pos k)).1 ha

theorem add?_eq_some (h : a.add? b = some c) :
    (∃ m n, a = int m ∧ b = int n ∧ c = int (m + n)) ∨
      ∃ x y, a.toReal? = some x ∧ b.toReal? = some y ∧ c = real (x.add y) := by
  have hrounded : ∀ {a b : Number},
      (do return real ((← a.toReal?).add (← b.toReal?)) : Option Number) = some c →
        ∃ x y, a.toReal? = some x ∧ b.toReal? = some y ∧ c = real (x.add y) := by
    intro a b h
    obtain ⟨x, hx, h⟩ := Option.bind_eq_some_iff.1 h
    obtain ⟨y, hy, h⟩ := Option.bind_eq_some_iff.1 h
    exact ⟨x, y, hx, hy, (Option.some.inj h).symm⟩
  cases a with
  | int m =>
    cases b with
    | int n => exact .inl ⟨m, n, rfl, rfl, (Option.some.inj h).symm⟩
    | real y => exact .inr (hrounded h)
  | real x => exact .inr (hrounded h)

/-- **A sum of numbers that are nothing or at least a power of two is at least that power, unless
all are nothing.** -/
theorem reaches_of_add? (hc : a.add? b = some c) (ha : a = 0 ∨ a.Reaches (2 ^ k))
    (hb : b = 0 ∨ b.Reaches (2 ^ k)) (hone : a.Reaches (2 ^ k) ∨ b.Reaches (2 ^ k)) :
    c.Reaches (2 ^ k) := by
  have hreal : ∀ {d : Number} {x : Binary64}, d = 0 ∨ d.Reaches (2 ^ k) → d.toReal? = some x →
      x = .finite 0 ∨ x.Reaches (2 ^ k) := by
    rintro d x (rfl | hd) hx
    · exact .inl (Option.some.inj hx).symm
    · exact .inr (reaches_of_toReal? hd hx)
  rcases add?_eq_some hc with ⟨m, n, rfl, rfl, rfl⟩ | ⟨x, y, hx, hy, rfl⟩
  · have hzero : ∀ {d : Int}, Number.int d = 0 ∨ (Number.int d).Reaches (2 ^ k) → 0 ≤ d := by
      rintro d (hd | hd)
      · exact (Number.int.inj hd).ge
      · exact le_trans (Int.natCast_nonneg _) (reaches_int.1 hd)
    have hm := hzero ha
    have hn := hzero hb
    simp only [reaches_int] at hone ⊢
    omega
  · rw [reaches_real (Nat.two_pow_pos k)]
    rcases hone with ha | hb
    · exact Binary64.reaches_add (reaches_of_toReal? ha hx) (hreal hb hy)
    · rw [Binary64.add_comm]
      exact Binary64.reaches_add (reaches_of_toReal? hb hy) (hreal ha hx)

end Number

end RegisterLayout
