import RegisterLayout.Placement
import RegisterLayout.Proofs.Naming

/-!
# Words and blobs

When a word or a blob can be placed at an offset, and what its placing gives.  A word needs one of
the four widths and an offset that is a multiple of it, a blob at least one byte.

Principal definitions: `Value.whole`, `Value.Between`, `Word.Admissible`.
Principal results: `checkEnumeration_eq_ok_iff`, `placeWord_eq_ok_iff`, `placeBlob_eq_ok_iff`.
-/

namespace RegisterLayout

namespace Value

/-- The whole number that a value is; `0` for any other value. -/
def whole (v : Value) : Int := v.int?.getD 0

@[simp] theorem whole_int (n : Int) : (Value.int n).whole = n := rfl

theorem eq_int_of_one_le_whole {v : Value} (h : 1 ≤ v.whole) : v = .int v.whole := by
  unfold whole at h ⊢
  cases hv : v.int? with
  | none =>
    rw [hv] at h
    exact absurd h (by decide)
  | some n => exact int?_eq_some.1 hv

/-- A value that counts as a number between two bounds. -/
def Between (v : Value) (least greatest : Int) : Prop :=
  ∃ n, v.number? = some n ∧ n.lt least = false ∧ (Number.int greatest).lt n = false

instance (v : Value) (least greatest : Int) : Decidable (v.Between least greatest) :=
  decidable_of_iff
    ((v.number?.any fun n => !n.lt least && !(Number.int greatest).lt n) = true) (by
      cases hn : v.number? <;> simp [Between, hn])

@[simp] theorem between_int {n least greatest : Int} :
    (Value.int n).Between least greatest ↔ least ≤ n ∧ n ≤ greatest := by
  simp [Between]

end Value

/-! ## Enumerations -/

theorem checkEnumeration_eq_ok_iff {fullName : Text} {least greatest : Int}
    {entries : Enumeration} :
    checkEnumeration fullName least greatest entries = .ok () ↔
      ∀ e ∈ entries, e.2.Between least greatest := by
  induction entries with
  | nil => simp [checkEnumeration]
  | cons e rest ih =>
    obtain ⟨key, value⟩ := e
    rw [checkEnumeration, List.forall_mem_cons, ← ih]
    cases hn : value.number? with
    | none => simp [Value.Between, hn]
    | some n =>
      by_cases hlow : n.lt least = true
      · simp [Value.Between, hn, hlow]
      · by_cases hhigh : (Number.int greatest).lt n = true
        · simp [Value.Between, hn, hlow, hhigh]
        · simp [Value.Between, hn, hlow, hhigh]

/-! ## Words -/

theorem wordWidth?_int (n : Int) :
    wordWidth? (.int n) = if n ∈ wordWidths then some (.int n) else none := by
  have hany : (wordWidths.any fun w => (Number.int n).same w) = decide (n ∈ wordWidths) := by
    rw [List.any_eq, decide_eq_decide]
    simp
  simp only [wordWidth?, Value.number?_num, Option.filter, hany, decide_eq_true_eq]

theorem wordWidths_pos {n : Int} (h : n ∈ wordWidths) : 0 < n ∧ 8 ∣ n := by
  simp only [wordWidths, List.mem_cons, List.not_mem_nil, or_false] at h
  omega

theorem isAligned_int {start n : Int} (hn : n ∈ wordWidths) :
    isAligned (.int start) (.int n) = .ok (decide (n / 8 ∣ start)) := by
  obtain ⟨hpos, -⟩ := wordWidths_pos hn
  have hdiv : n.fdiv 8 = n / 8 := Int.fdiv_eq_ediv_of_nonneg n (by decide)
  show Except.ok ((Number.int start).mod (n.fdiv 8)).isZero = _
  rw [hdiv, Number.isZero_mod_int (by omega)]

/-- What only a named word may carry, an unnamed one does not. -/
theorem unusedAttribute?_eq_none_iff {w : Word} :
    unusedAttribute? w = none ↔
      (¬w.header.IsNamed → w.enumeration = none ∧ w.typedef = none ∧ w.signed = none) := by
  unfold unusedAttribute? Header.IsNamed
  by_cases hn : w.header.givenName?.isSome = true
  · simp [hn]
  · cases he : w.enumeration <;> cases ht : w.typedef <;> cases hs : w.signed <;>
      simp [hn]

/-- The offset behind a word. -/
theorem plus_floorDiv_int (start n : Int) :
    (Number.int start).plus ((Number.int n).floorDiv 8) = .ok (.int (start + n / 8)) := by
  rw [Number.floorDiv_int, Int.fdiv_eq_ediv_of_nonneg n (by decide), Number.plus_int]

/-- A word that may stand at an offset. -/
structure Word.Admissible (w : Word) (start : Int) : Prop where
  width : w.bits.whole ∈ wordWidths
  aligned : w.bits.whole / 8 ∣ start
  unnamed : ¬w.header.IsNamed → w.enumeration = none ∧ w.typedef = none ∧ w.signed = none
  /-- Signed words have one bit less for the amount of a value. -/
  enumeration : ∀ entries, w.enumeration = some entries → ∀ e ∈ entries,
    if (filled? w.signed).isSome then
      e.2.Between (-2 ^ (w.bits.whole.toNat - 1)) (2 ^ (w.bits.whole.toNat - 1) - 1)
    else e.2.Between 0 (2 ^ w.bits.whole.toNat - 1)

instance (w : Word) (start : Int) : Decidable (w.Admissible start) :=
  decidable_of_iff
    (w.bits.whole ∈ wordWidths ∧ w.bits.whole / 8 ∣ start ∧
      (¬w.header.IsNamed →
        w.enumeration.isNone ∧ w.typedef.isNone ∧ w.signed.isNone) ∧
      ∀ entries ∈ w.enumeration, ∀ e ∈ entries,
        if (filled? w.signed).isSome then
          e.2.Between (-2 ^ (w.bits.whole.toNat - 1)) (2 ^ (w.bits.whole.toNat - 1) - 1)
        else e.2.Between 0 (2 ^ w.bits.whole.toNat - 1))
    (by
      simp only [Option.isNone_iff_eq_none]
      exact ⟨fun ⟨hwidth, haligned, hunnamed, henumeration⟩ =>
          ⟨hwidth, haligned, hunnamed, henumeration⟩,
        fun ha => ⟨ha.width, ha.aligned, ha.unnamed, ha.enumeration⟩⟩)

/-- The conditions on a word of one of the widths, as its placing checks them. -/
theorem Word.admissible_iff {w : Word} {n : Int} (hn : w.bits = .int n) (hwidth : n ∈ wordWidths)
    {start : Int} (fullName : Text) :
    w.Admissible start ↔
      n / 8 ∣ start ∧ unusedAttribute? w = none ∧
        ∀ entries, w.enumeration = some entries →
          checkEnumeration fullName (valueBounds (filled? w.signed).isSome n.toNat).1
            (valueBounds (filled? w.signed).isSome n.toNat).2 entries = .ok () := by
  have hwhole : w.bits.whole = n := by rw [hn]; rfl
  have hvalues : ∀ v : Value,
      (if (filled? w.signed).isSome then
        v.Between (-2 ^ (w.bits.whole.toNat - 1)) (2 ^ (w.bits.whole.toNat - 1) - 1)
      else v.Between 0 (2 ^ w.bits.whole.toNat - 1)) ↔
        v.Between (valueBounds (filled? w.signed).isSome n.toNat).1
          (valueBounds (filled? w.signed).isSome n.toNat).2 := by
    intro v
    rw [hwhole, valueBounds]
    split <;> rfl
  simp only [unusedAttribute?_eq_none_iff, checkEnumeration_eq_ok_iff, ← hvalues]
  constructor
  · intro h
    exact ⟨hwhole ▸ h.aligned, h.unnamed, h.enumeration⟩
  · rintro ⟨haligned, hunnamed, henumeration⟩
    exact ⟨hwhole ▸ hwidth, hwhole ▸ haligned, hunnamed, henumeration⟩

/-- **A word of whole width is placed exactly if it may stand there, and ends behind its bytes.** -/
theorem placeWord_eq_ok_iff {w : Word} {n : Int} (hn : w.bits = .int n) {fullName : Text}
    {start : Int} {r : Word × Number} :
    placeWord w fullName (.int start) = .ok r ↔
      w.Admissible start ∧
        r = ({ w with header := w.header.placedAt fullName (.int start) },
          .int (start + n / 8)) := by
  by_cases hwidth : n ∈ wordWidths
  · rw [Word.admissible_iff hn hwidth fullName, placeWord]
    simp only [hn, wordWidth?_int, if_pos hwidth, isAligned_int hwidth, bind_eq_ok_iff,
      Except.ok.injEq, exists_eq_left', refuse_eq_ok_iff, plus_floorDiv_int, Bool.not_eq_true',
      Bool.not_eq_false, decide_eq_true_eq]
    cases unusedAttribute? w with
    | some cause => simp [throw_bind, throw_ne_ok]
    | none =>
      cases w.enumeration with
      | none => simp only [ok_bind, pure_eq_ok_iff, reduceCtorEq, false_implies, implies_true,
          and_true]
      | some entries => simp only [check_bind_eq_ok_iff, ok_bind, pure_eq_ok_iff,
          Option.some.injEq, forall_eq', true_and, and_assoc]
  · simp only [placeWord, hn, wordWidth?_int, if_neg hwidth, throw_ne_ok, false_iff, not_and]
    intro ha
    have hwhole : w.bits.whole = n := by rw [hn]; rfl
    exact absurd (hwhole ▸ ha.width) hwidth

/-! ## Blobs -/

/-- **A blob is placed exactly if it has bytes, and ends behind them.** -/
theorem placeBlob_eq_ok_iff {b : Blob} {fullName : Text} {start : Int} {r : Blob × Number} :
    placeBlob b fullName (.int start) = .ok r ↔
      1 ≤ b.bytes.whole ∧
        r = ({ b with header := b.header.placedAt fullName (.int start) },
          .int (start + b.bytes.whole)) := by
  rw [placeBlob]
  cases hv : b.bytes.int? with
  | none => simp [Value.whole, hv, throw_ne_ok]
  | some n =>
    by_cases hn : 1 ≤ n
    · simp only [Option.filter, hn, decide_true, if_true, Number.plus_int, ok_bind,
        pure_eq_ok_iff, Value.whole, hv, Option.getD_some, true_and]
    · simp [Value.whole, hv, hn, Option.filter, throw_ne_ok]

end RegisterLayout
