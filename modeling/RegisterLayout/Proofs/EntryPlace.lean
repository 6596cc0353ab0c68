import RegisterLayout.Proofs.Entry

/-!
# The places of entries on rows

A diagram has rows of 32 bits.  Fewer bits have to stand within one row, and more have to be whole
rows.  Words always do; whether the place of a bit field, a blob or a union is refused depends on
the placed tree alone, not on what was drawn before.

Principal definitions: `CrossesRow`, `HasPlace`, `Entry.refusal?`.
Principal results: `hasPlace_word`, `runRefusal?_eq_none_iff`, `bitFieldRefusal?_eq_none_iff`.
-/

namespace RegisterLayout

/-! ## Bits on rows -/

/-- Bits that stand on two rows. -/
def CrossesRow (first width : Int) : Prop :=
  ∃ row : Int, first < 32 * row ∧ 32 * row < first + width

theorem crossesRow_iff {first width : Int} :
    CrossesRow first width ↔ 32 * (first / 32 + 1) < first + width := by
  constructor
  · rintro ⟨row, hfirst, hlast⟩
    omega
  · intro h
    exact ⟨first / 32 + 1, by omega, h⟩

instance (first width : Int) : Decidable (CrossesRow first width) :=
  decidable_of_iff _ crossesRow_iff.symm

/-- Bits that have a place: within one row, or whole rows. -/
structure HasPlace (first width : Int) : Prop where
  narrow : width < 32 → ¬CrossesRow first width
  tall : 32 ≤ width → 32 ∣ width ∧ 32 ∣ first

/-- A word at a multiple of its size is on one row or on whole rows. -/
theorem hasPlace_word {n start : Int} (hn : n ∈ wordWidths) (haligned : n / 8 ∣ start) :
    HasPlace (8 * start) n := by
  simp only [wordWidths, List.mem_cons, List.not_mem_nil, or_false] at hn
  constructor
  case narrow =>
    intro hnarrow
    rw [crossesRow_iff]
    rcases hn with rfl | rfl | rfl | rfl <;> omega
  case tall =>
    intro htall
    rcases hn with rfl | rfl | rfl | rfl <;> omega

/-- An item is within the row of its bit field, and alone on it if it is as wide. -/
theorem hasPlace_item {first n w high : Int} (hword : n ≤ 32 ∧ ¬CrossesRow first n)
    (hlow : w ≤ high + 1) (hhigh : high < n) (hpos : 1 ≤ w) :
    HasPlace (first + (n - 1 - high)) w := by
  obtain ⟨hnarrow, hstays⟩ := hword
  rw [crossesRow_iff] at hstays
  constructor
  case narrow =>
    intro _
    rw [crossesRow_iff]
    omega
  case tall =>
    intro htall
    omega

/-! ## Numbers of few digits -/

theorem pow_twenty_le {digits : Nat} (h : 20 ≤ digits) : 10 ^ 20 ≤ Nat.pow 10 digits :=
  Nat.pow_le_pow_right (by decide : 0 < 10) h

/-- The values of the widest words can be written. -/
theorem isWritable_of_natAbs_le {n : Int} (h : n.natAbs ≤ 2 ^ 64) :
    (Number.int n).isWritable = true := by
  have hdigits : 20 ≤ Number.maxDigits := by
    unfold Number.maxDigits
    omega
  have hpow := pow_twenty_le hdigits
  rw [Number.isWritable, decide_eq_true_eq]
  -- The power is too large to be computed.
  generalize Nat.pow 10 Number.maxDigits = limit at hpow ⊢
  omega

theorem isWritable_of_le {n : Int} (hlow : -64 ≤ n) (hhigh : n ≤ 64) :
    (Number.int n).isWritable = true :=
  isWritable_of_natAbs_le (by omega)

/-- What is no further from zero than a number that can be written can be written. -/
theorem isWritable_mono {m n : Int} (h : m.natAbs ≤ n.natAbs)
    (hn : (Number.int n).isWritable = true) : (Number.int m).isWritable = true := by
  rw [Number.isWritable, decide_eq_true_eq] at hn ⊢
  exact Nat.lt_of_le_of_lt h hn

theorem mem_wordWidths_bounds {n : Int} (hn : n ∈ wordWidths) : 1 ≤ n ∧ n ≤ 64 := by
  simp only [wordWidths, List.mem_cons, List.not_mem_nil, or_false] at hn
  omega

/-! ## Places that are refused -/

/-- Why an undivided run of bits has no place. -/
def runRefusal? (fullName : Option Text) (first width : Int) : Option Failure :=
  if width < 32 then
    if CrossesRow first width then
      some (.ofNode fullName (.blobStraddles (.int first) (.int (first + width))))
    else none
  else if ¬32 ∣ width then some (.ofNode fullName (.blobNotRows (.int width)))
  else if ¬32 ∣ first then
    some (.ofNode fullName (.blobOffRow (.int width) (.int (first % 32))))
  else none

/-- Why an undivided run of bits is not drawn.  A size that cannot be written has no line in the
legend. -/
def wholeRefusal? (fullName : Option Text) (first width : Int) : Option Failure :=
  if (Number.int width).isWritable then runRefusal? fullName first width else some .longNumber

/-- Why a bit field has no place. -/
def bitFieldRefusal? (fullName : Option Text) (first width : Int) : Option Failure :=
  if 32 < width then some (.ofNode fullName .bitfieldOverRow)
  else if CrossesRow first width then
    some (.ofNode fullName (.bitfieldStraddles (.int first) (.int (first + width))))
  else none

namespace Entry

/-- Why an entry cannot be drawn where it stands, whatever its label. -/
def refusal? : Entry → Option Failure
  | heading b =>
    bitFieldRefusal? b.header.position.fullName (heading b).firstBit b.bits.whole
  | item .. | cell (.word _) => none
  | cell f => wholeRefusal? f.header.position.fullName (cell f).firstBit f.bitCount

end Entry

theorem runRefusal?_eq_none_iff {fullName : Option Text} {first width : Int} :
    runRefusal? fullName first width = none ↔ HasPlace first width := by
  constructor
  · intro h
    constructor
    case narrow =>
      intro hnarrow hcrosses
      simp [runRefusal?, hnarrow, hcrosses] at h
    case tall =>
      intro htall
      have hnarrow : ¬width < 32 := by omega
      by_cases hwidth : 32 ∣ width
      · by_cases hfirst : 32 ∣ first
        · exact ⟨hwidth, hfirst⟩
        · simp [runRefusal?, hnarrow, hwidth, hfirst] at h
      · simp [runRefusal?, hnarrow, hwidth] at h
  · intro h
    by_cases hnarrow : width < 32
    · simp [runRefusal?, hnarrow, h.narrow hnarrow]
    · obtain ⟨hwidth, hfirst⟩ := h.tall (by omega)
      simp [runRefusal?, hnarrow, hwidth, hfirst]

theorem bitFieldRefusal?_eq_none_iff {fullName : Option Text} {first width : Int} :
    bitFieldRefusal? fullName first width = none ↔ width ≤ 32 ∧ ¬CrossesRow first width := by
  by_cases hwide : 32 < width
  · simp [bitFieldRefusal?, hwide]
  · by_cases hcrosses : CrossesRow first width
    · simp [bitFieldRefusal?, hwide, hcrosses]
    · simp [bitFieldRefusal?, hcrosses, Int.not_lt.1 hwide]

theorem wholeRefusal?_eq_none_iff {fullName : Option Text} {first width : Int} :
    wholeRefusal? fullName first width = none ↔
      (Number.int width).isWritable = true ∧ HasPlace first width := by
  by_cases hwritable : (Number.int width).isWritable = true
  · rw [wholeRefusal?, if_pos hwritable, runRefusal?_eq_none_iff]
    exact (and_iff_right hwritable).symm
  · rw [wholeRefusal?, if_neg hwritable]
    simp [hwritable]

/-- Words are always drawn. -/
theorem wholeRefusal?_word {fullName : Option Text} {n start : Int} (hn : n ∈ wordWidths)
    (haligned : n / 8 ∣ start) : wholeRefusal? fullName (8 * start) n = none := by
  obtain ⟨hpos, hnarrow⟩ := mem_wordWidths_bounds hn
  exact wholeRefusal?_eq_none_iff.2
    ⟨isWritable_of_le (by omega) hnarrow, hasPlace_word hn haligned⟩

namespace Entry

theorem Sound.width_nonneg {e : Entry} (he : e.Sound) : 0 ≤ e.width := by
  cases he with
  | heading => exact Int.le_refl 0
  | item _ _ _ hi hpos =>
    rw [width, hi, Value.whole_int]
    omega
  | word _ hb hn =>
    rw [width, Field.bitCount_word hb]
    exact Int.le_trans (by decide) (mem_wordWidths_bounds hn).1
  | blob _ hb hsize =>
    rw [width, Field.bitCount_blob hb]
    omega
  | union _ hsize hnonneg =>
    rw [width, Field.bitCount_of_sizeBits hsize]
    exact hnonneg

/-- **An entry with a cell that is not refused has a place**, an item if its bit field is not
refused. -/
theorem Sound.hasPlace {e : Entry} (he : e.Sound) (hcell : e.hasCell = true)
    (hplaced : e.refusal? = none)
    (hheading : ∀ b i, e = .item b i → (Entry.heading b).refusal? = none) :
    HasPlace e.firstBit e.width := by
  cases he with
  | heading => cases hcell
  | @item b i n w endBit ha hb hn hi hpos hrange hlow hhigh hstands =>
    have hword : n ≤ 32 ∧ ¬CrossesRow (Entry.heading b).firstBit n := by
      have hplaced := bitFieldRefusal?_eq_none_iff.1 (hheading b i rfl)
      rwa [hb, Value.whole_int] at hplaced
    have hlast : i.high = endBit - 1 := Item.high_eq hpos hrange
    have hfirst : (Entry.item b i).firstBit
        = (Entry.heading b).firstBit + (n - 1 - (endBit - 1)) := by
      rw [firstBit, firstBit, hstands, hb, Value.whole_int, hlast]
    rw [hfirst, width, hi, Value.whole_int]
    exact hasPlace_item hword (by omega) (by omega) hpos
  | @word w n ha hb hn haligned =>
    rw [width, Field.bitCount_word hb]
    exact hasPlace_word hn haligned
  | blob => exact (wholeRefusal?_eq_none_iff.1 hplaced).2
  | union => exact (wholeRefusal?_eq_none_iff.1 hplaced).2

/-- Entries begin behind the start and before the end. -/
theorem Consecutive.bounds {es : List Entry} {start stop : Int} (h : Consecutive start es stop) :
    start ≤ stop ∧ ∀ e ∈ es, start ≤ e.firstBit := by
  induction h with
  | nil bit => exact ⟨Int.le_refl bit, fun _ he => absurd he List.not_mem_nil⟩
  | @cons e es stop sound _ ih =>
    have hwidth := sound.width_nonneg
    refine ⟨by omega, List.forall_mem_cons.2 ⟨Int.le_refl _, fun e' he' => ?_⟩⟩
    have := ih.2 e' he'
    omega

end Entry

end RegisterLayout
