import Mathlib.Algebra.Order.BigOperators.Group.List
import Mathlib.Algebra.Order.Group.Int
import RegisterLayout.Proofs.Leaf

/-!
# Bit fields

When a bit field can be placed, and what its placing gives: each item has to pass the checks of its
own name, width and enumeration, and the widths of all have to add up to that of the word.  An item
with too many bits to be counted fails before its bit field does.

Principal definitions: `Item.Admissible`, `locatedItems`, `BitField.itemBits`,
`BitField.Admissible`, `BitField.located`.
Principal results: `nameItems_eq_ok_iff`, `nameItems_of_wide`, `placeBitField_eq_ok_iff`.
-/

namespace RegisterLayout

/-! ## Items -/

/-- An item that passes the checks of its own name, width and enumeration. -/
structure Item.Admissible (i : Item) : Prop where
  name : i.header.NameAllowed
  width : 1 ≤ i.bits.whole
  unnamed : ¬i.header.IsNamed → i.enumeration = none
  enumeration : ∀ entries, i.enumeration = some entries → ∀ e ∈ entries,
    e.2.Between 0 (2 ^ i.bits.whole.toNat - 1)

instance (i : Item) : Decidable i.Admissible :=
  decidable_of_iff
    (i.header.NameAllowed ∧ 1 ≤ i.bits.whole ∧
      (¬i.header.IsNamed → i.enumeration.isNone) ∧
      ∀ entries ∈ i.enumeration, ∀ e ∈ entries, e.2.Between 0 (2 ^ i.bits.whole.toNat - 1))
    (by
      simp only [Option.isNone_iff_eq_none]
      exact ⟨fun ⟨hname, hwidth, hunnamed, henumeration⟩ =>
          ⟨hname, hwidth, hunnamed, henumeration⟩,
        fun ha => ⟨ha.name, ha.width, ha.unnamed, ha.enumeration⟩⟩)

/-- An item with its full name, its offset and its alignment. -/
def Item.namedAt (i : Item) (path : Path) (index : Nat) (start : Number) : Item :=
  { i with header := i.header.placedAt (i.header.nameUnder path index) start }

theorem checkCountable_int (n width : Int) :
    checkCountable (.int n) width =
      if maxCountedBits ≤ width then .error .overflow else .ok () := by
  simp only [checkCountable]
  split <;> rfl

/-- What follows on the check is done for few enough bits. -/
theorem checkCountable_bind {α : Type} (n width : Int) (rest : Except Failure α) :
    (checkCountable (.int n) width >>= fun _ => rest) =
      if maxCountedBits ≤ width then .error .overflow else rest := by
  rw [checkCountable_int]
  split <;> rfl

theorem checkCountable_eq_ok_iff {n width : Int} :
    checkCountable (.int n) width = .ok () ↔ width < maxCountedBits := by
  rw [checkCountable_int]
  split <;> simp <;> omega

/-- The greatest value of an item with few enough bits can be written out. -/
theorem greatestValue_of_countable {width : Int} (hw : width < maxCountedBits) :
    greatestValue width = .ok (2 ^ width.toNat - 1) := by
  have hmax : maxCountedBits ≤ maxShift := by decide
  rw [greatestValue, if_neg (by omega)]
  rfl

theorem greatestValue_eq (width : Int) :
    greatestValue width = .error .overflow ∨
      greatestValue width = .ok (2 ^ width.toNat - 1) := by
  unfold greatestValue
  split
  · exact .inl rfl
  · exact .inr rfl

theorem itemWidth?_eq (v : Value) :
    itemWidth? v = if 1 ≤ v.whole then some v.whole else none := by
  unfold itemWidth? Value.whole
  cases v.int? with
  | none => rfl
  | some n => simp [Option.filter]

section

variable {path : Path} {index : Nat} {start : Number} {n : Int} {i : Item}

theorem refused_unnamed_iff :
    (i.header.givenName?.isNone && i.enumeration.isSome) = true ↔
      ¬(¬i.header.IsNamed → i.enumeration = none) := by
  unfold Header.IsNamed
  cases i.header.givenName? <;> cases i.enumeration <;> simp

/-- An item that passes its own checks only has to have few enough bits to be counted. -/
theorem nameItem_of_admissible (h : i.Admissible) :
    nameItem path index start (.int n) i =
      if maxCountedBits ≤ i.bits.whole then .error .overflow
      else .ok (i.namedAt path index start, i.bits.whole) := by
  have hnode : nodeName i.header path index
      = .ok (i.header.nameUnder path index, i.header.pathUnder path index) :=
    nodeName_eq_ok_iff.2 ⟨h.name, rfl⟩
  have hplain : ¬(i.header.givenName?.isNone && i.enumeration.isSome) = true := by
    rw [refused_unnamed_iff, not_not]
    exact h.unnamed
  rw [nameItem, hnode, ok_bind]
  simp only [if_neg hplain, itemWidth?_eq, if_pos h.width, checkCountable_bind]
  cases he : i.enumeration with
  | none =>
    simp only [Item.namedAt, he]
    rfl
  | some entries =>
    have hvalues : checkEnumeration (i.header.nameUnder path index) 0
        (2 ^ i.bits.whole.toNat - 1) entries = .ok () :=
      checkEnumeration_eq_ok_iff.2 (h.enumeration entries he)
    -- Too many bits to be shifted by are too many to be counted: both fail in the same way.
    rcases greatestValue_eq i.bits.whole with hg | hg
    · have hw : maxCountedBits ≤ i.bits.whole := by
        by_contra hw
        rw [greatestValue_of_countable (by omega)] at hg
        cases hg
      simp only [hg, error_bind, if_pos hw]
    · simp only [hg, ok_bind, hvalues, Item.namedAt, he]
      rfl

theorem nameItem_of_countable (h : i.Admissible) (hw : i.bits.whole < maxCountedBits) :
    nameItem path index start (.int n) i = .ok (i.namedAt path index start, i.bits.whole) := by
  rw [nameItem_of_admissible h, if_neg (by omega)]

theorem admissible_of_nameItem {r : Item × Int} (h : nameItem path index start (.int n) i = .ok r) :
    i.Admissible ∧ i.bits.whole < maxCountedBits := by
  simp only [nameItem, bind_eq_ok_iff, nodeName_eq_ok_iff] at h
  obtain ⟨-, ⟨hname, rfl⟩, h⟩ := h
  simp only [refuse_eq_ok_iff, refused_unnamed_iff, not_not] at h
  obtain ⟨hunnamed, h⟩ := h
  by_cases hwidth : 1 ≤ i.bits.whole
  · simp only [itemWidth?_eq, if_pos hwidth] at h
    cases he : i.enumeration with
    | none =>
      simp only [he, check_bind_eq_ok_iff, checkCountable_eq_ok_iff] at h
      exact ⟨⟨hname, hwidth, hunnamed, by simp [he]⟩, h.1⟩
    | some entries =>
      simp only [he, @bind_eq_ok_iff Int, check_bind_eq_ok_iff,
        checkCountable_eq_ok_iff, checkEnumeration_eq_ok_iff] at h
      obtain ⟨greatest, hg, hvalues, hcounted, -⟩ := h
      rw [greatestValue_of_countable hcounted, Except.ok.injEq] at hg
      subst hg
      refine ⟨⟨hname, hwidth, hunnamed, fun es hes => ?_⟩, hcounted⟩
      rw [he, Option.some.injEq] at hes
      exact hes ▸ hvalues
  · simp only [itemWidth?_eq, if_neg hwidth] at h
    exact absurd h throw_ne_ok

end

/-! ## Lists of items -/

/-- The items with their full names and widths, numbered from `index`. -/
def namedItems (path : Path) (start : Number) (index : Nat) : List Item → List (Item × Int)
  | [] => []
  | i :: rest =>
    (i.namedAt path index start, i.bits.whole) :: namedItems path start (index + 1) rest

/-- The items of a word whose bits below `endBit` are still free. -/
def locatedItems (path : Path) (start : Number) (index : Nat) (endBit : Int) :
    List Item → List Item
  | [] => []
  | i :: rest =>
    { i.namedAt path index start with bitRange := some (bitsBelow endBit i.bits.whole) } ::
      locatedItems path start (index + 1) (endBit - i.bits.whole) rest

section

variable {path : Path} {start : Number} {n : Int}

/-- **Items are named exactly if each passes its own checks and has few enough bits.** -/
theorem nameItems_eq_ok_iff {index : Nat} {items : List Item} {named : List (Item × Int)} :
    nameItems path start (.int n) index items = .ok named ↔
      (∀ i ∈ items, i.Admissible ∧ i.bits.whole < maxCountedBits) ∧
        named = namedItems path start index items := by
  induction items generalizing index named with
  | nil => simp [nameItems, namedItems, eq_comm]
  | cons i rest ih =>
    simp only [nameItems, bind_eq_ok_iff, pure_eq_ok_iff, List.forall_mem_cons, namedItems]
    constructor
    · rintro ⟨r, hr, rs, hrs, rfl⟩
      obtain ⟨hadmissible, hcounted⟩ := admissible_of_nameItem hr
      rw [nameItem_of_countable hadmissible hcounted, Except.ok.injEq] at hr
      obtain ⟨hrest, rfl⟩ := ih.1 hrs
      exact ⟨⟨⟨hadmissible, hcounted⟩, hrest⟩, by rw [hr]⟩
    · rintro ⟨⟨⟨hadmissible, hcounted⟩, hrest⟩, rfl⟩
      exact ⟨_, nameItem_of_countable hadmissible hcounted, _, ih.2 ⟨hrest, rfl⟩, rfl⟩

/-- The first item with too many bits stops the naming. -/
theorem nameItems_of_wide {index : Nat} {items : List Item} (h : ∀ i ∈ items, i.Admissible)
    (hwide : ∃ i ∈ items, maxCountedBits ≤ i.bits.whole) :
    nameItems path start (.int n) index items = .error .overflow := by
  induction items generalizing index with
  | nil => simp at hwide
  | cons i rest ih =>
    obtain ⟨hi, hrest⟩ := List.forall_mem_cons.1 h
    rw [nameItems, nameItem_of_admissible hi]
    by_cases hw : maxCountedBits ≤ i.bits.whole
    · rw [if_pos hw, error_bind]
    · have hwide' : ∃ j ∈ rest, maxCountedBits ≤ j.bits.whole := by
        obtain ⟨j, hj, hwj⟩ := hwide
        rcases List.mem_cons.1 hj with rfl | hj
        · exact absurd hwj hw
        · exact ⟨j, hj, hwj⟩
      rw [if_neg hw, ok_bind, ih hrest hwide', error_bind]

theorem assignRanges_namedItems (index : Nat) (endBit : Int) (items : List Item) :
    assignRanges endBit (namedItems path start index items)
      = locatedItems path start index endBit items := by
  induction items generalizing index endBit with
  | nil => rfl
  | cons i rest ih => rw [namedItems, assignRanges, locatedItems, ih]

theorem leftOver_namedItems (index : Nat) (items : List Item) :
    leftOver (.int n) (namedItems path start index items)
      = .int (n - (items.map (·.bits.whole)).sum) := by
  have hwidths : (namedItems path start index items).foldr (fun item total => item.2 + total) 0
      = (items.map (·.bits.whole)).sum := by
    induction items generalizing index with
    | nil => rfl
    | cons i rest ih => rw [namedItems, List.foldr_cons, ih, List.map_cons, List.sum_cons]
  rw [leftOver, hwidths, Number.shift_int, Int.sub_eq_add_neg]

end

/-! ## Whole bit fields -/

namespace BitField

/-- The bits that all items need together. -/
def itemBits (b : BitField) : Int := (b.items.map (·.bits.whole)).sum

/-- A bit field that can be placed. -/
structure Admissible (b : BitField) : Prop where
  width : b.bits.whole ∈ wordWidths
  items : ∀ i ∈ b.items, i.Admissible
  filled : b.itemBits = b.bits.whole

instance (b : BitField) : Decidable b.Admissible :=
  decidable_of_iff
    (b.bits.whole ∈ wordWidths ∧ (∀ i ∈ b.items, i.Admissible) ∧ b.itemBits = b.bits.whole)
    ⟨fun ⟨hwidth, hitems, hfilled⟩ => ⟨hwidth, hitems, hfilled⟩,
      fun ha => ⟨ha.width, ha.items, ha.filled⟩⟩

theorem le_itemBits {b : BitField} (h : ∀ i ∈ b.items, i.Admissible) {i : Item}
    (hi : i ∈ b.items) : i.bits.whole ≤ b.itemBits := by
  refine List.single_le_sum ?_ _ (List.mem_map_of_mem hi)
  intro width hwidth
  obtain ⟨j, hj, rfl⟩ := List.mem_map.1 hwidth
  exact Int.le_trans (by decide) (h j hj).width

/-- The bits of all items can be counted when there are no more than in a word. -/
theorem countable {b : BitField} (h : ∀ i ∈ b.items, i.Admissible) {n : Int}
    (hn : n ∈ wordWidths) (hfilled : b.itemBits = n) :
    ∀ i ∈ b.items, i.bits.whole < maxCountedBits := by
  have hmax : ∀ n ∈ wordWidths, n < maxCountedBits := by decide
  intro i hi
  exact Int.lt_of_le_of_lt (le_itemBits h hi) (hfilled ▸ hmax n hn)

/-- A bit field as it is placed. -/
def located (b : BitField) (fullName : Text) (path : Path) (start : Int) : BitField :=
  { b with
    header := b.header.placedAt fullName (.int start)
    items := locatedItems path (.int start) 0 b.bits.whole b.items }

end BitField

section

variable {b : BitField} {n start : Int} {fullName : Text} {path : Path}

/-- A bit field whose items pass their checks and have few enough bits: it only depends on the sum
of the widths. -/
theorem placeBitField_of_countable (hn : b.bits = .int n) (hwidth : n ∈ wordWidths)
    (hitems : ∀ i ∈ b.items, i.Admissible ∧ i.bits.whole < maxCountedBits) :
    placeBitField b fullName path (.int start) =
      if b.itemBits = n then .ok (b.located fullName path start, .int (start + n / 8))
      else .error (.ofCause fullName (.widthSum (.int (n - b.itemBits)))) := by
  have hnames := (@nameItems_eq_ok_iff path (.int start) n 0 b.items _).2 ⟨hitems, rfl⟩
  rw [placeBitField]
  simp only [hn, wordWidth?_int, if_pos hwidth, hnames, ok_bind, leftOver_namedItems,
    plus_floorDiv_int, BitField.itemBits, BitField.located, assignRanges_namedItems,
    Value.whole_int]
  by_cases hsum : (b.items.map (·.bits.whole)).sum = n
  · rw [if_pos hsum, hsum, Int.sub_self]
    rfl
  · have hrest : (Number.int (n - (b.items.map (·.bits.whole)).sum)).isZero = false := by
      simp only [Number.isZero, beq_eq_false_iff_ne]
      omega
    rw [if_neg hsum, hrest]
    rfl

/-- A bit field with an item of too many bits is refused for them, whatever the sum. -/
theorem placeBitField_of_wide (hn : b.bits = .int n) (hwidth : n ∈ wordWidths)
    (hitems : ∀ i ∈ b.items, i.Admissible) (hwide : ∃ i ∈ b.items, maxCountedBits ≤ i.bits.whole) :
    placeBitField b fullName path (.int start) = .error .overflow := by
  have hnames := @nameItems_of_wide path (.int start) n 0 b.items hitems hwide
  rw [placeBitField]
  simp only [hn, wordWidth?_int, if_pos hwidth, hnames, error_bind]

/-- **A bit field of whole width is placed exactly if it is admissible, and ends behind its
bytes.** -/
theorem placeBitField_eq_ok_iff (hn : b.bits = .int n) {r : BitField × Number} :
    placeBitField b fullName path (.int start) = .ok r ↔
      b.Admissible ∧ r = (b.located fullName path start, .int (start + n / 8)) := by
  have hwhole : b.bits.whole = n := by rw [hn]; rfl
  constructor
  · intro h
    have hwidth : n ∈ wordWidths := by
      by_contra hwidth
      simp only [placeBitField, hn, wordWidth?_int, if_neg hwidth] at h
      exact throw_ne_ok h
    have hitems : ∀ i ∈ b.items, i.Admissible ∧ i.bits.whole < maxCountedBits := by
      have hnames := h
      simp only [placeBitField, hn, wordWidth?_int, if_pos hwidth, bind_eq_ok_iff] at hnames
      obtain ⟨named, hnamed, -⟩ := hnames
      exact (nameItems_eq_ok_iff.1 hnamed).1
    rw [placeBitField_of_countable hn hwidth hitems] at h
    split at h
    · rename_i hsum
      rw [Except.ok.injEq] at h
      exact ⟨⟨hwhole ▸ hwidth, fun i hi => (hitems i hi).1, hwhole ▸ hsum⟩, h.symm⟩
    · exact absurd h (by simp)
  · rintro ⟨ha, rfl⟩
    have hwidth : n ∈ wordWidths := hwhole ▸ ha.width
    have hsum : b.itemBits = n := hwhole ▸ ha.filled
    have hcounted := BitField.countable ha.items hwidth hsum
    rw [placeBitField_of_countable hn hwidth fun i hi => ⟨ha.items i hi, hcounted i hi⟩,
      if_pos hsum]

end

end RegisterLayout
