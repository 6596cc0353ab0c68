import RegisterLayout.Proofs.EntryPlace
import RegisterLayout.Proofs.WellTyped

/-!
# Failures of single nodes

A caller handles the errors of a layout, and no other failure.  Naming and placing a node of whole
width that was read from an accepted document fails with nothing else, unless a message needs a
number with too many digits.

Principal definitions: `Failure.IsLayout`, `Failure.Foreseen`.
Principal results: `failsOnly_nodeName`, `failsOnly_placeWord`, `failsOnly_placeBitField`,
`failsOnly_placeBlob`.
-/

namespace RegisterLayout

namespace Failure

/-- A failure that names a node and what is wrong with it. -/
def IsLayout (e : Failure) : Prop := ∃ l, e = .layout l

/-- An error of the layout or, unless the numbers are short, a number that cannot be written. -/
def Foreseen (short : Prop) (e : Failure) : Prop := e.IsLayout ∨ e = .longNumber ∧ ¬short

end Failure

open Failure (Foreseen)

variable {short : Prop}

/-! ## Causes -/

theorem Value.isWritable_num (n : Number) : (Value.num n).isWritable = n.isWritable := rfl

/-- Whole numbers up to one that can be written. -/
theorem isWritable_upTo {m n : Int} (hm : 0 ≤ m) (hmn : m ≤ n)
    (hn : (Value.int n).isWritable = true) : (Value.int m).isWritable = true := by
  rw [Value.isWritable_num] at hn ⊢
  exact isWritable_mono (by omega) hn

theorem foreseen_atNode {v : Value} {cause : Cause} (hv : v.isWritable = true)
    (h : short → ∀ w ∈ cause.values, w.isWritable = true) :
    Foreseen short (.atNode v cause) := by
  unfold Failure.atNode
  by_cases hcause : cause.isWritable = true
  · rw [hv, hcause]
    exact .inl ⟨_, rfl⟩
  · rw [Bool.eq_false_of_not_eq_true hcause, Bool.and_false]
    exact .inr ⟨rfl, fun hshort => hcause (List.all_eq_true.2 (h hshort))⟩

theorem foreseen_ofCause {fullName : Text} {cause : Cause}
    (h : short → ∀ w ∈ cause.values, w.isWritable = true) :
    Foreseen short (.ofCause fullName cause) :=
  foreseen_atNode rfl h

theorem foreseen_ofNode {fullName : Option Text} {cause : Cause}
    (h : short → ∀ w ∈ cause.values, w.isWritable = true) :
    Foreseen short (.ofNode fullName cause) := by
  cases fullName with
  | none => exact foreseen_atNode rfl h
  | some s => exact foreseen_atNode rfl h

/-! ## Names -/

theorem Value.IsName.isText {v : Value} (h : v.IsName) : v.IsText := by
  obtain ⟨c, rest, -, -, rfl | rfl⟩ := h
  · exact ⟨_, rfl⟩
  · exact ⟨_, rfl⟩

theorem isWritable_of_isText {v : Value} (h : v.IsText) : v.isWritable = true := by
  obtain ⟨s, rfl⟩ := h
  rfl

theorem isText_of_filled? {o : Option Value} {v : Value} (h : ∀ w, o = some w → w.IsText)
    (hv : filled? o = some v) : v.IsText :=
  h v (Option.filter_eq_some_iff.1 hv).1

theorem failsOnly_checkName {path : Path} {v : Value} (hv : v.IsText) :
    FailsOnly (Foreseen short) (checkName path v) := by
  obtain ⟨s, rfl⟩ := hv
  rw [checkName]
  split
  · exact .error (foreseen_ofCause fun _ => List.forall_mem_nil _)
  · exact .ok

theorem failsOnly_nodeName {h : Header} (ht : h.WellTyped) (path : Path) (index : Nat) :
    FailsOnly (Foreseen short) (nodeName h path index) := by
  have hname : ∀ v, h.givenName? = some v → v.IsText := fun v hv =>
    isText_of_filled? (fun w hw => (ht.name w hw).isText) hv
  have hshort : ∀ v, filled? h.shortName = some v → v.IsText := fun v hv =>
    isText_of_filled? (fun w hw => (ht.shortName w hw).isText) hv
  unfold nodeName
  cases hgiven : h.givenName? with
  | none =>
    cases hs : filled? h.shortName with
    | none => exact .ok
    | some s =>
      refine .error (foreseen_ofCause fun _ => List.forall_mem_singleton.2 ?_)
      exact isWritable_of_isText (hshort s hs)
  | some name =>
    have hchecked : FailsOnly (Foreseen short) (checkName path name) :=
      failsOnly_checkName (hname name hgiven)
    cases hs : filled? h.shortName with
    | none => exact hchecked.bind fun _ _ => .pure
    | some s =>
      exact hchecked.bind fun _ _ => (failsOnly_checkName (hshort s hs)).bind fun _ _ => .pure

/-! ## Enumerations -/

theorem failsOnly_checkEnumeration {fullName : Text} {least greatest : Int}
    (hleast : (Value.int least).isWritable = true)
    (hgreatest : (Value.int greatest).isWritable = true) {entries : Enumeration}
    (hnumeric : Enumeration.Numeric (some entries))
    (hparts : short → ∀ v ∈ Field.enumerationParts (some entries), v.isWritable = true) :
    FailsOnly (Foreseen short) (checkEnumeration fullName least greatest entries) := by
  induction entries with
  | nil => exact .ok
  | cons entry rest ih =>
    obtain ⟨key, value⟩ := entry
    obtain ⟨⟨n, hn⟩, hrest⟩ : (∃ n, value = .num n) ∧ Enumeration.Numeric (some rest) :=
      List.forall_mem_cons.1 hnumeric
    subst hn
    have hentry : short → key.isWritable = true ∧ (Value.num n).isWritable = true := fun h =>
      ⟨hparts h _ (by simp [Field.enumerationParts]), hparts h _ (by simp [Field.enumerationParts])⟩
    have hmore : short → ∀ v ∈ Field.enumerationParts (some rest), v.isWritable = true :=
      fun h v hv => hparts h v (List.mem_append_right _ hv)
    rw [checkEnumeration]
    simp only [Value.number?_num]
    split
    · refine .error (foreseen_ofCause fun h => ?_)
      simp only [Cause.values, List.forall_mem_cons]
      exact ⟨(hentry h).1, (hentry h).2, hleast, List.forall_mem_nil _⟩
    · split
      · refine .error (foreseen_ofCause fun h => ?_)
        simp only [Cause.values, List.forall_mem_cons]
        exact ⟨(hentry h).1, (hentry h).2, hgreatest, List.forall_mem_nil _⟩
      · exact ih hrest hmore

/-! ## Words -/

theorem mem_wordWidths_of_isWhole {v : Value} {n : Int} (h : v.IsWhole (· ∈ wordWidths))
    (hn : v = .int n) : n ∈ wordWidths := by
  obtain ⟨m, k, rfl, hk, hmem⟩ := h
  obtain rfl := Value.num.inj hn
  exact Option.some.inj hk ▸ hmem

theorem isWritable_wordWidth {n : Int} (hn : n ∈ wordWidths) :
    (Value.int n).isWritable = true := by
  have hle := mem_wordWidths_bounds hn
  rw [Value.isWritable_num]
  exact isWritable_of_le (by omega) hle.2

theorem isWritable_valueBounds {signed : Bool} {n : Int} (hn : n ∈ wordWidths) :
    (Value.int (valueBounds signed n.toNat).1).isWritable = true ∧
      (Value.int (valueBounds signed n.toNat).2).isWritable = true := by
  have hbounds : ∀ n ∈ wordWidths, (valueBounds signed n.toNat).1.natAbs ≤ 2 ^ 64 ∧
      (valueBounds signed n.toNat).2.natAbs ≤ 2 ^ 64 := by
    cases signed <;> decide
  rw [Value.isWritable_num, Value.isWritable_num]
  exact ⟨isWritable_of_natAbs_le (hbounds n hn).1, isWritable_of_natAbs_le (hbounds n hn).2⟩

theorem unusedAttribute?_values {w : Word} {cause : Cause} (h : unusedAttribute? w = some cause) :
    cause.values = [] := by
  unfold unusedAttribute? at h
  split at h
  · cases h
  split at h
  · exact Option.some.inj h ▸ rfl
  split at h
  · exact Option.some.inj h ▸ rfl
  split at h
  · exact Option.some.inj h ▸ rfl
  · cases h

theorem failsOnly_placeWord {w : Word} {n start : Int} {fullName : Text} (ht : w.WellTyped)
    (hn : w.bits = .int n) (hstart : short → (Value.int start).isWritable = true)
    (hparts : short → ∀ v ∈ Field.enumerationParts w.enumeration, v.isWritable = true) :
    FailsOnly (Foreseen short) (placeWord w fullName (.int start)) := by
  have hwidth := mem_wordWidths_of_isWhole ht.bits hn
  have hbits := isWritable_wordWidth hwidth
  have hbounds := @isWritable_valueBounds (filled? w.signed).isSome n hwidth
  rw [placeWord]
  simp only [hn, wordWidth?_int, if_pos hwidth, isAligned_int hwidth, ok_bind]
  refine .refuse (fun _ => foreseen_ofCause fun h => ?_) fun _ => ?_
  · exact List.forall_mem_cons.2 ⟨hbits, List.forall_mem_singleton.2 (hstart h)⟩
  cases hunused : unusedAttribute? w with
  | some cause =>
    refine .throw (foreseen_ofCause fun _ v hv => ?_)
    rw [unusedAttribute?_values hunused] at hv
    cases hv
  | none =>
    cases he : w.enumeration with
    | none =>
      simp only [plus_floorDiv_int]
      exact .ok
    | some entries =>
      have hnumeric : Enumeration.Numeric (some entries) := he ▸ ht.constants
      simp only [plus_floorDiv_int]
      exact (failsOnly_checkEnumeration hbounds.1 hbounds.2 hnumeric (he ▸ hparts)).bind
        fun _ _ => .ok

/-! ## Bit fields and blobs -/

theorem isWritable_itemBits {i : Item} (ht : i.WellTyped) : i.bits.isWritable = true := by
  obtain ⟨n, m, hn, hm, hbounds⟩ := ht.bits
  rw [hn, Value.isWritable_num]
  cases n with
  | int n =>
    obtain rfl : n = m := Option.some.inj hm
    exact isWritable_of_le (by omega) hbounds.2
  | real x => rfl

theorem itemWidth?_bounds {i : Item} (ht : i.WellTyped) {width : Int}
    (h : itemWidth? i.bits = some width) : 1 ≤ width ∧ width ≤ 64 := by
  obtain ⟨n, m, hn, hm, hbounds⟩ := ht.bits
  have hwidth := Value.int?_eq_some.1 (Option.filter_eq_some_iff.1 h).1
  obtain rfl : n = .int width := Value.num.inj (hn.symm.trans hwidth)
  obtain rfl : width = m := Option.some.inj hm
  exact hbounds

theorem failsOnly_nameItem {path : Path} {index : Nat} {start : Number} {n : Int} {i : Item}
    (ht : i.WellTyped)
    (hparts : short → ∀ v ∈ Field.enumerationParts i.enumeration, v.isWritable = true) :
    FailsOnly (Foreseen short) (nameItem path index start (.int n) i) := by
  rw [nameItem]
  refine (failsOnly_nodeName ht.header path index).bind fun r _ => ?_
  refine .refuse (fun _ => foreseen_ofCause fun _ => List.forall_mem_nil _) fun _ => ?_
  cases hwidth : itemWidth? i.bits with
  | none =>
    exact .throw (foreseen_ofCause fun _ => List.forall_mem_singleton.2 (isWritable_itemBits ht))
  | some width =>
    obtain ⟨hpos, hle⟩ := itemWidth?_bounds ht hwidth
    have hcounted : width < maxCountedBits := Int.lt_of_le_of_lt hle (by decide)
    have hcountable : checkCountable (.int n) width = .ok () := checkCountable_eq_ok_iff.2 hcounted
    cases he : i.enumeration with
    | none =>
      simp only [hcountable]
      exact .ok
    | some entries =>
      have hpow : (2 : Int) ^ width.toNat ≤ 2 ^ 64 :=
        pow_le_pow_right₀ (by decide) (by omega)
      have hone : (0 : Int) < 2 ^ width.toNat := pow_pos (by decide) _
      have hgreatest : (Value.int (2 ^ width.toNat - 1)).isWritable = true := by
        rw [Value.isWritable_num]
        exact isWritable_of_natAbs_le (by omega)
      have hleast : (Value.int 0).isWritable = true := by
        rw [Value.isWritable_num]
        exact isWritable_of_le (by decide) (by decide)
      simp only [greatestValue_of_countable hcounted, ok_bind, hcountable]
      exact (failsOnly_checkEnumeration hleast hgreatest (he ▸ ht.constants) (he ▸ hparts)).bind
        fun _ _ => .ok

theorem failsOnly_nameItems {path : Path} {index : Nat} {start : Number} {n : Int}
    {items : List Item} (ht : ∀ i ∈ items, i.WellTyped)
    (hparts : short → ∀ i ∈ items, ∀ v ∈ Field.enumerationParts i.enumeration,
      v.isWritable = true) :
    FailsOnly (Foreseen short) (nameItems path start (.int n) index items) := by
  induction items generalizing index with
  | nil => exact .ok
  | cons i rest ih =>
    obtain ⟨hi, hrest⟩ := List.forall_mem_cons.1 ht
    rw [nameItems]
    refine (failsOnly_nameItem hi fun h => hparts h i List.mem_cons_self).bind fun _ _ => ?_
    have hmore := @ih (index + 1) hrest fun h j hj => hparts h j (List.mem_cons_of_mem _ hj)
    exact hmore.bind fun _ _ => .pure

theorem failsOnly_placeBitField {b : BitField} {n start : Int} {fullName : Text} {path : Path}
    (ht : b.WellTyped) (hn : b.bits = .int n)
    (hsum : short → (Value.int (n + b.itemBits)).isWritable = true)
    (hparts : short → ∀ i ∈ b.items, ∀ v ∈ Field.enumerationParts i.enumeration,
      v.isWritable = true) :
    FailsOnly (Foreseen short) (placeBitField b fullName path (.int start)) := by
  have hwidth := mem_wordWidths_of_isWhole ht.bits hn
  have hpos := mem_wordWidths_bounds hwidth
  have hitems := Field.itemBits_nonneg ht.items
  rw [placeBitField]
  simp only [hn, wordWidth?_int, if_pos hwidth]
  refine (failsOnly_nameItems ht.items hparts).bind fun named hnamed => ?_
  obtain rfl := (nameItems_eq_ok_iff.1 hnamed).2
  rw [leftOver_namedItems]
  refine .refuse (fun _ => foreseen_ofCause fun h => List.forall_mem_singleton.2 ?_) fun _ => ?_
  · have hwritable := hsum h
    rw [Value.isWritable_num] at hwritable ⊢
    rw [BitField.itemBits] at hwritable hitems
    exact isWritable_mono (by omega) hwritable
  · simp only [plus_floorDiv_int]
    exact .ok

theorem failsOnly_placeBlob {b : Blob} {start : Int} {fullName : Text} (ht : b.WellTyped) :
    FailsOnly (Foreseen short) (placeBlob b fullName (.int start)) := by
  obtain ⟨n, m, hn, hm, hpos⟩ := ht.bytes
  rw [placeBlob]
  cases n with
  | int n =>
    obtain rfl : n = m := Option.some.inj hm
    have hbytes : b.bytes.int?.filter (1 ≤ ·) = some n := by simp [hn, Value.int?, hpos]
    rw [hbytes]
    exact .ok
  | real x =>
    have hbytes : b.bytes.int?.filter (1 ≤ ·) = none := by simp [hn, Value.int?]
    rw [hbytes]
    refine .throw (foreseen_ofCause fun _ => List.forall_mem_singleton.2 ?_)
    rw [hn]
    rfl

end RegisterLayout
