import RegisterLayout.Proofs.ItemDeclaration
import RegisterLayout.Table.Row

/-!
# Masks as sets of bits

A mask is a number, and the set of its bits is what it stands for.  The mask of an item has the bits
of the item, so the masks of a bit field have no bit in common and together all bits of its word.

Principal definitions: `Item.maskNumber`, `BitField.MasksPartition`.
Principal results: `testBit_of_mask`, `BitField.masksPartition`.
-/

namespace RegisterLayout

/-- What a number shares with the complement of another are the bits that the other has not. -/
theorem testBit_sharedBits_complement (n m k : Nat) :
    (sharedBits n (~~~(m : Int))).testBit k = (n.testBit k && !m.testBit k) := by
  have hcomplement : ~~~(m : Int) = .negSucc m := rfl
  rw [hcomplement, sharedBits, Nat.testBit_xor, Nat.testBit_and]
  cases n.testBit k <;> cases m.testBit k <;> rfl

/-- **A mask has the bits from its lowest up to its highest.** -/
theorem testBit_of_mask {high low : Int} {m : Nat} (h : mask high low = .ok m) (k : Nat) :
    m.testBit k = true ↔ low ≤ k ∧ k ≤ high := by
  unfold mask at h
  split at h
  · cases h
  · obtain rfl := Except.ok.inj h
    rw [testBit_sharedBits_complement, Nat.one_shiftLeft, Nat.one_shiftLeft,
      Nat.testBit_two_pow_sub_one, Nat.testBit_two_pow_sub_one, Bool.and_eq_true,
      decide_eq_true_eq, Bool.not_eq_true', decide_eq_false_iff_not]
    omega

/-- A bit that one of several numbers has. -/
theorem testBit_foldr_or {ms : List Nat} {k : Nat} :
    (ms.foldr (· ||| ·) 0).testBit k = true ↔ ∃ m ∈ ms, m.testBit k = true := by
  induction ms with
  | nil => simp
  | cons m ms ih =>
    rw [List.foldr_cons, Nat.testBit_or, Bool.or_eq_true, ih, List.exists_mem_cons_iff]

/-- The mask of a placed item in its word. -/
def Item.maskNumber (i : Item) : Nat := (RegisterLayout.mask i.high i.low).toOption.getD 0

theorem Item.mask_eq_maskNumber {i : Item} (hlow : 0 ≤ i.low) (hhigh : 0 ≤ i.high) :
    RegisterLayout.mask i.high i.low = .ok i.maskNumber := by
  have hbounds : ¬(i.high < -1 ∨ i.low < 0) := by omega
  rw [maskNumber, RegisterLayout.mask, if_neg hbounds]
  rfl

/-- **The mask of an item has the bits of the item.** -/
theorem Item.PlacedUnder.testBit_maskNumber {i : Item} {path : Path} {index : Nat}
    (h : i.PlacedUnder path index) (hnonneg : ∀ bit ∈ i.bitIndices, 0 ≤ bit) (k : Nat) :
    i.maskNumber.testBit k = true ↔ (k : Int) ∈ i.bitIndices := by
  obtain ⟨endBit, -, hhigh, hlow⟩ := h.bounds
  have hwidth := h.width
  have hfirst : 0 ≤ i.low := hnonneg i.low (h.mem_bitIndices_iff.2 (by omega))
  rw [testBit_of_mask (mask_eq_maskNumber hfirst (by omega)), h.mem_bitIndices_iff]

namespace BitField

/-- A placed bit field of `n` bits whose masks share out the bits of its word. -/
structure MasksPartition (b : BitField) (n : Nat) : Prop where
  bits : ∀ i ∈ b.items, ∀ bit : Int,
    bit ∈ i.bitIndices ↔ 0 ≤ bit ∧ i.maskNumber.testBit bit.toNat = true
  disjoint : b.items.Pairwise fun i j => i.maskNumber &&& j.maskNumber = 0
  union : (b.items.map Item.maskNumber).foldr (· ||| ·) 0 = 2 ^ n - 1

/-- **Items that share out the bits of a word have masks that do.** -/
theorem masksPartition {b placed : BitField} {n : Nat} {path : Path} (h : b.Partition n placed)
    (hplaced : ∀ (k : Nat) (i : Item), placed.items[k]? = some i → i.PlacedUnder path k) :
    placed.MasksPartition n := by
  have htest : ∀ i ∈ placed.items, ∀ k : Nat,
      i.maskNumber.testBit k = true ↔ (k : Int) ∈ i.bitIndices := by
    intro i hi k
    obtain ⟨index, hindex⟩ := List.mem_iff_getElem?.1 hi
    exact (hplaced index i hindex).testBit_maskNumber
      (fun bit hbit => ((h.cover bit).1 ⟨i, hi, hbit⟩).1) k
  constructor
  case bits =>
    intro i hi bit
    constructor
    · intro hbit
      have hnonneg := ((h.cover bit).1 ⟨i, hi, hbit⟩).1
      rw [htest i hi, Int.toNat_of_nonneg hnonneg]
      exact ⟨hnonneg, hbit⟩
    · rintro ⟨hnonneg, hbit⟩
      rwa [htest i hi, Int.toNat_of_nonneg hnonneg] at hbit
  case disjoint =>
    refine h.disjoint.imp_of_mem ?_
    intro i j hi hj hdisjoint
    refine Nat.eq_of_testBit_eq fun k => ?_
    rw [Nat.testBit_and, Nat.zero_testBit, Bool.and_eq_false_iff]
    by_contra hboth
    rw [not_or, Bool.not_eq_false, Bool.not_eq_false, htest i hi, htest j hj] at hboth
    exact hdisjoint k hboth.1 hboth.2
  case union =>
    refine Nat.eq_of_testBit_eq fun k => ?_
    have hcover : (∃ i ∈ placed.items, i.maskNumber.testBit k = true) ↔ k < n := by
      rw [exists_congr fun i => and_congr_right fun hi => htest i hi k, h.cover]
      omega
    rw [Bool.eq_iff_iff, testBit_foldr_or, Nat.testBit_two_pow_sub_one, decide_eq_true_eq,
      ← hcover]
    simp only [List.mem_map, exists_exists_and_eq_and]

end BitField

end RegisterLayout
