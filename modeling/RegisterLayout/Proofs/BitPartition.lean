import RegisterLayout.Proofs.BitField

/-!
# The bits of a bit field

The items of a bit field share out the bits of its word.  Each takes the bits right below those of
the items before it, so the ranges descend from the highest bit, none meets another, and together
they hold every bit of the word once.  Items that need more or fewer bits than the word has are
refused, with the difference; only items too wide for their bits to be listed fail otherwise.

Principal definitions: `Item.bitIndices`, `BitField.bitsOfFirst`, `BitField.Partition`.
Principal results: `mem_bitIndices_locatedItems` — the bits that the items of a list hold together;
`BitField.located_partition`; `place_bitfield_partition`.
-/

namespace RegisterLayout

/-- The indices of the bits of an item; none before it is placed. -/
def Item.bitIndices (i : Item) : List Int := i.bitRange.getD []

/-! ## Ranges of bits -/

theorem mem_bitsBelow {endBit width bit : Int} :
    bit ∈ bitsBelow endBit width ↔ endBit - width ≤ bit ∧ bit < endBit := by
  simp only [bitsBelow, List.mem_map, List.mem_range]
  constructor
  · rintro ⟨k, hk, rfl⟩
    omega
  · rintro ⟨hlow, hhigh⟩
    exact ⟨(bit - (endBit - width)).toNat, by omega, by omega⟩

theorem bitsBelow_ascending (endBit width : Int) : (bitsBelow endBit width).Pairwise (· < ·) := by
  rw [bitsBelow, List.pairwise_map]
  refine List.pairwise_lt_range.imp ?_
  intro a b hab
  omega

/-! ## Items one below the other -/

section

variable {path : Path} {start : Number}

theorem length_locatedItems (index : Nat) (endBit : Int) (items : List Item) :
    (locatedItems path start index endBit items).length = items.length := by
  induction items generalizing index endBit with
  | nil => rfl
  | cons i rest ih => rw [locatedItems, List.length_cons, List.length_cons, ih]

/-- An item stands below all those before it. -/
theorem bitRange_locatedItems {index : Nat} {endBit : Int} {items : List Item} {k : Nat}
    {i : Item} (hk : items[k]? = some i) :
    ∃ p, (locatedItems path start index endBit items)[k]? = some p ∧
      p.bitRange = some (bitsBelow (endBit - ((items.take k).map (·.bits.whole)).sum)
        i.bits.whole) := by
  induction items generalizing index endBit k with
  | nil => simp at hk
  | cons j rest ih =>
    cases k with
    | zero =>
      rw [List.getElem?_cons_zero, Option.some.injEq] at hk
      subst hk
      refine ⟨_, by rw [locatedItems, List.getElem?_cons_zero], ?_⟩
      simp
    | succ k =>
      rw [List.getElem?_cons_succ] at hk
      obtain ⟨p, hp, hrange⟩ := @ih (index + 1) (endBit - j.bits.whole) k hk
      refine ⟨p, by rw [locatedItems, List.getElem?_cons_succ, hp], ?_⟩
      rw [hrange, List.take_succ_cons, List.map_cons, List.sum_cons, Int.sub_sub]

/-- **The items of a list hold the bits below the end that their widths add up to.** -/
theorem mem_bitIndices_locatedItems {index : Nat} {endBit : Int} {items : List Item}
    (h : ∀ i ∈ items, 1 ≤ i.bits.whole) {bit : Int} :
    (∃ p ∈ locatedItems path start index endBit items, bit ∈ p.bitIndices) ↔
      endBit - (items.map (·.bits.whole)).sum ≤ bit ∧ bit < endBit := by
  induction items generalizing index endBit with
  | nil =>
    simp only [locatedItems, List.not_mem_nil, false_and, exists_false, List.map_nil,
      List.sum_nil, false_iff]
    omega
  | cons i rest ih =>
    obtain ⟨hi, hrest⟩ := List.forall_mem_cons.1 h
    have hnonneg : 0 ≤ (rest.map (·.bits.whole)).sum := by
      refine List.sum_nonneg fun width hwidth => ?_
      obtain ⟨j, hj, rfl⟩ := List.mem_map.1 hwidth
      exact Int.le_trans (by decide) (hrest j hj)
    have hhead : bit ∈ Item.bitIndices { i.namedAt path index start with
        bitRange := some (bitsBelow endBit i.bits.whole) } ↔
          endBit - i.bits.whole ≤ bit ∧ bit < endBit := mem_bitsBelow
    rw [locatedItems, List.exists_mem_cons_iff, hhead, ih hrest, List.map_cons, List.sum_cons]
    omega

/-- Every item stands below those before it. -/
theorem locatedItems_descending {index : Nat} {endBit : Int} {items : List Item}
    (h : ∀ i ∈ items, 1 ≤ i.bits.whole) :
    (locatedItems path start index endBit items).Pairwise fun p q =>
      ∀ high ∈ p.bitIndices, ∀ low ∈ q.bitIndices, low < high := by
  induction items generalizing index endBit with
  | nil => exact List.Pairwise.nil
  | cons i rest ih =>
    obtain ⟨-, hrest⟩ := List.forall_mem_cons.1 h
    rw [locatedItems, List.pairwise_cons]
    refine ⟨?_, ih hrest⟩
    intro q hq high hhigh low hlow
    have habove : endBit - i.bits.whole ≤ high := (mem_bitsBelow.1 hhigh).1
    have hbelow := ((mem_bitIndices_locatedItems hrest).1 ⟨q, hq, hlow⟩).2
    omega

end

/-! ## The whole word -/

namespace BitField

/-- The bits that the first items need together. -/
def bitsOfFirst (b : BitField) (k : Nat) : Int := ((b.items.take k).map (·.bits.whole)).sum

/-- A placed bit field whose items share out the `n` bits of its word as `b` lists them. -/
structure Partition (b : BitField) (n : Int) (placed : BitField) : Prop where
  count : placed.items.length = b.items.length
  /-- The bits of an item: one below the other, from where those of the items before it end. -/
  range : ∀ (k : Nat) (i : Item), b.items[k]? = some i →
    ∃ p bits, placed.items[k]? = some p ∧ p.bitRange = some bits ∧ bits.Pairwise (· < ·) ∧
      ∀ bit, bit ∈ bits ↔ n - b.bitsOfFirst (k + 1) ≤ bit ∧ bit < n - b.bitsOfFirst k
  nonempty : ∀ p ∈ placed.items, p.bitIndices ≠ []
  disjoint : placed.items.Pairwise fun p q => ∀ bit ∈ p.bitIndices, bit ∉ q.bitIndices
  cover : ∀ bit, (∃ p ∈ placed.items, bit ∈ p.bitIndices) ↔ 0 ≤ bit ∧ bit < n
  descending : placed.items.Pairwise fun p q =>
    ∀ high ∈ p.bitIndices, ∀ low ∈ q.bitIndices, low < high

theorem bitsOfFirst_succ {b : BitField} {k : Nat} {i : Item} (hk : b.items[k]? = some i) :
    b.bitsOfFirst (k + 1) = b.bitsOfFirst k + i.bits.whole := by
  rw [bitsOfFirst, bitsOfFirst, List.take_add_one, hk, Option.toList_some, List.map_append,
    List.sum_append, List.map_singleton, List.sum_singleton]

/-- **An admissible bit field is placed with a partition of its word.** -/
theorem located_partition {b : BitField} (h : b.Admissible) (fullName : Text) (path : Path)
    (start : Int) : b.Partition b.bits.whole (b.located fullName path start) := by
  have hpos : ∀ i ∈ b.items, 1 ≤ i.bits.whole := fun i hi => (h.items i hi).width
  have hdescending : (b.located fullName path start).items.Pairwise fun p q =>
      ∀ high ∈ p.bitIndices, ∀ low ∈ q.bitIndices, low < high := locatedItems_descending hpos
  have hlength : (b.located fullName path start).items.length = b.items.length :=
    length_locatedItems 0 b.bits.whole b.items
  have hrange : ∀ (k : Nat) (i : Item), b.items[k]? = some i →
      ∃ p, (b.located fullName path start).items[k]? = some p ∧
        p.bitRange = some (bitsBelow (b.bits.whole - b.bitsOfFirst k) i.bits.whole) :=
    fun k i hk => bitRange_locatedItems hk
  constructor
  case count => exact hlength
  case range =>
    intro k i hk
    obtain ⟨p, hp, hbits⟩ := hrange k i hk
    refine ⟨p, _, hp, hbits, bitsBelow_ascending _ _, fun bit => ?_⟩
    rw [mem_bitsBelow, bitsOfFirst_succ hk, Int.sub_sub]
  case nonempty =>
    intro p hp
    obtain ⟨k, hk, hget⟩ := List.mem_iff_getElem.1 hp
    have hk' : k < b.items.length := hlength ▸ hk
    obtain ⟨q, hq, hbits⟩ := hrange k b.items[k] (List.getElem?_eq_getElem hk')
    rw [List.getElem?_eq_getElem hk, Option.some.injEq, hget] at hq
    subst hq
    have hfirst : b.bits.whole - b.bitsOfFirst k - 1 ∈ p.bitIndices := by
      have hwidth := hpos b.items[k] (List.getElem_mem hk')
      rw [Item.bitIndices, hbits, Option.getD_some, mem_bitsBelow]
      omega
    exact List.ne_nil_of_mem hfirst
  case disjoint =>
    refine hdescending.imp ?_
    intro p q hpq bit hbit hbit'
    exact Int.lt_irrefl bit (hpq bit hbit bit hbit')
  case cover =>
    intro bit
    have hcover := @mem_bitIndices_locatedItems path (.int start) 0 b.bits.whole b.items hpos bit
    have hfilled : (b.items.map (·.bits.whole)).sum = b.bits.whole := h.filled
    rw [hfilled, Int.sub_self] at hcover
    exact hcover
  case descending => exact hdescending

end BitField

/-! ## Placing a bit field -/

theorem ofCause_widthSum_eq_layout_iff {fullName : Text} {rest : Number} :
    Failure.ofCause fullName (.widthSum rest) = .layout ⟨.str fullName, .widthSum rest⟩ ↔
      rest.isWritable = true := by
  have hname : (Value.str fullName).isWritable = true := rfl
  have hrest : (Value.num rest).isWritable = rest.isWritable := rfl
  simp [Failure.ofCause, Failure.atNode, hname, Cause.isWritable, Cause.values, hrest]

section

variable {b : BitField} {n : Int} {path : Path} {start : Int}

/-- When too few or too many bits are what a bit field is refused for. -/
theorem placeBitField_eq_widthSum_iff (hn : b.bits = .int n) (hwidth : n ∈ wordWidths)
    (hitems : ∀ i ∈ b.items, i.Admissible) (hsum : b.itemBits ≠ n) {fullName : Text} :
    placeBitField b fullName path (.int start) =
        .error (.layout ⟨.str fullName, .widthSum (.int (n - b.itemBits))⟩) ↔
      (∀ i ∈ b.items, i.bits.whole < maxCountedBits) ∧
        (Number.int (n - b.itemBits)).isWritable = true := by
  by_cases hcounted : ∀ i ∈ b.items, i.bits.whole < maxCountedBits
  · rw [placeBitField_of_countable hn hwidth fun i hi => ⟨hitems i hi, hcounted i hi⟩, if_neg hsum,
      Except.error.injEq, ofCause_widthSum_eq_layout_iff]
    exact ⟨fun hwritable => ⟨hcounted, hwritable⟩, And.right⟩
  · have hwide : ∃ i ∈ b.items, maxCountedBits ≤ i.bits.whole := by simpa using hcounted
    rw [placeBitField_of_wide hn hwidth hitems hwide, Except.error.injEq]
    refine iff_of_false ?_ fun h => hcounted h.1
    intro h
    cases h

theorem Field.place_bitfield_of_nameAllowed (hname : b.header.NameAllowed) (index : Nat) :
    place path index (.int start) (bitfield b) =
      placeBitField b (b.header.nameUnder path index) (b.header.pathUnder path index)
        (.int start) >>= fun r => .ok (bitfield r.1, r.2) := by
  have hnode : nodeName b.header path index
      = .ok (b.header.nameUnder path index, b.header.pathUnder path index) :=
    nodeName_eq_ok_iff.2 ⟨hname, rfl⟩
  rw [place, hnode, ok_bind]
  rfl

end

/-- **A bit field whose name and items pass their own checks is placed exactly if the items need
as many bits as its word has, and they then share out these bits.**  Otherwise it is refused with
the bits that are left over, negative if there are too few; except for two cases: an item has too
many bits to be counted, or the difference has more digits than a message can hold. -/
theorem Field.place_bitfield_partition {b : BitField} {n : Int} (hn : b.bits = .int n)
    (hwidth : n ∈ wordWidths) (hname : b.header.NameAllowed)
    (hitems : ∀ i ∈ b.items, i.Admissible) (path : Path) (index : Nat) (start : Int) :
    ((∃ r, place path index (.int start) (bitfield b) = .ok r) ↔ b.itemBits = n) ∧
    (∀ f stop, place path index (.int start) (bitfield b) = .ok (f, stop) →
      ∃ placed, f = bitfield placed ∧ b.Partition n placed) ∧
    (b.itemBits ≠ n →
      (place path index (.int start) (bitfield b) =
          .error (.layout ⟨.str (b.header.nameUnder path index),
            .widthSum (.int (n - b.itemBits))⟩) ↔
        (∀ i ∈ b.items, i.bits.whole < maxCountedBits) ∧
          (Number.int (n - b.itemBits)).isWritable = true)) := by
  have hwhole : b.bits.whole = n := by rw [hn]; rfl
  have hok : ∀ r, place path index (.int start) (bitfield b) = .ok r ↔ b.Admissible ∧
      r = (bitfield (b.located (b.header.nameUnder path index) (b.header.pathUnder path index)
        start), .int (start + n / 8)) := by
    intro r
    rw [place_bitfield_of_nameAllowed hname]
    exact wrapped_eq_ok_iff fun _ => placeBitField_eq_ok_iff hn
  refine ⟨⟨?_, ?_⟩, ?_, ?_⟩
  · rintro ⟨r, hr⟩
    exact hwhole ▸ ((hok r).1 hr).1.filled
  · intro hsum
    exact ⟨_, (hok _).2 ⟨⟨hwhole ▸ hwidth, hitems, hwhole ▸ hsum⟩, rfl⟩⟩
  · intro f stop hf
    obtain ⟨ha, hr⟩ := (hok _).1 hf
    obtain ⟨rfl, -⟩ := Prod.mk.inj hr
    exact ⟨_, rfl, hwhole ▸ BitField.located_partition ha _ _ start⟩
  · intro hsum
    rw [place_bitfield_of_nameAllowed hname, error_eq_bind_ok_iff]
    exact placeBitField_eq_widthSum_iff hn hwidth hitems hsum

/-- A byte of three bits and five. -/
def sharedByte : BitField where
  header := { name := some (.str "b") }
  bits := 8
  items := [{ header := { name := some (.str "x") }, bits := 3 }, { bits := 5 }]

theorem Field.place_bitfield_partition_sharedByte :
    sharedByte.bits = .int 8 ∧ 8 ∈ wordWidths ∧ sharedByte.header.NameAllowed ∧
      (∀ i ∈ sharedByte.items, i.Admissible) ∧
      ((∃ r, place [] 0 (.int 0) (bitfield sharedByte) = .ok r) ↔ sharedByte.itemBits = 8) :=
  ⟨rfl, by decide, by decide, by decide,
    (Field.place_bitfield_partition rfl (by decide) (by decide) (by decide) [] 0 0).1⟩

/-- A byte with an item of too many bits to be counted. -/
def overwideByte : BitField where
  header := { name := some (.str "b") }
  bits := 8
  items := [{ header := { name := some (.str "x") }, bits := .int (2 ^ 63) }]

/-- An item can be too wide for its bit field to be refused for it. -/
theorem Field.place_overwideByte :
    overwideByte.bits = .int 8 ∧ 8 ∈ wordWidths ∧ overwideByte.header.NameAllowed ∧
      (∀ i ∈ overwideByte.items, i.Admissible) ∧ overwideByte.itemBits ≠ 8 ∧
      place [] 0 (.int 0) (bitfield overwideByte) = .error .overflow ∧
      place [] 0 (.int 0) (bitfield overwideByte) ≠ .error (.layout ⟨.str "b",
        .widthSum (.int (8 - overwideByte.itemBits))⟩) := by
  have houtcome : place [] 0 (.int 0) (bitfield overwideByte) = .error .overflow := rfl
  refine ⟨rfl, by decide, by decide, by decide, by decide, houtcome, ?_⟩
  rw [houtcome]
  simp

end RegisterLayout
