import RegisterLayout.Diagram.Layout
import RegisterLayout.Proofs.BitPartition
import RegisterLayout.Proofs.Location

/-!
# The entries of a diagram

A diagram is drawn from the entries of a tree: one for every word, blob, union and item, which has
a cell, and one for every bit field, which stands in the legend alone.  Drawing a tree is drawing
its entries one after the other.  In a placed tree every entry begins at the bit at which the one
before it ends.

Principal definitions: `Entry`, `Field.entries`, `Canvas.drawEntry`; `Entry.width`,
`Entry.firstBit` — the bits of an entry by the placement of the tree; `Entry.Sound`,
`Entry.Consecutive`.
Principal results: `Canvas.drawField_eq_foldlM`, `Field.consecutive_located`.
-/

namespace RegisterLayout

/-- What a diagram has a line of its legend for. -/
inductive Entry where
  /-- A bit field, before its items. -/
  | heading (b : BitField)
  /-- An item of a bit field. -/
  | item (b : BitField) (i : Item)
  /-- A field with a cell of its own. -/
  | cell (f : Field)

namespace Field

mutual

/-- The entries of a tree in the order in which they are drawn. -/
def entries : Field → List Entry
  | bitfield b => .heading b :: b.items.map (.item b)
  | struct _ fields => entriesOf fields
  | f => [.cell f]
termination_by structural f => f

def entriesOf : List Field → List Entry
  | [] => []
  | f :: fs => entries f ++ entriesOf fs
termination_by structural fs => fs

end

theorem mem_entriesOf {e : Entry} {fields : List Field} :
    e ∈ entriesOf fields ↔ ∃ f ∈ fields, e ∈ f.entries := by
  induction fields with
  | nil => simp [entriesOf]
  | cons f fs ih => rw [entriesOf, List.mem_append, ih, List.exists_mem_cons_iff]

/-- Every item comes with its bit field. -/
theorem heading_mem_entries {f : Field} {b : BitField} {i : Item} (h : .item b i ∈ f.entries) :
    .heading b ∈ f.entries := by
  induction f using inductionOn with
  | bitfield b' =>
    rw [entries, List.mem_cons, List.mem_map] at h
    obtain h | ⟨j, -, h⟩ := h
    · cases h
    · obtain ⟨rfl, -⟩ := Entry.item.inj h
      exact List.mem_cons_self
  | struct header fields ih =>
    rw [entries, mem_entriesOf] at h ⊢
    obtain ⟨f, hf, h⟩ := h
    exact ⟨f, hf, ih f hf h⟩
  | _ =>
    rw [entries, List.mem_singleton] at h
    · cases h
    · simp
    · simp

end Field

/-! ## Drawing entries -/

namespace Canvas

/-- The line of a bit field, which has to lie within one row. -/
def drawHeading (c : Canvas) (b : BitField) : Except Failure Canvas := do
  let bits ← b.bits.number
  let refuse (cause : Cause) := throw (.ofNode b.header.position.fullName cause)
  if (Number.int rowBits).lt bits then refuse .bitfieldOverRow
  if !(← c.staysOnRow bits) then
    refuse (.bitfieldStraddles c.bitOffset (← c.bitOffset.plus bits))
  let (name, c) := c.nameBitField b.header
  return c.addLegend { name, bits := ← bitCount b.bits, desc := b.header.desc }

def drawEntry (c : Canvas) : Entry → Except Failure Canvas
  | .heading b => c.drawHeading b
  | .item b i => do c.drawItem (← b.bits.number) i
  | .cell f => c.drawField f

theorem drawBitField_eq (c : Canvas) (b : BitField) :
    c.drawBitField b
      = c.drawHeading b >>= fun c => (b.items.map (.item b)).foldlM drawEntry c := by
  unfold drawBitField drawHeading
  cases hb : b.bits.number with
  | error e => rfl
  | ok bits =>
    have hitems : (fun (c : Canvas) (i : Item) => c.drawEntry (.item b i))
        = fun c i => c.drawItem bits i := by
      funext c i
      rw [drawEntry, hb, ok_bind]
    simp only [List.foldlM_map, hitems, ok_bind]
    by_cases hwide : (Number.int rowBits).lt bits = true
    · simp only [if_pos hwide, throw_bind]
    · simp only [if_neg hwide]
      cases c.staysOnRow bits with
      | error e => rfl
      | ok stays =>
        cases stays with
        | false => cases c.bitOffset.plus bits <;> rfl
        | true => cases bitCount b.bits <;> rfl

/-- **Drawing a tree is drawing its entries in their order.** -/
theorem drawField_eq_foldlM (c : Canvas) (f : Field) :
    c.drawField f = f.entries.foldlM drawEntry c := by
  induction f using Field.inductionOn generalizing c with
  | bitfield b =>
    rw [drawField, drawBitField_eq]
    rfl
  | struct h fields ih =>
    rw [drawField, Field.entries]
    induction fields generalizing c with
    | nil => rfl
    | cons f fs ihs =>
      obtain ⟨hf, hfs⟩ := List.forall_mem_cons.1 ih
      rw [drawFields, Field.entriesOf, List.foldlM_append, hf]
      exact bind_congr fun c => ihs hfs c
  | _ => rw [Field.entries, List.foldlM_cons, drawEntry] <;> simp

end Canvas

/-! ## The bits of an entry -/

/-- The byte offset of a placed node. -/
def Header.byteOffset (h : Header) : Int := (h.position.byteOffset.map Value.whole).getD 0

@[simp] theorem Header.byteOffset_placedAt (h : Header) (fullName : Text) (start : Int) :
    (h.placedAt fullName (.int start)).byteOffset = start := rfl

theorem Header.NameAllowed.placedAt {h : Header} (ha : h.NameAllowed) (fullName : Text)
    (start : Number) : (h.placedAt fullName start).NameAllowed :=
  ⟨ha.name, ha.shortName⟩

/-- The highest bit of a placed item. -/
def Item.high (i : Item) : Int := i.bitIndices.getLast?.getD 0

theorem head?_bitsBelow {endBit width : Int} (hwidth : 1 ≤ width) :
    (bitsBelow endBit width).head? = some (endBit - width) := by
  obtain ⟨n, rfl⟩ : ∃ n : Nat, width = n + 1 := ⟨(width - 1).toNat, by omega⟩
  rw [bitsBelow, List.head?_map, Int.toNat_natCast_add_one, List.range_succ_eq_map]
  simp

theorem getLast?_bitsBelow {endBit width : Int} (hwidth : 1 ≤ width) :
    (bitsBelow endBit width).getLast? = some (endBit - 1) := by
  obtain ⟨n, rfl⟩ : ∃ n : Nat, width = n + 1 := ⟨(width - 1).toNat, by omega⟩
  rw [bitsBelow, List.getLast?_map, Int.toNat_natCast_add_one, List.range_succ,
    List.getLast?_concat, Option.map_some, Option.some.injEq]
  omega

theorem Item.high_eq {i : Item} {endBit width : Int} (hwidth : 1 ≤ width)
    (hrange : i.bitRange = some (bitsBelow endBit width)) : i.high = endBit - 1 := by
  rw [Item.high, Item.bitIndices, hrange, Option.getD_some, getLast?_bitsBelow hwidth,
    Option.getD_some]

namespace Entry

def header : Entry → Header
  | heading b => b.header
  | item _ i => i.header
  | cell f => f.header

/-- The entries with a cell are all but those of bit fields. -/
def hasCell : Entry → Bool
  | heading _ => false
  | item .. | cell _ => true

/-- The bits that the cell of an entry stands for; a bit field leaves its bits to its items. -/
def width : Entry → Int
  | heading _ => 0
  | item _ i => i.bits.whole
  | cell f => f.bitCount

theorem width_of_no_cell {e : Entry} (h : e.hasCell = false) : e.width = 0 := by
  cases e with
  | heading b => rfl
  | _ => cases h

/-- The bit at which an entry begins, counted from the start of the tree as a diagram shows it:
the first byte first, and in a bit field the highest bit first. -/
def firstBit : Entry → Int
  | heading b => 8 * b.header.byteOffset
  | item b i => 8 * i.header.byteOffset + (b.bits.whole - 1 - i.high)
  | cell f => 8 * f.header.byteOffset

/-- What is known of the entries of a tree that was accepted. -/
inductive Sound : Entry → Prop
  | heading {b : BitField} {n : Int} (name : b.header.NameAllowed) (bits : b.bits = .int n)
      (width : n ∈ wordWidths) : Sound (.heading b)
  | item {b : BitField} {i : Item} {n w endBit : Int} (name : i.header.NameAllowed)
      (word : b.bits = .int n) (wordWidth : n ∈ wordWidths) (bits : i.bits = .int w)
      (width : 1 ≤ w) (range : i.bitRange = some (bitsBelow endBit w)) (low : w ≤ endBit)
      (high : endBit ≤ n) (stands : i.header.byteOffset = b.header.byteOffset) :
      Sound (.item b i)
  | word {w : Word} {n : Int} (name : w.header.NameAllowed) (bits : w.bits = .int n)
      (width : n ∈ wordWidths) (aligned : n / 8 ∣ w.header.byteOffset) : Sound (.cell (.word w))
  | blob {b : Blob} {n : Int} (name : b.header.NameAllowed) (bytes : b.bytes = .int n)
      (size : 1 ≤ n) : Sound (.cell (.blob b))
  | union {h : Header} {members : List Field} {n : Int} (name : h.NameAllowed)
      (size : (Field.union h members).sizeBits = .ok (.int n)) (nonneg : 0 ≤ n) :
      Sound (.cell (.union h members))

theorem Sound.nameAllowed {e : Entry} (h : e.Sound) : e.header.NameAllowed := by
  cases h <;> assumption

/-- Sound entries, each of which begins at the bit at which the one before it ends. -/
inductive Consecutive : Int → List Entry → Int → Prop
  | nil (bit : Int) : Consecutive bit [] bit
  | cons {e : Entry} {es : List Entry} {stop : Int} (sound : e.Sound)
      (rest : Consecutive (e.firstBit + e.width) es stop) : Consecutive e.firstBit (e :: es) stop

namespace Consecutive

theorem cons_of_eq {e : Entry} {es : List Entry} {start stop : Int} (sound : e.Sound)
    (first : e.firstBit = start) (rest : Consecutive (start + e.width) es stop) :
    Consecutive start (e :: es) stop := by
  subst first
  exact cons sound rest

theorem nil_iff {start stop : Int} : Consecutive start [] stop ↔ stop = start := by
  constructor
  · intro h
    cases h
    rfl
  · rintro rfl
    exact nil _

theorem cons_iff {e : Entry} {es : List Entry} {start stop : Int} :
    Consecutive start (e :: es) stop ↔
      e.Sound ∧ e.firstBit = start ∧ Consecutive (start + e.width) es stop := by
  constructor
  · intro h
    cases h with
    | cons sound rest => exact ⟨sound, rfl, rest⟩
  · rintro ⟨sound, first, rest⟩
    exact cons_of_eq sound first rest

theorem append_iff {es fs : List Entry} {start stop : Int} :
    Consecutive start (es ++ fs) stop ↔
      ∃ middle, Consecutive start es middle ∧ Consecutive middle fs stop := by
  induction es generalizing start with
  | nil => simp [nil_iff]
  | cons e es ih => simp only [List.cons_append, cons_iff, ih, and_assoc, exists_and_left]

theorem append {es fs : List Entry} {start middle stop : Int} (h : Consecutive start es middle)
    (h' : Consecutive middle fs stop) : Consecutive start (es ++ fs) stop :=
  append_iff.2 ⟨middle, h, h'⟩

theorem sound {es : List Entry} {start stop : Int} (h : Consecutive start es stop) :
    ∀ e ∈ es, e.Sound := by
  induction h with
  | nil bit => exact fun _ he => nomatch he
  | cons sound _ ih => exact List.forall_mem_cons.2 ⟨sound, ih⟩

theorem concat_iff {es : List Entry} {e : Entry} {start stop : Int} :
    Consecutive start (es ++ [e]) stop ↔
      Consecutive start es e.firstBit ∧ e.Sound ∧ stop = e.firstBit + e.width := by
  simp only [append_iff, cons_iff, nil_iff]
  constructor
  · rintro ⟨middle, hes, he, rfl, hstop⟩
    exact ⟨hes, he, hstop⟩
  · rintro ⟨hes, he, hstop⟩
    exact ⟨_, hes, he, rfl, hstop⟩

end Consecutive

end Entry

/-! ## The entries of a placed tree -/

open Entry (Consecutive)

theorem consecutive_locatedItems {path : Path} {index : Nat} {start endBit n : Int}
    {items : List Item} {b : BitField} (hb : b.bits = .int n) (hn : n ∈ wordWidths)
    (hstart : b.header.byteOffset = start) (hitems : ∀ i ∈ items, i.Admissible)
    (hwhole : ∀ i ∈ items, ∃ w, i.bits = .int w) (hhigh : endBit ≤ n)
    (hsum : (items.map (·.bits.whole)).sum = endBit) :
    Consecutive (8 * start + (n - endBit))
      ((locatedItems path (.int start) index endBit items).map (.item b)) (8 * start + n) := by
  induction items generalizing index endBit with
  | nil =>
    rw [List.map_nil, List.sum_nil] at hsum
    rw [← hsum, Int.sub_zero]
    exact .nil _
  | cons i rest ih =>
    obtain ⟨hi, hrest⟩ := List.forall_mem_cons.1 hitems
    obtain ⟨⟨w, hw⟩, hrestWhole⟩ := List.forall_mem_cons.1 hwhole
    have hpos : 1 ≤ w := by simpa [hw] using hi.width
    have hnonneg : 0 ≤ (rest.map (·.bits.whole)).sum := by
      refine List.sum_nonneg fun width hwidth => ?_
      obtain ⟨j, hj, rfl⟩ := List.mem_map.1 hwidth
      exact Int.le_trans (by decide) (hrest j hj).width
    rw [List.map_cons, List.sum_cons, hw, Value.whole_int] at hsum
    rw [locatedItems, List.map_cons, hw, Value.whole_int]
    have hlow : w ≤ endBit := by omega
    refine .cons_of_eq (.item (hi.name.placedAt _ _) hb hn hw hpos rfl hlow hhigh hstart.symm)
      ?_ ?_
    · have hlast : Item.high { i.namedAt path index (.int start) with
          bitRange := some (bitsBelow endBit w) } = endBit - 1 := Item.high_eq hpos rfl
      show 8 * start + (b.bits.whole - 1 - _) = _
      rw [hlast, hb, Value.whole_int]
      omega
    · have hwidth : Entry.width (.item b { i.namedAt path index (.int start) with
          bitRange := some (bitsBelow endBit w) }) = w := by
        show i.bits.whole = w
        rw [hw, Value.whole_int]
      have hnext : 8 * start + (n - endBit) + w = 8 * start + (n - (endBit - w)) := by omega
      rw [hwidth, hnext]
      exact ih hrest hrestWhole (by omega) (by omega)

namespace Field

section

variable {path : Path} {index : Nat} {start : Int}

/-- A node that is drawn in one piece is drawn with all its bytes. -/
theorem consecutive_cell {f : Field} (hbytes : f.WholeBytes)
    (sound : (Entry.cell (f.located path index start)).Sound)
    (first : (Entry.cell (f.located path index start)).firstBit = 8 * start) :
    Consecutive (8 * start) [.cell (f.located path index start)] (8 * (start + f.byteCount)) := by
  have hwidth : (Entry.cell (f.located path index start)).width = f.bitCount :=
    bitCount_located f path index start
  have hstop : 8 * (start + f.byteCount) = 8 * start + f.bitCount := by
    have hcount := hbytes.eq_byteCount
    omega
  refine .cons_of_eq sound first ?_
  rw [hwidth, hstop]
  exact .nil _

theorem consecutive_locatedFields {fields : List Field}
    (hspots : ∀ s ∈ fieldSpots start fields, s.Allowed)
    (hfields : ∀ f ∈ fields, ∀ (path : Path) (index : Nat) (start : Int), f.Placeable start →
      Consecutive (8 * start) (f.located path index start).entries (8 * (start + f.byteCount))) :
    Consecutive (8 * start) (entriesOf (locatedFields path index start fields))
      (8 * (start + (fields.map byteCount).sum)) := by
  induction fields generalizing index start with
  | nil =>
    rw [List.map_nil, List.sum_nil, Int.add_zero]
    exact .nil _
  | cons f fs ih =>
    obtain ⟨hf, hfs⟩ := List.forall_mem_cons.1 hfields
    obtain ⟨hallowed, hbelow, hrest⟩ := forall_mem_fieldSpots_cons.1 hspots
    rw [locatedFields, entriesOf, List.map_cons, List.sum_cons, ← Int.add_assoc]
    exact (hf path index start ⟨hallowed.name, hallowed.kind, hbelow⟩).append (ih hrest hfs)

/-- **In a placed tree every entry begins where the one before it ends.** -/
theorem consecutive_located {f : Field} (h : f.Placeable start) (hf : f.SizesWhole) (path : Path)
    (index : Nat) :
    Consecutive (8 * start) (f.located path index start).entries (8 * (start + f.byteCount)) := by
  induction f using inductionOn generalizing start path index with
  | word w =>
    obtain ⟨n, hn⟩ := hf.own
    have hword : w.Admissible start := h.kind
    have hwidth : n ∈ wordWidths := by simpa [hn] using hword.width
    have haligned : n / 8 ∣ start := by simpa [hn] using hword.aligned
    exact consecutive_cell (h.wholeBytes hf) (.word (h.name.placedAt _ _) hn hwidth haligned) rfl
  | bitfield b =>
    obtain ⟨⟨n, hn⟩, hitems⟩ := hf.own
    have hfield : b.Admissible := h.kind
    have hwidth : n ∈ wordWidths := by simpa [hn] using hfield.width
    have hfilled : (b.items.map (·.bits.whole)).sum = n := by
      simpa [hn, BitField.itemBits] using hfield.filled
    have hbytes := (h.wholeBytes hf).eq_byteCount
    rw [bitCount_bitfield hn] at hbytes
    have hend : 8 * (start + (bitfield b).byteCount) = 8 * start + n := by omega
    have hstart : 8 * start + 0 = 8 * start + (n - n) := by omega
    rw [located, entries, hend]
    refine .cons_of_eq (.heading (h.name.placedAt _ _) hn hwidth) rfl ?_
    show Consecutive (8 * start + 0) ((locatedItems _ (.int start) 0 b.bits.whole b.items).map _) _
    rw [hstart, hn, Value.whole_int]
    exact consecutive_locatedItems hn hwidth rfl hfield.items hitems (Int.le_refl n) hfilled
  | blob b =>
    obtain ⟨n, hn⟩ := hf.own
    have hsize : 1 ≤ n := by simpa [KindAdmissible, hn] using h.kind
    exact consecutive_cell (h.wholeBytes hf) (.blob (h.name.placedAt _ _) hn hsize) rfl
  | struct header fields ih =>
    have hbytes : ∀ f ∈ fields, f.WholeBytes := by
      intro f hm
      obtain ⟨k, hk⟩ := List.mem_iff_getElem?.1 hm
      exact (h.field hk).wholeBytes (hf.child hm)
    have hwhole : ∀ f ∈ fields, f.SizesWhole := fun f hm => hf.child hm
    rw [byteCount_struct hwhole hbytes]
    exact consecutive_locatedFields h.below fun f hm path index start hplaceable =>
      ih f hm hplaceable (hwhole f hm) path index
  | union header members ih =>
    have hsize := sizeBits_located (union header members) path index start
    rw [sizeBits_eq hf] at hsize
    have hwhole := h.wholeBytes hf
    exact consecutive_cell hwhole (.union (h.name.placedAt _ _) hsize hwhole.nonneg) rfl
  | stray i => exact h.kind.elim

end

/-- The entries of an accepted tree. -/
theorem consecutive_of_resolve {raw root : Field} (hraw : raw.SizesWhole)
    (h : raw.resolve = .ok root) :
    Consecutive 0 root.entries root.bitCount := by
  obtain ⟨hplaceable, rfl⟩ := located_of_resolve hraw h
  have hbytes := (hplaceable.wholeBytes hraw).eq_byteCount
  have hconsecutive := consecutive_located hplaceable hraw [] 0
  rw [Int.mul_zero, Int.zero_add, Int.mul_comm, ← hbytes, ← bitCount_located raw [] 0 0]
    at hconsecutive
  exact hconsecutive

end Field

end RegisterLayout
