import RegisterLayout.Proofs.CellText
import RegisterLayout.Proofs.EntryPlace
import RegisterLayout.Proofs.Label

/-!
# What drawing an entry comes to

On a canvas that is at the first bit of an entry, drawing the entry chooses its label and then
either refuses its place or adds its cell and its line.

Principal definitions: `Drawn` — an entry with its name and its label; `Canvas.after`.
Principal result: `Canvas.drawEntry_eq`.
-/

namespace RegisterLayout

/-! ## Drawn entries -/

namespace Entry

/-- What the legend says of the bits of an entry.  Items of a word as wide as a row are shown by
their indices. -/
def bitsText : Entry → Text
  | heading b => b.bits.text ++ " bit"
  | item b i =>
    if b.bits.whole = 32 then
      if i.bits.whole = 1 then ("bit " ++ toString i.high : String)
      else ("bits " ++ toString i.high ++ ".." ++ toString (i.high - i.bits.whole + 1) : String)
    else i.bits.text ++ " bit"
  | cell f => (Value.int f.bitCount).text ++ " bit"

def enumeration : Entry → Option Enumeration
  | item _ i => i.enumeration
  | cell (.word w) => w.enumeration
  | _ => none

def typedef : Entry → Option Value
  | cell (.word w) => w.typedef
  | _ => none

/-- The cell of an entry with a label; items have but one row. -/
def cellWith : Entry → Text → Cell
  | item _ i, label => [centred (cellLetters i.bits.whole).toNat label]
  | e, label => cellOf label e.width

/-- Items stand below their bit field. -/
def indent : Entry → Value
  | item .. => 1
  | _ => 0

end Entry

/-- An entry with the name that the legend gives it and the label of its cell. -/
structure Drawn where
  entry : Entry
  name : Text
  label : Option Text

namespace Drawn

/-- The cell of an entry, labelled. -/
def cell? (d : Drawn) : Option Cell := d.label.map d.entry.cellWith

/-- The line of an entry in the legend. -/
def line (d : Drawn) : LegendLine where
  name := .str d.name
  bits := .str d.entry.bitsText
  label := d.label.map .str
  enumeration := d.entry.enumeration
  typedef := d.entry.typedef
  desc := d.entry.header.desc
  indent := d.entry.indent

end Drawn

namespace Canvas

/-- A canvas with one more entry. -/
def after (c : Canvas) (d : Drawn) : Canvas where
  cells := c.cells ++ d.cell?.toList
  legend := c.legend ++ [d.line]
  taken := d.label.toList ++ c.taken
  unnamedFields := c.unnamedFields + if d.entry.hasCell then d.entry.header.unnamed else 0
  bitOffset := .int (d.entry.firstBit + d.entry.width)
  unnamedBitFields := c.unnamedBitFields + if d.entry.hasCell then 0 else d.entry.header.unnamed

/-- The name that an entry gets. -/
def nameFor (c : Canvas) (e : Entry) : Text :=
  if e.hasCell then e.header.nameOr "unused_" c.unnamedFields
  else e.header.nameOr "bitfield_" c.unnamedBitFields

/-- The label that an entry gets; there is none without a cell. -/
def labelFor (c : Canvas) (e : Entry) : Except Failure (Option Text) :=
  if e.hasCell then
    findLabel (c.nameFor e) (.int (cellLetters e.width)) c.taken >>= fun label => .ok (some label)
  else .ok none

/-! ## The steps of drawing -/

section

variable {c : Canvas} {h : Header} {bit n : Int} {label : Text}

theorem nameOr_of_given {name : Value} (ha : h.NameAllowed) (hname : h.givenName? = some name)
    (stem : String) (number : Nat) : Value.str (h.nameOr stem number) = name := by
  obtain ⟨s, rfl, -⟩ := ha.name name hname
  rw [Header.nameOr, hname]
  rfl

theorem nameField_eq (ha : h.NameAllowed) :
    c.nameField h = (.str (h.nameOr "unused_" c.unnamedFields),
      { c with unnamedFields := c.unnamedFields + h.unnamed }) := by
  cases hname : h.givenName? with
  | none => simp [nameField, Header.nameOr, Header.unnamed, numberedName, hname]
  | some name =>
    rw [nameOr_of_given ha hname]
    simp [nameField, Header.unnamed, hname]

theorem nameBitField_eq (ha : h.NameAllowed) :
    c.nameBitField h = (.str (h.nameOr "bitfield_" c.unnamedBitFields),
      { c with unnamedBitFields := c.unnamedBitFields + h.unnamed }) := by
  cases hname : h.givenName? with
  | none => simp [nameBitField, Header.nameOr, Header.unnamed, numberedName, hname]
  | some name =>
    rw [nameOr_of_given ha hname]
    simp [nameBitField, Header.unnamed, hname]

theorem chooseLabel_eq (ha : h.NameAllowed) :
    c.chooseLabel h (.int n) =
      findLabel (h.nameOr "unused_" c.unnamedFields) (.int (cellLetters n)) c.taken >>= fun label =>
        .ok (label, .str (h.nameOr "unused_" c.unnamedFields),
          { c with
            taken := label :: c.taken
            unnamedFields := c.unnamedFields + h.unnamed }) := by
  rw [chooseLabel, nameField_eq ha, maxLetters_int]
  rfl

theorem staysOnRow_int (hc : c.bitOffset = .int bit) (hn : 1 ≤ n) :
    c.staysOnRow (.int n) = .ok (decide ¬CrossesRow bit n) := by
  have hrows : (bit.fdiv rowBits == (bit + n + -1).fdiv rowBits) = decide ¬CrossesRow bit n := by
    rw [rowBits, Int.fdiv_eq_ediv_of_nonneg _ (by decide), Int.fdiv_eq_ediv_of_nonneg _ (by decide),
      Bool.beq_eq_decide_eq, decide_eq_decide, crossesRow_iff]
    omega
  rw [← hrows, staysOnRow, hc]
  rfl

theorem advance_int (hc : c.bitOffset = .int bit) :
    c.advance (.int n) = .ok { c with bitOffset := .int (bit + n) } := by
  rw [advance, hc]
  rfl

/-- A cell is drawn over its bits. -/
theorem drawOver_eq (hc : c.bitOffset = .int bit) (hlabel : label.length ≤ cellLetters n)
    {finish : Text → Except Failure Cell} {cell : Cell}
    (hfinish : finish (centred (cellLetters n).toNat label) = .ok cell) :
    c.drawOver label (.int n) finish =
      .ok { c with bitOffset := .int (bit + n), cells := c.cells ++ [cell] } := by
  have hpadded : padLabel label (.int n) >>= finish = .ok cell := by
    rw [padLabel_int hlabel, ok_bind, hfinish]
  simp only [drawOver, advance_int hc, hpadded, addCell]

/-- An undivided run of bits is drawn over its bits unless it has no place, which is found out
before its label is looked at. -/
theorem pushCell_int (hc : c.bitOffset = .int bit) (hn : 1 ≤ n) (fullName : Option Text) :
    c.pushCell label fullName (.int n) =
      match runRefusal? fullName bit n with
      | some e => .error (e, c)
      | none =>
        c.drawOver label (.int n) fun row => .ok (if n < 32 then [row] else tallCell n row) := by
  have hplus : c.bitOffset.plus (.int n) = .ok (.int (bit + n)) := by rw [hc, Number.plus_int]
  have hrows : (Number.int n).lt (.int rowBits) = decide (n < 32) := rfl
  have hmod : ∀ m : Int, ((Number.int m).mod rowBits).isZero = decide (32 ∣ m) :=
    Number.isZero_mod_int (by decide)
  rw [pushCell, hrows, staysOnRow_int hc hn, hplus, runRefusal?]
  by_cases hnarrow : n < 32
  · simp only [hnarrow, decide_true, if_true]
    by_cases hcrosses : CrossesRow bit n
    · simp only [hcrosses, not_true, decide_false, if_true, hc]
    · simp only [hcrosses, not_false_iff, decide_true, if_false]
  · simp only [hnarrow, decide_false, Bool.false_eq_true, if_false, hc, hmod]
    by_cases hwhole : 32 ∣ n
    · by_cases hfirst : 32 ∣ bit
      · simp [hwhole, hfirst]
      · have hrest : (Number.int bit).mod rowBits = .int (bit % 32) := by
          rw [Number.mod_int, rowBits, Int.fmod_eq_emod_of_nonneg bit (by decide)]
        simp [hwhole, hfirst, hrest]
    · simp [hwhole]

/-- **An undivided run of bits is drawn unless it has no place.** -/
theorem pushCell_eq (hc : c.bitOffset = .int bit) (hn : 1 ≤ n)
    (hlabel : label.length ≤ cellLetters n) (fullName : Option Text) :
    c.pushCell label fullName (.int n) =
      match runRefusal? fullName bit n with
      | some e => .error (e, c)
      | none =>
        .ok { c with bitOffset := .int (bit + n), cells := c.cells ++ [cellOf label n] } := by
  have hdrawn := @drawOver_eq c bit n label hc hlabel
    (fun row => .ok (if n < 32 then [row] else tallCell n row)) (cellOf label n) rfl
  rw [pushCell_int hc hn, hdrawn]

end

end Canvas

/-- A size in bits that has to be written. -/
theorem bitCount_num (n : Number) :
    Canvas.bitCount (.num n) =
      if n.isWritable then .ok (.str ((Value.num n).text ++ " bit")) else .error .longNumber := by
  have hwritable : (Value.num n).isWritable = n.isWritable := rfl
  rw [Canvas.bitCount, Value.written, Value.writable, hwritable]
  split <;> rfl

namespace Canvas

variable {c : Canvas}

theorem bitsBelow_one (endBit : Int) : bitsBelow endBit 1 = [endBit - 1] := by
  simp [bitsBelow]

theorem exists_bitsBelow_eq_cons_cons {endBit width : Int} (hwidth : 2 ≤ width) :
    ∃ low next rest, bitsBelow endBit width = low :: next :: rest := by
  have hlength : (bitsBelow endBit width).length = width.toNat := by simp [bitsBelow]
  rcases hbits : bitsBelow endBit width with _ | ⟨low, _ | ⟨next, rest⟩⟩
  · rw [hbits, List.length_nil] at hlength
    omega
  · rw [hbits, List.length_singleton] at hlength
    omega
  · exact ⟨low, next, rest, rfl⟩

theorem itemBits_int {b : BitField} {i : Item} {n w endBit : Int} (hb : b.bits = .int n)
    (hi : i.bits = .int w) (hpos : 1 ≤ w) (hw : w ≤ 64)
    (hrange : i.bitRange = some (bitsBelow endBit w)) :
    itemBits (.int n) i = .ok (.str (Entry.item b i).bitsText) := by
  have hhigh : i.high = endBit - 1 := Item.high_eq hpos hrange
  have hsame : (Number.int n).same (.int rowBits) = decide (n = 32) := rfl
  rw [itemBits, hsame, hrange, Entry.bitsText, hb, hi]
  simp only [Value.whole_int, hhigh]
  by_cases hrow : n = 32
  · rw [if_pos hrow, if_pos (decide_eq_true hrow)]
    by_cases hone : w = 1
    · subst hone
      rw [if_pos rfl, bitsBelow_one]
    · have hhead := @head?_bitsBelow endBit w hpos
      have hlast := @getLast?_bitsBelow endBit w hpos
      have hlow : endBit - 1 - w + 1 = endBit - w := by omega
      obtain ⟨low, next, rest, hcons⟩ := @exists_bitsBelow_eq_cons_cons endBit w (by omega)
      rw [hcons] at hhead hlast
      simp only [if_neg hone, hcons, hhead, hlast, hlow]
  · have hwritable : (Number.int w).isWritable = true := isWritable_of_le (by omega) hw
    rw [if_neg hrow, if_neg (by simpa using hrow), bitCount_num, if_pos hwritable]

theorem labelFor_of_hasCell {e : Entry} (hcell : e.hasCell = true) :
    c.labelFor e =
      findLabel (e.header.nameOr "unused_" c.unnamedFields) (.int (cellLetters e.width)) c.taken >>=
        fun label => .ok (some label) := by
  rw [labelFor, nameFor, if_pos hcell, if_pos hcell]

theorem drawHeading_eq {b : BitField} {n : Int} (ha : b.header.NameAllowed)
    (hc : c.bitOffset = .int (Entry.heading b).firstBit) (hb : b.bits = .int n)
    (hn : n ∈ wordWidths) :
    c.drawHeading b =
      match bitFieldRefusal? b.header.position.fullName (Entry.heading b).firstBit n with
      | some e => .error e
      | none => .ok (c.after ⟨.heading b, c.nameFor (.heading b), none⟩) := by
  have hbounds := mem_wordWidths_bounds hn
  have hwritable : (Number.int n).isWritable = true :=
    isWritable_of_le (by omega) hbounds.2
  have hstays := @staysOnRow_int c (Entry.heading b).firstBit n hc hbounds.1
  have hwide : (Number.int rowBits).lt (.int n) = decide (32 < n) := rfl
  rw [drawHeading, hb, Value.number_num, ok_bind, bitFieldRefusal?, hwide]
  by_cases h : 32 < n
  · simp only [h, decide_true, if_true]
    rfl
  by_cases hcrosses : CrossesRow (Entry.heading b).firstBit n
  · simp [h, hcrosses, hstays, ok_bind, hc]
    rfl
  · have hafter : c.after ⟨.heading b, c.nameFor (.heading b), none⟩ = { c with
        legend := c.legend ++ [{
          name := .str (b.header.nameOr "bitfield_" c.unnamedBitFields)
          bits := .str ((Value.int n).text ++ " bit")
          desc := b.header.desc }]
        unnamedBitFields := c.unnamedBitFields + b.header.unnamed } := by
      simp only [after, Drawn.cell?, Option.map_none, Option.toList_none, List.append_nil,
        List.nil_append, Entry.width, Int.add_zero, ← hc, Drawn.line, Entry.bitsText, hb]
      rfl
    simp only [h, hcrosses, decide_false, not_false_iff, decide_true, hstays, ok_bind,
      nameBitField_eq ha, bitCount_num, hwritable, if_true, if_false, Bool.not_true,
      Bool.false_eq_true, hafter]
    rfl

theorem drawItem_eq {b : BitField} {i : Item} {n w endBit : Int} (ha : i.header.NameAllowed)
    (hc : c.bitOffset = .int (Entry.item b i).firstBit) (hb : b.bits = .int n)
    (hi : i.bits = .int w) (hpos : 1 ≤ w) (hw : w ≤ 64)
    (hrange : i.bitRange = some (bitsBelow endBit w)) :
    c.drawItem (.int n) i =
      c.labelFor (.item b i) >>= fun label =>
        .ok (c.after ⟨.item b i, c.nameFor (.item b i), label⟩) := by
  have hwidth : (Entry.item b i).width = w := by rw [Entry.width, hi, Value.whole_int]
  rw [drawItem, hi, Value.number_num, ok_bind, chooseLabel_eq ha, labelFor_of_hasCell rfl, hwidth,
    Entry.header]
  cases hlabel : findLabel (i.header.nameOr "unused_" c.unnamedFields) (.int (cellLetters w))
      c.taken with
  | error e => rfl
  | ok label =>
    have hfits := (findLabel_fits hlabel).2
    simp only [ok_bind]
    rw [advance_int (by exact hc), ok_bind, padLabel_int hfits, ok_bind,
      itemBits_int hb hi hpos hw hrange, after, hwidth, Drawn.cell?, Option.map_some,
      Entry.cellWith, hi, Value.whole_int]
    rfl

/-- **A cell with its line is drawn if there is a label for it, its size can be written and its
bits have a place, which is found out in this order.** -/
theorem drawCell_eq {f : Field} (ha : f.header.NameAllowed)
    (hc : c.bitOffset = .int (Entry.cell f).firstBit) :
    c.drawCell f.header (.int f.bitCount) (Entry.cell f).enumeration (Entry.cell f).typedef =
      c.labelFor (.cell f) >>= fun label =>
        match wholeRefusal? f.header.position.fullName (Entry.cell f).firstBit f.bitCount with
        | some e => .error e
        | none => .ok (c.after ⟨.cell f, c.nameFor (.cell f), label⟩) := by
  rw [drawCell, Value.number_num, ok_bind, chooseLabel_eq ha, labelFor_of_hasCell rfl, Entry.header,
    Entry.width]
  cases hlabel : findLabel (f.header.nameOr "unused_" c.unnamedFields)
      (.int (cellLetters f.bitCount)) c.taken with
  | error e => rfl
  | ok label =>
    have hfits := (findLabel_fits hlabel).2
    -- Nothing is known of the size of a union but that there is room for its label.
    have hpos : 1 ≤ f.bitCount := one_le_of_fits hfits
    simp only [ok_bind, bitCount_num, wholeRefusal?]
    by_cases hwritable : (Number.int f.bitCount).isWritable = true
    · simp only [if_pos hwritable, ok_bind]
      rw [pushCell_eq ?_ hpos hfits]
      · cases runRefusal? f.header.position.fullName (Entry.cell f).firstBit f.bitCount with
        | some e => rfl
        | none => rfl
      · exact hc
    · simp only [if_neg hwritable, error_bind]

/-- **An entry is drawn unless there is no label for it or its place is refused.** -/
theorem drawEntry_eq {e : Entry} (he : e.Sound) (hc : c.bitOffset = .int e.firstBit) :
    c.drawEntry e =
      c.labelFor e >>= fun label =>
        match e.refusal? with
        | some err => .error err
        | none => .ok (c.after ⟨e, c.nameFor e, label⟩) := by
  cases he with
  | @heading b n ha hb hn =>
    have hrefusal : (Entry.heading b).refusal?
        = bitFieldRefusal? b.header.position.fullName (Entry.heading b).firstBit n := by
      show bitFieldRefusal? _ _ b.bits.whole = _
      rw [hb, Value.whole_int]
    have hlabel : c.labelFor (.heading b) = .ok none := rfl
    rw [drawEntry, drawHeading_eq ha hc hb hn, hlabel, ok_bind, hrefusal]
  | @item b i n w endBit ha hb hn hi hpos hrange hlow hhigh hstands =>
    have hw : w ≤ 64 := Int.le_trans (Int.le_trans hlow hhigh) (mem_wordWidths_bounds hn).2
    rw [drawEntry, hb, Value.number_num, ok_bind, drawItem_eq ha hc hb hi hpos hw hrange]
    rfl
  | @word w n ha hb hn haligned =>
    have hbits : (Field.word w).bitCount = n := Field.bitCount_word hb
    have hnarrow : ¬(Number.int 64).lt (.int n) = true := by
      simpa using (mem_wordWidths_bounds hn).2
    have hplace : wholeRefusal? (Field.word w).header.position.fullName
        (Entry.cell (.word w)).firstBit n = none := wholeRefusal?_word hn haligned
    have hdraw := @drawCell_eq c (.word w) ha hc
    rw [hbits, hplace] at hdraw
    rw [drawEntry, drawField, drawWord, hb, Value.number_num, ok_bind, if_neg hnarrow]
    exact hdraw
  | @blob b n ha hb hsize =>
    have hbits : (Field.blob b).sizeBits = .ok (.int (Field.blob b).bitCount) := by
      rw [Field.bitCount_blob hb, Field.sizeBits, hb]
      rfl
    have hrefusal : (Entry.cell (.blob b)).refusal?
        = wholeRefusal? (Field.blob b).header.position.fullName (Entry.cell (.blob b)).firstBit
          (Field.blob b).bitCount := rfl
    rw [drawEntry, drawField, drawWhole, hbits, ok_bind, hrefusal]
    exact @drawCell_eq c (.blob b) ha hc
  | @union h members n ha hsize hnonneg =>
    have hrefusal : (Entry.cell (.union h members)).refusal?
        = wholeRefusal? (Field.union h members).header.position.fullName
          (Entry.cell (.union h members)).firstBit (Field.union h members).bitCount := rfl
    rw [drawEntry, drawField, drawWhole, hsize, ok_bind, ← Field.bitCount_of_sizeBits hsize,
      hrefusal]
    exact @drawCell_eq c (.union h members) ha hc

end Canvas

end RegisterLayout
