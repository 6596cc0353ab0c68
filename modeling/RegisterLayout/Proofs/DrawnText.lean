import RegisterLayout.Proofs.Acceptance
import RegisterLayout.Proofs.CellText
import RegisterLayout.Proofs.CommentText
import RegisterLayout.Proofs.Entry
import RegisterLayout.Proofs.FullName

/-!
# The text of a diagram

What the lines and the cells of a diagram are made of, whatever the sizes in the tree are: a line
has a name and a label that are texts, and the bits of its field in a text of letters, digits and
dots; a cell has rows of blanks, and its label between blanks.  Each step of a drawing adds such
lines and cells only.

Principal definitions: `LegendLine.Legible`, `Cell.LabelledFrom`, `Canvas.Legible`.
Principal results: `Canvas.Legible.drawField`, `Field.legible_of_diagram`.
-/

namespace RegisterLayout

/-! ## Plain texts -/

theorem isPlain_blanks (n : Nat) : (Text.blanks n).IsPlain := by
  intro c hc
  rw [List.eq_of_mem_replicate hc]
  decide

theorem isPlain_ofString {s : String} (h : IsNumeralText s) : (Text.ofString s).IsPlain := by
  have hchar : ∀ c, IsNumeralChar c → (CodePoint.char c).IsPlain := by
    intro c hc
    refine ⟨?_, ?_, ?_⟩ <;>
    · rintro heq
      obtain rfl := CodePoint.char.inj heq
      exact absurd hc (by decide)
  exact List.forall_mem_map.2 fun c hc => hchar c (h c hc)

theorem isPlain_ofString_append {s t : String} (hs : (Text.ofString s).IsPlain)
    (ht : (Text.ofString t).IsPlain) : (Text.ofString (s ++ t)).IsPlain := by
  rw [Text.ofString, String.toList_append, Text.ofChars_append]
  exact List.forall_mem_append.2 ⟨hs, ht⟩

theorem isPlain_ofString_toString (n : Int) : (Text.ofString (toString n)).IsPlain :=
  isPlain_ofString (Number.int n).isNumeralText_text

/-! ## Legible lines and cells -/

/-- A value that is a text if it is there and not empty. -/
def IsTextIfFilled (v : Option Value) : Prop := ∀ given, filled? v = some given → given.IsText

instance (v : Option Value) : Decidable (IsTextIfFilled v) :=
  inferInstanceAs (Decidable (∀ given ∈ filled? v, given.IsText))

/-- What a diagram shows of a node that its author may write as anything is text. -/
structure Header.InText (h : Header) : Prop where
  name : IsTextIfFilled h.name
  desc : IsTextIfFilled h.desc

theorem Header.NameAllowed.isText {h : Header} (ha : h.NameAllowed) : IsTextIfFilled h.name := by
  intro name hname
  obtain ⟨s, hs, -⟩ := ha.name name hname
  exact ⟨s, hs⟩

/-- All that is shown of a line is text. -/
structure LegendLine.Legible (l : LegendLine) : Prop where
  name : l.name.IsText
  bits : ∃ bits : Text, l.bits = .str bits ∧ bits.IsPlain
  label : ∀ label, l.label = some label → label.IsText
  desc : IsTextIfFilled l.desc
  inset : ∃ n, l.inset = .ok (Text.blanks n)

/-- A cell of blanks and a label of the legend between blanks. -/
structure Cell.LabelledFrom (legend : List LegendLine) (cell : Cell) : Prop where
  rows : cell ≠ []
  row : ∀ row ∈ cell, ∃ (before : Nat) (label : Text) (after : Nat),
    row = Text.blanks before ++ label ++ Text.blanks after ∧
      (label = [] ∨ ∃ l ∈ legend, l.label = some (.str label))

/-- A canvas with legible lines, and cells with labels of them. -/
structure Canvas.Legible (c : Canvas) : Prop where
  legend : ∀ l ∈ c.legend, l.Legible
  cells : ∀ cell ∈ c.cells, cell.LabelledFrom c.legend

theorem Cell.LabelledFrom.mono {legend legend' : List LegendLine} {cell : Cell}
    (h : cell.LabelledFrom legend) (hsub : legend ⊆ legend') : cell.LabelledFrom legend' := by
  refine ⟨h.rows, fun row hrow => ?_⟩
  obtain ⟨before, label, after, hrow, hlabel⟩ := h.row row hrow
  refine ⟨before, label, after, hrow, hlabel.imp_right ?_⟩
  rintro ⟨l, hl, heq⟩
  exact ⟨l, hsub hl, heq⟩

theorem padLabel_eq_ok {label row : Text} {bits : Number} (h : padLabel label bits = .ok row) :
    ∃ before after, row = Text.blanks before ++ label ++ Text.blanks after := by
  unfold padLabel at h
  dsimp only at h
  split at h
  · cases h
  · rw [Except.ok.injEq, addBlanks_eq, if_pos rfl] at h
    exact ⟨_, _, h.symm⟩

/-- A padded label is a cell, alone or between rows of blanks. -/
theorem labelledFrom_of_padLabel {label row : Text} {bits : Number} {legend : List LegendLine}
    (h : padLabel label bits = .ok row) {l : LegendLine} (hl : l ∈ legend)
    (hlabel : l.label = some (.str label)) {cell : Cell}
    (hcell : cell = [row] ∨ ∃ n, cell = Canvas.tallCell n row) : cell.LabelledFrom legend := by
  obtain ⟨before, after, rfl⟩ := padLabel_eq_ok h
  have hrow : ∃ (m : Nat) (text : Text) (n : Nat),
      Text.blanks before ++ label ++ Text.blanks after = Text.blanks m ++ text ++ Text.blanks n ∧
        (text = [] ∨ ∃ l ∈ legend, l.label = some (.str text)) :=
    ⟨before, label, after, rfl, .inr ⟨l, hl, hlabel⟩⟩
  have hblank : ∃ (m : Nat) (text : Text) (n : Nat),
      blankCell rowBits = Text.blanks m ++ text ++ Text.blanks n ∧
        (text = [] ∨ ∃ l ∈ legend, l.label = some (.str text)) :=
    ⟨63, [], 0, rfl, .inl rfl⟩
  rcases hcell with rfl | ⟨n, rfl⟩
  · exact ⟨by simp, List.forall_mem_singleton.2 hrow⟩
  · rw [Canvas.tallCell_eq]
    refine ⟨by simp, ?_⟩
    have hblanks : ∀ row ∈ List.replicate (n.fdiv rowBits - 1).toNat (blankCell rowBits),
        ∃ (m : Nat) (text : Text) (n : Nat), row = Text.blanks m ++ text ++ Text.blanks n ∧
          (text = [] ∨ ∃ l ∈ legend, l.label = some (.str text)) := by
      intro row hrow
      rw [List.eq_of_mem_replicate hrow]
      exact hblank
    exact List.forall_mem_append.2 ⟨List.forall_mem_append.2
      ⟨hblanks, List.forall_mem_singleton.2 hrow⟩, hblanks⟩

/-! ## Steps of a drawing -/

namespace Canvas

variable {c c' : Canvas}

theorem isPlain_of_number {v : Value} {n : Number} (hn : v.number = .ok n) : v.text.IsPlain := by
  cases v with
  | num n => exact isPlain_ofString n.isNumeralText_text
  | bool b => cases b <;> decide
  | _ => cases hn

theorem bitCount_eq_ok {v bits : Value} {n : Number} (hn : v.number = .ok n)
    (h : bitCount v = .ok bits) : ∃ text : Text, bits = .str text ∧ text.IsPlain := by
  obtain ⟨text, htext, h⟩ := bind_eq_ok_iff.1 h
  refine ⟨_, pure_eq_ok_iff.1 h, List.forall_mem_append.2 ⟨?_, by decide⟩⟩
  rw [written_eq_ok htext]
  exact isPlain_of_number hn

theorem itemBits_eq_ok {i : Item} {wordBits n : Number} {bits : Value} (hn : i.bits.number = .ok n)
    (h : itemBits wordBits i = .ok bits) : ∃ text : Text, bits = .str text ∧ text.IsPlain := by
  unfold itemBits at h
  split at h
  · split at h
    · cases h
    · rename_i bit _
      rw [Except.ok.injEq] at h
      exact ⟨_, h.symm, isPlain_ofString_append (by decide) (isPlain_ofString_toString bit)⟩
    · split at h
      · rename_i low high _ _
        rw [Except.ok.injEq] at h
        refine ⟨_, h.symm, isPlain_ofString_append ?_ (isPlain_ofString_toString low)⟩
        refine isPlain_ofString_append ?_ (by decide)
        exact isPlain_ofString_append (by decide) (isPlain_ofString_toString high)
      · cases h
  · exact bitCount_eq_ok hn h

/-- Only a text has a label, so that the name is one. -/
theorem chooseLabel_eq_ok {h : Header} {bits : Number} {label : Text} {name : Value}
    (hchosen : c.chooseLabel h bits = .ok (label, name, c')) :
    name.IsText ∧ c'.legend = c.legend ∧ c'.cells = c.cells := by
  unfold chooseLabel at hchosen
  rcases hname : c.nameField h with ⟨given, named⟩
  rw [hname] at hchosen
  dsimp only at hchosen
  obtain ⟨found, hfound, hrest⟩ := bind_eq_ok_iff.1 hchosen
  obtain ⟨rfl, rest⟩ := Prod.mk.inj (pure_eq_ok_iff.1 hrest)
  obtain ⟨rfl, rfl⟩ := Prod.mk.inj rest
  have hsame : named.legend = c.legend ∧ named.cells = c.cells := by
    unfold nameField at hname
    split at hname <;>
    · obtain ⟨-, rfl⟩ := Prod.mk.inj hname
      exact ⟨rfl, rfl⟩
  refine ⟨?_, hsame.1, hsame.2⟩
  cases name with
  | str s => exact ⟨s, rfl⟩
  | _ => cases hfound

theorem advance_eq_ok {bits : Number} (h : c.advance bits = .ok c') :
    c'.legend = c.legend ∧ c'.cells = c.cells := by
  obtain ⟨offset, -, h⟩ := bind_eq_ok_iff.1 h
  rw [pure_eq_ok_iff.1 h]
  exact ⟨rfl, rfl⟩

theorem drawOver_eq_ok {label : Text} {bits : Number} {finish : Text → Except Failure Cell}
    (h : c.drawOver label bits finish = .ok c') :
    ∃ row cell, padLabel label bits = .ok row ∧ finish row = .ok cell ∧
      c'.legend = c.legend ∧ c'.cells = c.cells ++ [cell] := by
  unfold drawOver at h
  split at h
  · cases h
  · rename_i moved hmoved
    split at h
    · rename_i cell hcell
      obtain ⟨row, hrow, hfinish⟩ := bind_eq_ok_iff.1 hcell
      rw [Except.ok.injEq] at h
      obtain ⟨hlegend, hcells⟩ := advance_eq_ok hmoved
      subst h
      exact ⟨row, cell, hrow, hfinish, hlegend, by rw [addCell, hcells]⟩
    · cases h

/-- An undivided run of bits is drawn as one cell. -/
theorem pushCell_eq_ok {label : Text} {fullName : Option Text} {bits : Number}
    (h : c.pushCell label fullName bits = .ok c') :
    ∃ row cell, padLabel label bits = .ok row ∧ (cell = [row] ∨ ∃ n, cell = tallCell n row) ∧
      c'.legend = c.legend ∧ c'.cells = c.cells ++ [cell] := by
  unfold pushCell at h
  dsimp only at h
  split at h
  · split at h
    · obtain ⟨row, cell, hrow, hfinish, hdrawn⟩ := drawOver_eq_ok h
      exact ⟨row, cell, hrow, .inl (Except.ok.inj hfinish).symm, hdrawn⟩
    all_goals cases h
  split at h
  · cases h
  split at h
  · cases h
  split at h
  · obtain ⟨row, cell, hrow, hfinish, hdrawn⟩ := drawOver_eq_ok h
    exact ⟨row, cell, hrow, .inr ⟨_, (Except.ok.inj hfinish).symm⟩, hdrawn⟩
  · split at h <;> cases h

/-! ## What a drawing keeps -/

/-- A canvas with one more line and cells that have no label but those of its lines. -/
theorem Legible.add (h : c.Legible) {line : LegendLine} (hline : line.Legible) (cells : List Cell)
    (hlegend : c'.legend = c.legend ++ [line]) (hcells : c'.cells = c.cells ++ cells)
    (hnew : ∀ cell ∈ cells, cell.LabelledFrom (c.legend ++ [line])) : c'.Legible := by
  constructor
  · rw [hlegend]
    exact List.forall_mem_append.2 ⟨h.legend, List.forall_mem_singleton.2 hline⟩
  · rw [hlegend, hcells]
    exact List.forall_mem_append.2
      ⟨fun cell hcell => (h.cells cell hcell).mono (List.subset_append_left _ _), hnew⟩

theorem isText_label (label : Text) :
    ∀ v, some (Value.str label) = some v → v.IsText := fun _ hv =>
  ⟨label, (Option.some.inj hv).symm⟩

theorem Legible.drawItem (h : c.Legible) {i : Item} {wordBits : Number}
    (hdesc : IsTextIfFilled i.header.desc) (hdrawn : c.drawItem wordBits i = .ok c') :
    c'.Legible := by
  unfold Canvas.drawItem at hdrawn
  simp only [bind_eq_ok_iff, Prod.exists, pure_eq_ok_iff] at hdrawn
  obtain ⟨n, hn, label, name, named, hchosen, moved, hmoved, row, hrow, bits, hbits, rfl⟩ := hdrawn
  obtain ⟨hname, hlegend, hcells⟩ := chooseLabel_eq_ok hchosen
  obtain ⟨hlegend', hcells'⟩ := advance_eq_ok hmoved
  let line : LegendLine := {
    name, bits
    label := some (.str label)
    enumeration := i.enumeration
    desc := i.header.desc
    indent := 1 }
  have hline : line.Legible :=
    ⟨hname, itemBits_eq_ok hn hbits, isText_label label, hdesc, 2, rfl⟩
  refine h.add hline [[row]] ?_ ?_ (List.forall_mem_singleton.2 ?_)
  · show moved.legend ++ [line] = _
    rw [hlegend', hlegend]
  · show moved.cells ++ [[row]] = _
    rw [hcells', hcells]
  · exact labelledFrom_of_padLabel hrow (List.mem_append_right _ List.mem_cons_self) rfl (.inl rfl)

theorem Legible.drawCell (h : c.Legible) {header : Header} {size : Value}
    {enumeration : Option Enumeration} {typedef : Option Value}
    (hdesc : IsTextIfFilled header.desc)
    (hdrawn : c.drawCell header size enumeration typedef = .ok c') : c'.Legible := by
  unfold Canvas.drawCell at hdrawn
  simp only [bind_eq_ok_iff, Prod.exists] at hdrawn
  obtain ⟨n, hn, label, name, named, hchosen, bits, hbits, hpush⟩ := hdrawn
  obtain ⟨hname, hlegend, hcells⟩ := chooseLabel_eq_ok hchosen
  let line : LegendLine := {
    name, bits, enumeration, typedef
    label := some (.str label)
    desc := header.desc }
  have hline : line.Legible :=
    ⟨hname, bitCount_eq_ok hn hbits, isText_label label, hdesc, 0, rfl⟩
  split at hpush
  · rename_i pushed hpushed
    obtain rfl := pure_eq_ok_iff.1 hpush
    obtain ⟨row, cell, hrow, hcell, hlegend', hcells'⟩ := pushCell_eq_ok hpushed
    refine h.add hline [cell] ?_ ?_ (List.forall_mem_singleton.2 ?_)
    · rw [hlegend', addLegend, hlegend]
    · rw [hcells', addLegend, hcells]
    · exact labelledFrom_of_padLabel hrow (List.mem_append_right _ List.mem_cons_self) rfl hcell
  · exact absurd hpush throw_ne_ok

/-- A bit field has a name that is a text or gets one. -/
theorem nameBitField_spec {h : Header} (hname : IsTextIfFilled h.name) :
    (c.nameBitField h).1.IsText ∧ (c.nameBitField h).2.legend = c.legend ∧
      (c.nameBitField h).2.cells = c.cells := by
  unfold nameBitField
  cases hgiven : h.givenName? with
  | none => exact ⟨⟨_, rfl⟩, rfl, rfl⟩
  | some name => exact ⟨hname name hgiven, rfl, rfl⟩

theorem Legible.drawHeading (h : c.Legible) {b : BitField} (htext : b.header.InText)
    (hdrawn : c.drawHeading b = .ok c') : c'.Legible := by
  unfold Canvas.drawHeading at hdrawn
  simp only [bind_eq_ok_iff, refuse_eq_ok_iff] at hdrawn
  obtain ⟨n, hn, -, stays, -, hrest⟩ := hdrawn
  split at hrest
  · obtain ⟨stop, -, hthrow⟩ := bind_eq_ok_iff.1 hrest
    exact absurd hthrow throw_ne_ok
  · obtain ⟨bits, hbits, hadded⟩ := bind_eq_ok_iff.1 hrest
    obtain ⟨hname, hlegend, hcells⟩ := nameBitField_spec (c := c) htext.name
    let line : LegendLine := { name := (c.nameBitField b.header).1, bits, desc := b.header.desc }
    have hline : line.Legible :=
      ⟨hname, bitCount_eq_ok hn hbits, by simp [line], htext.desc, 0, rfl⟩
    rw [pure_eq_ok_iff.1 hadded]
    refine h.add hline [] ?_ ?_ (List.forall_mem_nil _)
    · rw [addLegend, hlegend]
    · rw [addLegend, hcells, List.append_nil]

theorem Legible.drawItems (h : c.Legible) {b : BitField} {items : List Item}
    (hdescs : ∀ i ∈ items, IsTextIfFilled i.header.desc)
    (hdrawn : (items.map (Entry.item b)).foldlM drawEntry c = .ok c') : c'.Legible := by
  induction items generalizing c with
  | nil => exact pure_eq_ok_iff.1 hdrawn ▸ h
  | cons i items ih =>
    rw [List.map_cons, List.foldlM_cons, bind_eq_ok_iff] at hdrawn
    obtain ⟨next, hitem, hrest⟩ := hdrawn
    obtain ⟨bits, -, hitem⟩ := bind_eq_ok_iff.1 hitem
    obtain ⟨hdesc, hdescs⟩ := List.forall_mem_cons.1 hdescs
    exact ih (h.drawItem hdesc hitem) hdescs hrest

/-- **Drawing a field keeps a canvas legible** if what is drawn is in text, whatever the sizes. -/
theorem Legible.drawField {f : Field} (htext : ∀ e ∈ f.entries, e.header.InText) (h : c.Legible)
    (hdrawn : c.drawField f = .ok c') : c'.Legible := by
  induction f using Field.inductionOn generalizing c c' with
  | word w =>
    rw [Canvas.drawField, drawWord] at hdrawn
    simp only [bind_eq_ok_iff, refuse_eq_ok_iff] at hdrawn
    obtain ⟨n, -, -, hcell⟩ := hdrawn
    exact h.drawCell (htext (.cell (.word w)) List.mem_cons_self).desc hcell
  | bitfield b =>
    rw [Canvas.drawField, drawBitField_eq, bind_eq_ok_iff] at hdrawn
    obtain ⟨headed, hheading, hitems⟩ := hdrawn
    rw [Field.entries, List.forall_mem_cons, List.forall_mem_map] at htext
    exact (h.drawHeading htext.1 hheading).drawItems (fun i hi => (htext.2 i hi).desc) hitems
  | struct header fields ih =>
    rw [Canvas.drawField] at hdrawn
    rw [Field.entries] at htext
    induction fields generalizing c with
    | nil => exact Except.ok.inj hdrawn ▸ h
    | cons f fs ihs =>
      rw [drawFields, bind_eq_ok_iff] at hdrawn
      obtain ⟨next, hfirst, hrest⟩ := hdrawn
      obtain ⟨hf, hfs⟩ := List.forall_mem_cons.1 ih
      obtain ⟨htext, htexts⟩ := List.forall_mem_append.1 htext
      exact ihs hfs htexts (hf htext h hfirst) hrest
  | blob b =>
    rw [Canvas.drawField, drawWhole, bind_eq_ok_iff] at hdrawn
    obtain ⟨size, -, hcell⟩ := hdrawn
    exact h.drawCell (htext (.cell (.blob b)) List.mem_cons_self).desc hcell
  | union header members ih =>
    rw [Canvas.drawField, drawWhole, bind_eq_ok_iff] at hdrawn
    obtain ⟨size, -, hcell⟩ := hdrawn
    exact h.drawCell (htext (.cell (.union header members)) List.mem_cons_self).desc hcell
  | stray i => cases hdrawn

end Canvas

/-! ## Diagrams -/

/-- A diagram with a title and lines of text, and cells with labels of them. -/
structure Diagram.Legible (d : Diagram) : Prop where
  title : d.title.IsText
  legend : ∀ l ∈ d.legend, l.Legible
  cells : ∀ cell ∈ d.cells, cell.LabelledFrom d.legend

namespace Field

variable {raw root : Field}

/-- In an accepted tree every entry has a name that its author may give. -/
theorem PlacedUnder.nameAllowed_of_mem_entries {f : Field} {path : Path} {index : Nat}
    (h : f.PlacedUnder path index) : ∀ e ∈ f.entries, e.header.NameAllowed := by
  induction h with
  | @node path index f header items union children ih =>
    cases f with
    | bitfield b =>
      refine List.forall_mem_cons.2 ⟨header.allowed, List.forall_mem_map.2 fun i hi => ?_⟩
      obtain ⟨k, hk⟩ := List.mem_iff_getElem?.1 hi
      exact (items b rfl k i hk).header.allowed
    | struct own fields =>
      intro e he
      obtain ⟨f, hf, he⟩ := mem_entriesOf.1 he
      obtain ⟨k, hk⟩ := List.mem_iff_getElem?.1 hf
      exact ih k f hk e he
    | _ => exact List.forall_mem_singleton.2 header.allowed

/-- **The diagram of an accepted tree is legible** if the descriptions are texts. -/
theorem legible_of_diagram (h : raw.resolve = .ok root) {d : Diagram}
    (hdesc : ∀ e ∈ root.entries, IsTextIfFilled e.header.desc) (hd : root.diagram = .ok d) :
    d.Legible := by
  have hplaced := (resolve_eq_ok h).1
  have hallowed := hplaced.nameAllowed_of_mem_entries
  obtain ⟨hroot, -, -, -⟩ := hplaced
  have htext : ∀ e ∈ root.entries, e.header.InText := fun e he =>
    ⟨(hallowed e he).isText, hdesc e he⟩
  unfold diagram at hd
  simp only [refuse_eq_ok_iff, bind_eq_ok_iff, pure_eq_ok_iff] at hd
  obtain ⟨-, c, hdrawn, title, htitle, rfl⟩ := hd
  have hempty : Canvas.Legible {} := ⟨List.forall_mem_nil _, List.forall_mem_nil _⟩
  have hc := hempty.drawField htext hdrawn
  refine ⟨?_, hc.legend, hc.cells⟩
  have hgiven : (root.header.givenName?.getD (.str root.fullName)).IsText := by
    cases hname : root.header.givenName? with
    | none => exact ⟨_, rfl⟩
    | some name => exact hroot.allowed.isText name hname
  unfold Field.title at htitle
  obtain ⟨name, hname⟩ := hgiven
  rw [hname] at htitle
  cases hdesc : filled? root.header.desc with
  | none =>
    simp only [hdesc, Except.ok.injEq] at htitle
    exact ⟨name, htitle.symm⟩
  | some desc =>
    simp only [hdesc] at htitle
    cases desc with
    | str desc => exact ⟨_, (Except.ok.inj htitle).symm⟩
    | _ => cases htitle

end Field

end RegisterLayout
