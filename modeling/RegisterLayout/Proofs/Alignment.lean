import RegisterLayout.Proofs.DiagramRows

/-!
# Rows under the rulers

The gutter has room for the offsets of 250 rows.  Up to there every row of a drawing, every
separator and every border has its left edge in the column behind the gutter, and the characters of
a row stand below the digits of the ruler for their bits.  An offset of four digits needs a blank
more than there is, so that from byte 1000 on the rows stand to the right of their borders.

Principal definitions: `leftEdge?`, `Aligned`, `UnderRulers`.
Principal results: `aligned_linesOf_iff`, `Field.drawing_aligned_iff`.
-/

namespace RegisterLayout

/-- A character at the left edge of a row, a separator or a border. -/
def CodePoint.isEdge (c : CodePoint) : Bool := c = .char '|' || c = .char '+'

/-- The column of the left edge of a line; the rulers and an offset alone have none. -/
def leftEdge? (line : Text) : Option Nat := line.findIdx? CodePoint.isEdge

/-- All lines between the rulers and the offset behind the last row have their left edge in the
column behind the gutter. -/
def Aligned (lines : List Text) : Prop :=
  ∀ line ∈ (lines.drop rulers.length).dropLast, leftEdge? line = some gutter.length

instance (lines : List Text) : Decidable (Aligned lines) :=
  inferInstanceAs (Decidable (∀ line ∈ _, _ = _))

/-- The lower ruler has the last digit of every bit above its character, and the characters of
every row are below the ruler. -/
structure UnderRulers (rows : List DrawnRow) (lines : List Text) : Prop where
  ruler : ∃ digits : Text, lines[1]? = some digits ∧ ∀ bit < 32,
    digits[gutter.length + 1 + 2 * bit]? = some (.char ((31 - bit) % 10).digitChar)
  rows : ∀ k r, rows[k]? = some r → ∃ line, lines[drawingHead.length + 2 * k]? = some line ∧
    line.drop gutter.length = r.text

/-! ## The width of an offset -/

/-- The blank behind an offset is part of its label. -/
theorem length_offsetLabel (n : Nat) :
    (offsetLabel n).length = max gutter.length ((Nat.toDigits 10 n).length + 1) := by
  have htext : (Text.ofString (toString n ++ " ")).length = (Nat.toDigits 10 n).length + 1 := by
    rw [Text.ofString, Text.ofChars, List.length_map, String.toList_append, List.length_append,
      Nat.toString_eq_repr, Nat.toList_repr]
    rfl
  rw [offsetLabel, List.length_append, Text.blanks, List.length_replicate, htext]
  omega

/-- **The labels of the gutter's width are those of three digits.** -/
theorem length_offsetLabel_eq_iff {n : Nat} :
    (offsetLabel n).length = gutter.length ↔ n < 1000 := by
  have hdigits : (Nat.toDigits 10 n).length ≤ 3 ↔ n < 1000 :=
    Nat.length_toDigits_le_iff (by decide) (by decide)
  have hgutter : gutter.length = 4 := rfl
  rw [length_offsetLabel, ← hdigits]
  omega

theorem isEdge_of_mem_offsetLabel {n : Nat} {c : CodePoint} (hc : c ∈ offsetLabel n) :
    c.isEdge = false := by
  rw [offsetLabel, List.mem_append] at hc
  rcases hc with hblank | htext
  · rw [List.eq_of_mem_replicate hblank]
    rfl
  · rw [Text.ofString, Text.ofChars, List.mem_map] at htext
    obtain ⟨d, hd, rfl⟩ := htext
    rw [String.toList_append, List.mem_append, Nat.toString_eq_repr, Nat.toList_repr] at hd
    rcases hd with hdigit | hlast
    · have hdigit := Nat.isDigit_of_mem_toDigits (by decide) (by decide) hdigit
      have hbar : d ≠ '|' := by
        rintro rfl
        exact absurd hdigit (by decide)
      have hcorner : d ≠ '+' := by
        rintro rfl
        exact absurd hdigit (by decide)
      simp [CodePoint.isEdge, hbar, hcorner]
    · rw [List.mem_singleton.1 hlast]
      rfl

/-! ## Left edges -/

/-- A row with its bar and the line below it with its corner. -/
structure DrawnRow.Edged (r : DrawnRow) : Prop where
  text : r.text.head? = some (.char '|')
  below : r.below.head? = some (.char '+')

/-- The left edge of a line is behind what has none. -/
theorem leftEdge?_append {before line : Text} (hbefore : ∀ c ∈ before, c.isEdge = false)
    (hline : line.head?.any CodePoint.isEdge = true) :
    leftEdge? (before ++ line) = some before.length := by
  have hnone : before.findIdx? CodePoint.isEdge = none := List.findIdx?_eq_none_iff.2 hbefore
  have hfirst : line.findIdx? CodePoint.isEdge = some 0 := by
    cases line with
    | nil => cases hline
    | cons c rest =>
      have hedge : c.isEdge = true := hline
      rw [List.findIdx?_cons, if_pos hedge]
  rw [leftEdge?, List.findIdx?_append, hnone, hfirst, Option.none_or, Option.map_some, Nat.zero_add]

theorem leftEdge?_gutter {line : Text} (h : line.head? = some (.char '+')) :
    leftEdge? (gutter ++ line) = some gutter.length :=
  leftEdge?_append (by decide) (by rw [h]; rfl)

theorem leftEdge?_row {line : Text} (h : line.head? = some (.char '|')) (n : Nat) :
    leftEdge? (offsetLabel n ++ line) = some (offsetLabel n).length :=
  leftEdge?_append (fun _ => isEdge_of_mem_offsetLabel) (by rw [h]; rfl)

/-- Rows from the one of some index on have their left edges behind the gutter if the offset of the
last one fits there. -/
theorem forall_mem_rowLines_iff {rows : List DrawnRow} (hrows : ∀ r ∈ rows, r.Edged) (k : Nat) :
    (∀ line ∈ rowLines k rows, leftEdge? line = some gutter.length) ↔
      rows.length = 0 ∨ k + rows.length ≤ 250 := by
  induction rows generalizing k with
  | nil => simp [rowLines]
  | cons r rows ih =>
    obtain ⟨hr, hrows⟩ := List.forall_mem_cons.1 hrows
    rw [rowLines, List.forall_mem_cons, List.forall_mem_cons, ih hrows (k + 1),
      leftEdge?_row hr.text, leftEdge?_gutter hr.below, List.length_cons]
    simp only [Option.some.injEq, length_offsetLabel_eq_iff, true_and]
    omega

/-- The lines of a drawing of rows. -/
def linesOf (rows : List DrawnRow) : List Text :=
  drawingHead ++ rowLines 0 rows ++ [offsetLabel (4 * rows.length)]

/-- **A drawing is aligned exactly if it has no more than 250 rows.** -/
theorem aligned_linesOf_iff {rows : List DrawnRow} (hrows : ∀ r ∈ rows, r.Edged) :
    Aligned (linesOf rows) ↔ rows.length ≤ 250 := by
  have hlines : ((linesOf rows).drop rulers.length).dropLast =
      (gutter ++ border) :: rowLines 0 rows := by
    have hhead : (rulers.map (gutter ++ ·)).length = rulers.length := List.length_map _
    rw [linesOf, drawingHead, List.append_assoc, List.append_assoc, List.drop_left' hhead,
      ← List.append_assoc]
    exact List.dropLast_concat
  have hborder : leftEdge? (gutter ++ border) = some gutter.length := leftEdge?_gutter rfl
  rw [Aligned, hlines, List.forall_mem_cons, forall_mem_rowLines_iff hrows]
  rw [Nat.zero_add]
  refine ⟨fun h => ?_, fun h => ⟨hborder, .inr h⟩⟩
  obtain ⟨-, hnone | hfew⟩ := h
  · omega
  · exact hfew

/-! ## Rows below the rulers -/

theorem getElem?_rowLines {rows : List DrawnRow} {k : Nat} {r : DrawnRow} (j : Nat)
    (h : rows[k]? = some r) :
    (rowLines j rows)[2 * k]? = some (offsetLabel (4 * (j + k)) ++ r.text) := by
  induction rows generalizing j k with
  | nil => cases h
  | cons r' rows ih =>
    cases k with
    | zero =>
      rw [List.getElem?_cons_zero, Option.some.injEq] at h
      rw [h]
      rfl
    | succ k =>
      have hindex : j + (k + 1) = j + 1 + k := by omega
      rw [List.getElem?_cons_succ] at h
      rw [hindex]
      exact ih (j + 1) h

/-- The bits of an aligned drawing stand below their digits. -/
theorem underRulers_linesOf {rows : List DrawnRow} (hrows : rows.length ≤ 250) :
    UnderRulers rows (linesOf rows) := by
  constructor
  case ruler => exact ⟨_, rfl, by decide⟩
  case rows =>
    intro k r hr
    obtain ⟨hk, -⟩ := List.getElem?_eq_some_iff.1 hr
    have hline := getElem?_rowLines 0 hr
    rw [Nat.zero_add] at hline
    obtain ⟨hin, -⟩ := List.getElem?_eq_some_iff.1 hline
    refine ⟨offsetLabel (4 * k) ++ r.text, ?_, ?_⟩
    · rw [linesOf, List.append_assoc, List.getElem?_append_right (Nat.le_add_right _ _),
        Nat.add_sub_cancel_left, List.getElem?_append_left hin, hline]
    · exact List.drop_left' (length_offsetLabel_eq_iff.2 (by omega))

/-! ## Drawings of diagrams -/

namespace Field

variable {ds : List Drawn} {raw root : Field} {d : Diagram}

/-- A row of a drawing has its bar, and below it there is a border or a separator of a cell. -/
theorem DrawnWith.edged (h : root.DrawnWith ds) {p : Page} {bits : Nat}
    (hp : p.Shows (ds.filterMap Drawn.tile?) bits) : ∀ r ∈ p.all, r.Edged := by
  rw [Page.all, List.forall_mem_append, List.forall_mem_singleton]
  refine ⟨fun r hr => ⟨(hp.full r hr).2, ?_⟩, hp.starts, rfl⟩
  obtain ⟨k, hk⟩ := List.mem_iff_getElem?.1 hr
  by_cases hspans : ∀ t ∈ ds.filterMap Drawn.tile?, ¬t.Spans k
  · rw [hp.borders k r hk hspans]
    rfl
  · push Not at hspans
    obtain ⟨t, ht, hspan⟩ := hspans
    obtain ⟨x, hx, htile⟩ := List.mem_filterMap.1 ht
    obtain ⟨cell, hcell, -⟩ := Option.map_eq_some_iff.1 htile
    obtain ⟨r', text, hr', -, hbelow⟩ :=
      (h.cellDrawn hp hx hcell).separators k (h.spans_of_tile hx htile hspan)
    have hsame : r' = r := by
      rw [Page.getElem?_all_of_begins List.prefix_rfl hk, Option.some.injEq] at hr'
      exact hr'.symm
    rw [← hsame, hbelow]
    rfl

/-- The lines of a drawing, with the count of its rows. -/
theorem exists_linesOf_of_diagram (hraw : raw.SizesWhole) (h : raw.resolve = .ok root)
    (hd : root.diagram = .ok d) :
    ∃ rows : List DrawnRow, drawingLines d.cells = .ok (linesOf rows) ∧ (∀ r ∈ rows, r.Edged) ∧
      List.Forall₂ (CellDrawn rows) (root.entries.filter Entry.hasCell) d.cells ∧
      rows.length = (root.bitCount.toNat - 1) / 32 + 1 := by
  obtain ⟨ds, hds, hcells, -, -⟩ := exists_of_diagram_eq_ok hraw h hd
  have htiling := tiling_tiles (hds.entries ▸ hds.consecutive)
    (fun x hx => (hds.inOrder.of_mem hx).1) fun x hx t ht => hds.tile_fits hx ht
  obtain ⟨p, hp, hdrawn⟩ := htiling.exists_page
  refine ⟨p.all, ?_, hds.edged hp, ?_, ?_⟩
  · rw [drawingLines, hcells, ← map_cell_tiles, hdrawn, ok_bind]
    exact congrArg Except.ok p.close_drawing
  · rw [← hds.entries, hcells, List.filter_map, List.forall₂_map_left_iff]
    refine forall₂_filter_filterMap ?_ ?_
    · intro x hx
      rw [Drawn.cell?, Option.isSome_map]
      exact (hds.inOrder.of_mem hx).1
    · intro x hx cell hcell
      exact hds.cellDrawn hp hx hcell
  · rw [Page.length_all, hp.count]

/-- **A drawing is aligned exactly up to 8000 bits**, and its bits then stand below their digits:
the cells are at the characters of their bits in rows that are below the rulers. -/
theorem drawing_aligned_iff (hraw : raw.SizesWhole) (h : raw.resolve = .ok root)
    (hd : root.diagram = .ok d) :
    ∃ rows lines, drawingLines d.cells = .ok lines ∧
      List.Forall₂ (CellDrawn rows) (root.entries.filter Entry.hasCell) d.cells ∧
      (Aligned lines ↔ root.bitCount ≤ 8000) ∧
      (root.bitCount ≤ 8000 → UnderRulers rows lines) := by
  obtain ⟨rows, hlines, hedged, hcells, hcount⟩ := exists_linesOf_of_diagram hraw h hd
  have hfew : rows.length ≤ 250 ↔ root.bitCount ≤ 8000 := by omega
  refine ⟨rows, linesOf rows, hlines, hcells, ?_, fun hbits => ?_⟩
  · rw [aligned_linesOf_iff hedged, hfew]
  · exact underRulers_linesOf (hfew.2 hbits)

theorem drawing_aligned_iff_statusBlock :
    statusBlock.SizesWhole ∧ ∃ root d, statusBlock.resolve = .ok root ∧ root.diagram = .ok d ∧
      ∃ rows lines, drawingLines d.cells = .ok lines ∧
        List.Forall₂ (CellDrawn rows) (root.entries.filter Entry.hasCell) d.cells ∧
        (Aligned lines ↔ root.bitCount ≤ 8000) ∧
        (root.bitCount ≤ 8000 → UnderRulers rows lines) := by
  obtain ⟨hwhole, root, d, hresolve, hd, -⟩ := exists_diagram_statusBlock
  exact ⟨hwhole, root, d, hresolve, hd, drawing_aligned_iff hwhole hresolve hd⟩

/-- Bytes that take a row more than the gutter has room for. -/
def longBlob : Field := blob { header := { name := some (.str "a") }, bytes := 1004 }

/-- The last of 251 rows stands beside its border. -/
theorem drawing_longBlob_not_aligned :
    longBlob.SizesWhole ∧ ∃ root d lines, longBlob.resolve = .ok root ∧ root.diagram = .ok d ∧
      drawingLines d.cells = .ok lines ∧ ¬Aligned lines := by
  have hwhole : longBlob.SizesWhole := by decide
  have hresolve : longBlob.resolve = .ok (longBlob.located [] 0 0) := rfl
  have hdrawn : (longBlob.located [] 0 0).diagram.isOk = true := by decide +kernel
  have hbits : (longBlob.located [] 0 0).bitCount = 8032 := rfl
  obtain ⟨d, hd⟩ := exists_of_isOk hdrawn
  obtain ⟨rows, hlines, hedged, -, hcount⟩ := exists_linesOf_of_diagram hwhole hresolve hd
  refine ⟨hwhole, _, d, linesOf rows, hresolve, hd, hlines, ?_⟩
  rw [aligned_linesOf_iff hedged]
  omega

end Field

end RegisterLayout
