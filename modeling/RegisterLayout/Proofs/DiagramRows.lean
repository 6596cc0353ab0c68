import RegisterLayout.Proofs.DrawnEntries
import RegisterLayout.Proofs.PageRows

/-!
# The rows of a diagram

The drawing of a diagram has a row for every 32 bits, behind the offset of its first byte and
above a border, and in its row every cell stands at the characters of its bits.  Only within a cell
of several rows there are separators in place of borders.

Principal definitions: `CellDrawn`, `RowsDraw`.
Principal result: `Field.drawingLines_of_diagram`.
-/

namespace RegisterLayout

open Entry (Consecutive)

/-- A row and the one below it belong to the cell of an entry. -/
def Entry.Spans (e : Entry) (k : Nat) : Prop :=
  e.hasCell = true ∧ e.firstBit < 32 * (k + 1) ∧ 32 * (k + 1) < e.firstBit + e.width

/-- The cell of an entry is drawn on rows, at the bits of the entry. -/
structure CellDrawn (rows : List DrawnRow) (e : Entry) (cell : Cell) : Prop where
  shown : ShownFrom rows e.firstBit.toNat cell
  /-- Less than a row is text between bars, two characters for a bit. -/
  narrow : e.width < 32 → ∃ r text, cell = [text] ∧ (text.length : Int) = 2 * e.width - 1 ∧
    rows[e.firstBit.toNat / 32]? = some r ∧
      barred text <+: r.text.drop (2 * (e.firstBit.toNat % 32))
  separators : ∀ k, e.Spans k → ∃ r text, rows[k]? = some r ∧ text ∈ cell ∧
    r.below = crossed text

/-- Rows draw the cells of some entries, up to a bit. -/
structure RowsDraw (rows : List DrawnRow) (es : List Entry) (cells : List Cell) (bits : Nat) :
    Prop where
  count : rows.length = (bits + 31) / 32
  bars : ∀ r ∈ rows, r.text.head? = some (.char '|')
  full : ∀ k r, rows[k]? = some r → k + 1 < rows.length → r.text.length = 65
  borders : ∀ k r, rows[k]? = some r → (∀ e ∈ es, ¬e.Spans k) → r.below = border
  closed : ∀ r, rows.getLast? = some r → r.below = border
  cells : List.Forall₂ (CellDrawn rows) (es.filter Entry.hasCell) cells

/-! ## Cells of whole rows -/

/-- There is a separator of the cell below each of its rows but the last. -/
theorem ShownFrom.separator {rows : List DrawnRow} {bit n k : Nat} {cell : Cell}
    (h : ShownFrom rows bit cell) (hlength : cell.length = 2 * n - 1) (hk : k + 1 < n) :
    ∃ r text, rows[bit / 32 + k]? = some r ∧ text ∈ cell ∧ r.below = crossed text := by
  induction h generalizing n k with
  | last =>
    rw [List.length_singleton] at hlength
    omega
  | @cons bit text separator cell r row shown below rest ih =>
    cases k with
    | zero => exact ⟨r, separator, row, by simp, below⟩
    | succ k =>
      have hindex : (bit + 32) / 32 + k = bit / 32 + (k + 1) := by omega
      rw [List.length_cons, List.length_cons] at hlength
      obtain ⟨r', text', hr', hmem, hbelow⟩ := @ih (n - 1) k (by omega) (by omega)
      exact ⟨r', text', hindex ▸ hr', by simp [hmem], hbelow⟩

/-! ## The tiles of a drawing -/

/-- The cell of a drawn entry with its bits. -/
def Drawn.tile? (x : Drawn) : Option Tile :=
  x.cell?.map fun cell => ⟨x.entry.firstBit.toNat, x.entry.width.toNat, cell⟩

theorem map_cell_tiles (ds : List Drawn) :
    (ds.filterMap Drawn.tile?).map Tile.cell = ds.filterMap Drawn.cell? := by
  rw [List.map_filterMap]
  congr 1
  funext x
  rw [Drawn.tile?, Option.map_map]
  exact Option.map_id'

/-- A place on rows, counted in natural numbers. -/
theorem tile_fits {first width : Int} {cell : Cell} {label : Text} (hpos : 1 ≤ width)
    (hplace : HasPlace first width) (hshows : cell.Shows label width) :
    (Tile.mk first.toNat width.toNat cell).Fits := by
  constructor
  case pos =>
    show 1 ≤ width.toNat
    omega
  case narrow =>
    intro (hnarrow : width.toNat < 32)
    have hstays := hplace.narrow (by omega)
    rw [crossesRow_iff] at hstays
    refine ⟨?_, hshows.narrow (by omega)⟩
    show first.toNat % 32 + width.toNat ≤ 32
    omega
  case tall =>
    intro (htall : 32 ≤ width.toNat)
    obtain ⟨hrows, hoff⟩ := hplace.tall (by omega)
    refine ⟨?_, ?_, hshows.tall (width.toNat / 32) (by omega)⟩
    · show 32 ∣ first.toNat
      omega
    · show 32 ∣ width.toNat
      omega
  case letters =>
    intro row hrow
    have hlength := hshows.letters row hrow
    show row.length = 2 * min width.toNat 32 - 1
    omega

/-- **Drawn entries make up a tiling.** -/
theorem tiling_tiles {ds : List Drawn} {stop : Int}
    (hes : Consecutive 0 (ds.map Drawn.entry) stop)
    (hcell : ∀ x ∈ ds, x.label.isSome = x.entry.hasCell)
    (hfits : ∀ x ∈ ds, ∀ t, x.tile? = some t → t.Fits) :
    Tiling (ds.filterMap Drawn.tile?) stop.toNat := by
  induction ds using List.reverseRecOn generalizing stop with
  | nil =>
    rw [Consecutive.nil_iff.1 hes]
    exact .nil
  | append_singleton ds x ih =>
    rw [List.map_append, List.map_singleton] at hes
    obtain ⟨hbefore, hsound, rfl⟩ := Consecutive.concat_iff.1 hes
    rw [List.forall_mem_append, List.forall_mem_singleton] at hcell hfits
    have htiles := ih hbefore hcell.1 hfits.1
    have hfirst : 0 ≤ x.entry.firstBit := hbefore.bounds.1
    have hwidth := hsound.width_nonneg
    rw [List.filterMap_append]
    cases hx : x.cell? with
    | none =>
      -- A bit field leaves its bits to its items.
      have htile : x.tile? = none := by rw [Drawn.tile?, hx, Option.map_none]
      have hlabel : x.label = none := Option.map_eq_none_iff.1 hx
      have hwidth : x.entry.width = 0 := by
        rw [hlabel, Option.isSome_none] at hcell
        exact Entry.width_of_no_cell hcell.2.symm
      rw [List.filterMap_cons_none htile, List.filterMap_nil, List.append_nil, hwidth, Int.add_zero]
      exact htiles
    | some cell =>
      have htile : x.tile? = some ⟨x.entry.firstBit.toNat, x.entry.width.toNat, cell⟩ := by
        rw [Drawn.tile?, hx, Option.map_some]
      rw [List.filterMap_cons_some htile, List.filterMap_nil, Int.toNat_add hfirst hwidth]
      exact .concat htiles (hfits.2 _ htile)

/-! ## Drawings of diagrams -/

namespace Field.DrawnWith

variable {ds : List Drawn} {root : Field} {x : Drawn} {t : Tile}

theorem tile_fits (h : root.DrawnWith ds) (hx : x ∈ ds) (ht : x.tile? = some t) : t.Fits := by
  obtain ⟨cell, hcell, rfl⟩ := Option.map_eq_some_iff.1 ht
  obtain ⟨label, -, hpos, hplace, hshows⟩ := h.cell_of_mem hx hcell
  exact RegisterLayout.tile_fits hpos hplace hshows

theorem spans_of_tile (h : root.DrawnWith ds) (hx : x ∈ ds) (ht : x.tile? = some t) {k : Nat}
    (hspan : t.Spans k) : x.entry.Spans k := by
  obtain ⟨cell, hcell, rfl⟩ := Option.map_eq_some_iff.1 ht
  obtain ⟨label, hlabel, hpos, -, -⟩ := h.cell_of_mem hx hcell
  have hfirst := h.firstBit_nonneg hx
  have hhas : x.entry.hasCell = true := by
    rw [← (h.inOrder.of_mem hx).1, hlabel, Option.isSome_some]
  obtain ⟨hbelow, habove⟩ := hspan
  refine ⟨hhas, ?_, ?_⟩
  · have : x.entry.firstBit.toNat < 32 * (k + 1) := hbelow
    omega
  · have : 32 * (k + 1) < x.entry.firstBit.toNat + x.entry.width.toNat := habove
    omega

/-- A cell is drawn on the page that shows its tile. -/
theorem cellDrawn (h : root.DrawnWith ds) {p : Page} {bits : Nat}
    (hp : p.Shows (ds.filterMap Drawn.tile?) bits) (hx : x ∈ ds) {cell : Cell}
    (hcell : x.cell? = some cell) : CellDrawn p.all x.entry cell := by
  obtain ⟨label, -, hpos, hplace, hshows⟩ := h.cell_of_mem hx hcell
  have htile : x.tile? = some ⟨x.entry.firstBit.toNat, x.entry.width.toNat, cell⟩ := by
    rw [Drawn.tile?, hcell, Option.map_some]
  have hshown : ShownFrom p.all x.entry.firstBit.toNat cell :=
    hp.cells _ (List.mem_filterMap.2 ⟨x, hx, htile⟩)
  have hfirst := h.firstBit_nonneg hx
  constructor
  case shown => exact hshown
  case narrow =>
    intro hnarrow
    obtain ⟨text, rfl⟩ := List.length_eq_one_iff.1 (hshows.narrow hnarrow)
    obtain ⟨r, hr, htext⟩ := hshown.first
    have hlength := hshows.letters text List.mem_cons_self
    exact ⟨r, text, rfl, by omega, hr, htext⟩
  case separators =>
    rintro k ⟨-, hbelow, habove⟩
    have htall : 32 ≤ x.entry.width := by
      by_contra hnarrow
      have hstays := hplace.narrow (by omega)
      rw [crossesRow_iff] at hstays
      omega
    obtain ⟨hrows, hoff⟩ := hplace.tall htall
    have hlength := hshows.tall (x.entry.width.toNat / 32) (by omega)
    obtain ⟨r, text, hr, hmem, hseparator⟩ :=
      @ShownFrom.separator _ _ _ (k - x.entry.firstBit.toNat / 32) _ hshown hlength (by omega)
    have hindex : x.entry.firstBit.toNat / 32 + (k - x.entry.firstBit.toNat / 32) = k := by omega
    exact ⟨r, text, hindex ▸ hr, hmem, hseparator⟩

/-- **The rows of a page that shows the tiles of a tree draw its cells.** -/
theorem rowsDraw (h : root.DrawnWith ds) {p : Page} {bits : Nat} (hpos : 0 < bits)
    (hp : p.Shows (ds.filterMap Drawn.tile?) bits) :
    RowsDraw p.all root.entries (ds.filterMap Drawn.cell?) bits := by
  constructor
  case count =>
    have hcount := hp.count
    rw [Page.length_all]
    omega
  case bars =>
    rw [Page.all, List.forall_mem_append, List.forall_mem_singleton]
    exact ⟨fun r hr => (hp.full r hr).2, hp.starts⟩
  case full =>
    intro k r hr hk
    rw [Page.length_all] at hk
    rw [Page.getElem?_all_of_lt (by omega)] at hr
    exact (hp.full r (List.mem_of_getElem? hr)).1
  case borders =>
    intro k r hr hspans
    rcases Page.getElem?_concat hr with hr | ⟨-, rfl⟩
    · refine hp.borders k r hr fun t ht hspan => ?_
      obtain ⟨x, hx, htile⟩ := List.mem_filterMap.1 ht
      exact hspans x.entry (h.mem_entries hx) (h.spans_of_tile hx htile hspan)
    · rfl
  case closed =>
    intro r hr
    rw [Page.all, List.getLast?_concat, Option.some.injEq] at hr
    rw [← hr]
  case cells =>
    rw [← h.entries, List.filter_map, List.forall₂_map_left_iff]
    refine forall₂_filter_filterMap ?_ ?_
    · intro x hx
      rw [Drawn.cell?, Option.isSome_map]
      exact (h.inOrder.of_mem hx).1
    · intro x hx cell hcell
      exact h.cellDrawn hp hx hcell

end Field.DrawnWith

namespace Field

variable {raw root : Field} {d : Diagram}

/-- **A diagram is drawn with every bit where it belongs.** -/
theorem drawingLines_of_diagram (hraw : raw.SizesWhole) (h : raw.resolve = .ok root)
    (hd : root.diagram = .ok d) {bits : Nat} (hbits : d.totalBits = .int bits) (hpos : 0 < bits) :
    ∃ rows : List DrawnRow, RowsDraw rows root.entries d.cells bits ∧
      drawingLines d.cells = .ok (drawingHead ++ rowLines 0 rows ++
        [offsetLabel (4 * rows.length)]) := by
  obtain ⟨ds, hds, hcells, -, htotal⟩ := exists_of_diagram_eq_ok hraw h hd
  have hstop : root.bitCount = bits := Number.int.inj (htotal.symm.trans hbits)
  have htiling := tiling_tiles (hds.entries ▸ hds.consecutive)
    (fun x hx => (hds.inOrder.of_mem hx).1) fun x hx t ht => hds.tile_fits hx ht
  rw [hstop, Int.toNat_natCast] at htiling
  obtain ⟨p, hp, hdrawn⟩ := htiling.exists_page
  refine ⟨p.all, ?_, ?_⟩
  · rw [hcells]
    exact hds.rowsDraw hpos hp
  · rw [drawingLines, hcells, ← map_cell_tiles, hdrawn, ok_bind]
    exact congrArg Except.ok p.close_drawing

theorem drawingLines_of_diagram_statusBlock :
    statusBlock.SizesWhole ∧ ∃ root d, statusBlock.resolve = .ok root ∧ root.diagram = .ok d ∧
      d.totalBits = .int (104 : Nat) ∧ 0 < 104 ∧
      ∃ rows : List DrawnRow, RowsDraw rows root.entries d.cells 104 ∧
        drawingLines d.cells = .ok (drawingHead ++ rowLines 0 rows ++
          [offsetLabel (4 * rows.length)]) := by
  obtain ⟨hwhole, root, d, hresolve, hd, htotal⟩ := exists_diagram_statusBlock
  exact ⟨hwhole, root, d, hresolve, hd, htotal, by decide,
    drawingLines_of_diagram hwhole hresolve hd htotal (by decide)⟩

end Field

end RegisterLayout
