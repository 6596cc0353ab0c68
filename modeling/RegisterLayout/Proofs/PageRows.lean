import Mathlib.Data.List.Infix
import RegisterLayout.Proofs.Outcome
import RegisterLayout.Proofs.Page

/-!
# What the rows of a page show

A bit takes two characters of its row, its own and the bar or blank behind it.  Cells that are
added one behind the other stand in their rows at the characters of their bits: a cell of less
than a row between two bars, a cell of whole rows as rows of its own with separators in place of
the borders between them.

Principal definitions: `Tile` — a cell with its bits; `ShownFrom`, `Page.Shows`, `Tiling`.
Principal results: `Page.Shows.add`, `Tiling.exists_page`.
-/

namespace RegisterLayout

/-- A cell with the bits that it stands for. -/
structure Tile where
  first : Nat
  bits : Nat
  cell : Cell

namespace Tile

/-- A cell within one row or of whole rows, with as many characters as it has to have. -/
structure Fits (t : Tile) : Prop where
  pos : 1 ≤ t.bits
  narrow : t.bits < 32 → t.first % 32 + t.bits ≤ 32 ∧ t.cell.length = 1
  tall : 32 ≤ t.bits → 32 ∣ t.first ∧ 32 ∣ t.bits ∧ t.cell.length = 2 * (t.bits / 32) - 1
  letters : ∀ row ∈ t.cell, row.length = 2 * min t.bits 32 - 1

/-- A row and the one below it belong to the cell. -/
def Spans (t : Tile) (k : Nat) : Prop := t.first < 32 * (k + 1) ∧ 32 * (k + 1) < t.first + t.bits

end Tile

/-- A cell stands in rows from the character of a bit on. -/
inductive ShownFrom (rows : List DrawnRow) : Nat → Cell → Prop
  | last {bit : Nat} {text : Text} {r : DrawnRow} (row : rows[bit / 32]? = some r)
      (shown : barred text <+: r.text.drop (2 * (bit % 32))) : ShownFrom rows bit [text]
  | cons {bit : Nat} {text separator : Text} {cell : Cell} {r : DrawnRow}
      (row : rows[bit / 32]? = some r) (shown : barred text <+: r.text.drop (2 * (bit % 32)))
      (below : r.below = crossed separator) (rest : ShownFrom rows (bit + 32) cell) :
      ShownFrom rows bit (text :: separator :: cell)

theorem ShownFrom.first {rows : List DrawnRow} {bit : Nat} {text : Text} {rest : List Text}
    (h : ShownFrom rows bit (text :: rest)) :
    ∃ r, rows[bit / 32]? = some r ∧ barred text <+: r.text.drop (2 * (bit % 32)) := by
  cases h with
  | last row shown => exact ⟨_, row, shown⟩
  | cons row shown _ _ => exact ⟨_, row, shown⟩

theorem ShownFrom.exists_row {rows : List DrawnRow} {bit : Nat} {cell : Cell}
    (h : ShownFrom rows bit cell) : bit / 32 < rows.length := by
  cases h with
  | last row _ => exact (List.getElem?_eq_some_iff.1 row).1
  | cons row _ _ _ => exact (List.getElem?_eq_some_iff.1 row).1

namespace Page

variable {p q s : Page}

/-! ## Pages that go on -/

/-- A page goes on with more behind its current text. -/
structure Extends (p q : Page) : Prop where
  rows : p.rows <+: q.rows
  current : ∃ r, q.all[p.rows.length]? = some r ∧ p.current <+: r.text

theorem getElem?_all_length (p : Page) : p.all[p.rows.length]? = some ⟨p.current, border⟩ := by
  rw [all, List.getElem?_append_right (Nat.le_refl _), Nat.sub_self, List.getElem?_cons_zero]

theorem getElem?_all_of_lt {k : Nat} (h : k < p.rows.length) : p.all[k]? = p.rows[k]? :=
  List.getElem?_append_left h

theorem getElem?_all_of_begins {rows : List DrawnRow} (h : rows <+: p.rows) {k : Nat}
    {r : DrawnRow} (hr : rows[k]? = some r) : p.all[k]? = some r := by
  obtain ⟨hk, -⟩ := List.getElem?_eq_some_iff.1 hr
  obtain ⟨rest, hrest⟩ := h
  rw [all, ← hrest, List.append_assoc, List.getElem?_append_left hk, hr]

theorem length_all (p : Page) : p.all.length = p.rows.length + 1 := List.length_append

theorem Extends.row (h : p.Extends q) {k : Nat} {r : DrawnRow} (hr : p.all[k]? = some r) :
    ∃ r', q.all[k]? = some r' ∧ r.text <+: r'.text ∧ (k < p.rows.length → r' = r) := by
  obtain ⟨hk, -⟩ := List.getElem?_eq_some_iff.1 hr
  rw [length_all] at hk
  rcases Nat.lt_succ_iff_lt_or_eq.1 hk with hlt | rfl
  · rw [getElem?_all_of_lt hlt] at hr
    exact ⟨r, getElem?_all_of_begins h.rows hr, List.prefix_rfl, fun _ => rfl⟩
  · rw [getElem?_all_length, Option.some.injEq] at hr
    subst hr
    obtain ⟨r', hr', hbegins⟩ := h.current
    exact ⟨r', hr', hbegins, fun hlt => absurd hlt (Nat.lt_irrefl _)⟩

theorem Extends.refl (p : Page) : p.Extends p :=
  ⟨List.prefix_rfl, _, p.getElem?_all_length, List.prefix_rfl⟩

theorem Extends.trans (h : p.Extends q) (h' : q.Extends s) : p.Extends s := by
  obtain ⟨r, hr, hbegins⟩ := h.current
  obtain ⟨r', hr', hbegins', -⟩ := h'.row hr
  exact ⟨h.rows.trans h'.rows, r', hr', hbegins.trans hbegins'⟩

end Page

/-- What a page shows is still there when it goes on. -/
theorem ShownFrom.extend {p q : Page} (h : p.Extends q) {bit : Nat} {cell : Cell}
    (hshown : ShownFrom p.all bit cell) : ShownFrom q.all bit cell := by
  induction hshown with
  | last row shown =>
    obtain ⟨r', hr', hbegins, -⟩ := h.row row
    exact .last hr' (shown.trans (hbegins.drop _))
  | @cons bit text separator cell r row shown below rest ih =>
    obtain ⟨r', hr', hbegins, hsame⟩ := h.row row
    -- There is a row below, so that this one is finished.
    have hbelow := rest.exists_row
    rw [Page.length_all] at hbelow
    obtain rfl := hsame (by omega)
    exact .cons hr' shown below ih

namespace Page

variable {p q : Page} {ts : List Tile} {t : Tile} {bits : Nat}

/-! ## Adding a cell -/

/-- A page after some cells, whatever its current row has room for. -/
structure Holds (p : Page) (ts : List Tile) : Prop where
  starts : p.AtRow
  ends : p.current.getLast? = some (.char '|')
  full : ∀ r ∈ p.rows, r.text.length = 65 ∧ r.text.head? = some (.char '|')
  cells : ∀ t ∈ ts, ShownFrom p.all t.first t.cell
  borders : ∀ (k : Nat) (r : DrawnRow), p.rows[k]? = some r → (∀ t ∈ ts, ¬t.Spans k) →
    r.below = border

/-- A page that shows cells of some bits together, a last full row being still the current one. -/
structure Shows (p : Page) (ts : List Tile) (bits : Nat) : Prop extends p.Holds ts where
  count : p.rows.length = (bits - 1) / 32
  length : p.current.length = 2 * (bits - 32 * p.rows.length) + 1

/-- A page that has room for the next bit. -/
structure HasRoom (p : Page) (ts : List Tile) (bits : Nat) : Prop extends p.Holds ts where
  count : p.rows.length = bits / 32
  length : p.current.length = 2 * (bits % 32) + 1

theorem getElem?_concat {rows : List DrawnRow} {last r : DrawnRow} {k : Nat}
    (h : (rows ++ [last])[k]? = some r) : rows[k]? = some r ∨ k = rows.length ∧ r = last := by
  rcases Nat.lt_or_ge k rows.length with hlt | hge
  · rw [List.getElem?_append_left hlt] at h
    exact .inl h
  · rw [List.getElem?_append_right hge, List.getElem?_singleton] at h
    split at h
    · exact .inr ⟨by omega, (Option.some.inj h).symm⟩
    · cases h

theorem shows_empty : ({} : Page).Shows [] 0 where
  starts := rfl
  ends := rfl
  full := nofun
  cells := nofun
  borders := nofun
  count := rfl
  length := rfl

theorem extends_turn (p : Page) (below next : Text) : p.Extends (p.turn below next) := by
  refine ⟨List.prefix_append _ _, ⟨p.current, below⟩, ?_, List.prefix_rfl⟩
  have hlt : p.rows.length < (p.turn below next).rows.length := by simp [turn]
  rw [getElem?_all_of_lt hlt, turn, List.getElem?_append_right (Nat.le_refl _), Nat.sub_self,
    List.getElem?_cons_zero]

theorem extends_wrap (p : Page) : p.Extends p.wrap := by
  rw [wrap]
  split
  · exact extends_turn p border "|"
  · exact Extends.refl p

/-- A full row is finished. -/
theorem Shows.wrap (h : p.Shows ts bits) : p.wrap.HasRoom ts bits := by
  have hborder : border.length = 65 := rfl
  have hcount := h.count
  have hlength := h.length
  have hcells : ∀ t ∈ ts, ShownFrom p.wrap.all t.first t.cell :=
    fun t ht => (h.cells t ht).extend (extends_wrap p)
  by_cases hfull : border.length ≤ p.current.length
  · have hwrap : p.wrap = p.turn border "|" := if_pos hfull
    rw [hborder] at hfull
    rw [hwrap] at hcells ⊢
    constructor
    case toHolds =>
      constructor
      case starts => rfl
      case ends => rfl
      case full =>
        have hfilled : p.current.length = 65 := by omega
        rw [turn, List.forall_mem_append, List.forall_mem_singleton]
        exact ⟨h.full, hfilled, h.starts⟩
      case cells => exact hcells
      case borders =>
        intro k r hr hspans
        rcases getElem?_concat hr with hr | ⟨-, rfl⟩
        · exact h.borders k r hr hspans
        · rfl
    case count =>
      rw [turn, List.length_append, List.length_singleton]
      omega
    case length =>
      show 1 = 2 * (bits % 32) + 1
      omega
  · have hwrap : p.wrap = p := if_neg hfull
    rw [hborder] at hfull
    rw [hwrap]
    exact { h.toHolds with count := by omega, length := by omega }

/-- A page with the rest of a cell, whose first row is all of its current text. -/
structure Continued (p q : Page) (row : Text) (rest : List Text) : Prop where
  count : q.rows.length = p.rows.length + rest.length / 2
  current : ∃ last, last.length = 63 ∧ q.current = barred last
  rows : p.rows <+: q.rows
  full : ∀ r ∈ q.rows, r ∈ p.rows ∨ r.text.length = 65 ∧ r.text.head? = some (.char '|')
  cell : ShownFrom q.all (32 * p.rows.length) (row :: rest)

theorem length_barred (text : Text) : (barred text).length = text.length + 2 := by
  simp only [barred, List.length_append]
  show 1 + text.length + 1 = _
  omega

/-- The row at which a cell of whole rows starts. -/
theorem row_start (k : Nat) : 32 * k / 32 = k ∧ 2 * (32 * k % 32) = 0 := by omega

theorem continued_addRest {row : Text} {rest : List Text} (hcurrent : p.current = barred row)
    (heven : rest.length % 2 = 0) (hletters : ∀ row' ∈ row :: rest, row'.length = 63) :
    p.Continued (p.addRest rest) row rest := by
  induction p, rest using addRest.induct generalizing row with
  | case1 p separator next rest ih =>
    obtain ⟨hrow, hrest⟩ := List.forall_mem_cons.1 hletters
    obtain ⟨hindex, hstart⟩ := row_start p.rows.length
    have hturned : (p.turn (crossed separator) (barred next)).rows.length = p.rows.length + 1 :=
      List.length_append
    have heven' : rest.length % 2 = 0 := by
      rw [List.length_cons, List.length_cons] at heven
      omega
    -- The current row is finished above its separator; the rest goes on from the next row.
    have h := ih rfl heven' (List.forall_mem_cons.1 hrest).2
    have hfirst : (p.addRest (separator :: next :: rest)).all[p.rows.length]? =
        some ⟨p.current, crossed separator⟩ := by
      refine getElem?_all_of_begins h.rows ?_
      rw [turn, List.getElem?_append_right (Nat.le_refl _), Nat.sub_self, List.getElem?_cons_zero]
    constructor
    case count =>
      rw [addRest, h.count, hturned, List.length_cons, List.length_cons]
      omega
    case current => exact h.current
    case rows => exact (List.prefix_append _ _).trans h.rows
    case full =>
      intro r hr
      rcases h.full r hr with hmem | hfull
      · rw [turn, List.mem_append, List.mem_singleton] at hmem
        rcases hmem with hmem | rfl
        · exact .inl hmem
        · refine .inr ⟨?_, ?_⟩
          · rw [hcurrent, length_barred, hrow]
          · rw [hcurrent]
            rfl
      · exact .inr hfull
    case cell =>
      refine .cons (hindex.symm ▸ hfirst) ?_ rfl ?_
      · rw [hstart, List.drop_zero, hcurrent]
      · have hcell := h.cell
        rwa [hturned, Nat.mul_add] at hcell
  | case2 rest p hshort =>
    obtain ⟨hindex, hstart⟩ := row_start p.rows.length
    -- Of an even count of lines, less than two are none.
    have hnil : rest = [] := by
      cases rest with
      | nil => rfl
      | cons separator rest =>
        cases rest with
        | nil => simp at heven
        | cons next rest => exact absurd rfl (hshort separator next rest)
    subst hnil
    constructor
    case count => rfl
    case current => exact ⟨row, hletters row List.mem_cons_self, hcurrent⟩
    case rows => exact List.prefix_rfl
    case full => exact fun r hr => .inl hr
    case cell =>
      refine .last (hindex.symm ▸ p.getElem?_all_length) ?_
      rw [hstart, List.drop_zero, hcurrent]

theorem drop_of_getLast? {s : Text} {n : Nat} {c : CodePoint} (hlength : s.length = n + 1)
    (hlast : s.getLast? = some c) : s.drop n = [c] := by
  obtain ⟨init, rfl⟩ := List.getLast?_eq_some_iff.1 hlast
  rw [List.length_append, List.length_singleton, Nat.add_right_cancel_iff] at hlength
  rw [← hlength, List.drop_left]

/-- A cell of less than a row is put behind the others. -/
theorem HasRoom.addNarrow (h : p.HasRoom ts t.first) {text : Text} (hcell : t.cell = [text])
    (hpos : 1 ≤ t.bits) (hroom : t.first % 32 + t.bits ≤ 32)
    (hletters : text.length = 2 * t.bits - 1) :
    ({ p with current := p.current ++ text ++ "|" } : Page).Shows (ts ++ [t])
      (t.first + t.bits) := by
  have hbehind : p.current ++ text ++ "|" = p.current ++ (text ++ "|") := List.append_assoc ..
  have hextends : p.Extends { p with current := p.current ++ text ++ "|" } :=
    ⟨List.prefix_rfl, _, getElem?_all_length _, hbehind ▸ List.prefix_append _ _⟩
  have hcount := h.count
  have hlength := h.length
  constructor
  case toHolds =>
    constructor
    case starts => exact hbehind ▸ h.starts.append _
    case ends => exact List.getLast?_concat
    case full => exact h.full
    case cells =>
      rw [List.forall_mem_append, List.forall_mem_singleton]
      refine ⟨fun t ht => (h.cells t ht).extend hextends, ?_⟩
      rw [hcell]
      refine @ShownFrom.last _ _ _ ⟨p.current ++ text ++ "|", border⟩ ?_ ?_
      · rw [← hcount]
        exact getElem?_all_length _
      rw [hbehind, List.drop_append_of_le_length (by omega), drop_of_getLast? hlength h.ends]
      exact List.prefix_rfl
    case borders =>
      intro k r hr hspans
      exact h.borders k r hr fun t ht => hspans t (List.mem_append_left _ ht)
  case count =>
    show p.rows.length = _
    omega
  case length =>
    rw [List.length_append, List.length_append, hlength, hletters]
    show 2 * (t.first % 32) + 1 + (2 * t.bits - 1) + 1 = _
    show _ = 2 * (t.first + t.bits - 32 * p.rows.length) + 1
    omega

/-- A cell of whole rows takes them. -/
theorem HasRoom.addTall (h : p.HasRoom ts t.first) {row : Text} {rest : List Text}
    (hcell : t.cell = row :: rest) (hfirst : 32 ∣ t.first) (hbits : 32 ∣ t.bits)
    (hpos : 1 ≤ t.bits) (hrows : t.cell.length = 2 * (t.bits / 32) - 1)
    (hletters : ∀ row ∈ t.cell, row.length = 63) :
    (({ p with current := p.current ++ row ++ "|" } : Page).addRest rest).Shows (ts ++ [t])
      (t.first + t.bits) := by
  have hcount := h.count
  have hlength := h.length
  -- At the start of a row there is nothing but its bar.
  have hbar : p.current = "|" := drop_of_getLast? (by omega : p.current.length = 0 + 1) h.ends
  rw [hcell, List.length_cons] at hrows
  rw [hcell] at hletters
  have hstart : 32 * p.rows.length = t.first := by omega
  have hcontinued := @continued_addRest { p with current := p.current ++ row ++ "|" } row rest
    (by rw [hbar]; rfl) (by omega) hletters
  obtain ⟨hadded, ⟨last, hlast, hcurrent⟩, hbegins, hfull, hshown⟩ := hcontinued
  generalize ({ p with current := p.current ++ row ++ "|" } : Page).addRest rest = q at *
  replace hadded : q.rows.length = p.rows.length + rest.length / 2 := hadded
  have hextends : p.Extends q := by
    obtain ⟨r, hr, htext⟩ := hshown.first
    obtain ⟨hindex, hdrop⟩ := row_start p.rows.length
    rw [hindex] at hr
    rw [hdrop, List.drop_zero] at htext
    exact ⟨hbegins, r, hr, hbar ▸ (List.prefix_append _ _).trans htext⟩
  constructor
  case toHolds =>
    constructor
    case starts =>
      rw [AtRow, hcurrent]
      rfl
    case ends =>
      rw [hcurrent]
      exact List.getLast?_concat
    case full =>
      intro r hr
      rcases hfull r hr with hmem | hnew
      · exact h.full r hmem
      · exact hnew
    case cells =>
      rw [List.forall_mem_append, List.forall_mem_singleton]
      refine ⟨fun t ht => (h.cells t ht).extend hextends, ?_⟩
      rw [hcell, ← hstart]
      exact hshown
    case borders =>
      intro k r hr hspans
      rcases Nat.lt_or_ge k p.rows.length with hlt | hge
      · have hold : p.rows[k]? = some r := by
          obtain ⟨rest, hrest⟩ := hbegins
          rwa [← hrest, List.getElem?_append_left hlt] at hr
        exact h.borders k r hold fun t ht => hspans t (List.mem_append_left _ ht)
      · -- The rows of the cell itself have separators between them.
        have hk := (List.getElem?_eq_some_iff.1 hr).1
        have hspan : t.Spans k := ⟨by omega, by omega⟩
        exact absurd hspan (hspans t (List.mem_append_right _ List.mem_cons_self))
  case count =>
    show q.rows.length = _
    omega
  case length =>
    rw [hcurrent, length_barred, hlast]
    omega

/-- **A page shows a cell that is added to it.** -/
theorem Shows.add (h : p.Shows ts t.first) (ht : t.Fits) :
    (p.add t.cell).Shows (ts ++ [t]) (t.first + t.bits) ∧
      p.drawing.addCell t.cell = .ok (p.add t.cell).drawing := by
  have hroom := h.wrap
  have hpos := ht.pos
  have hletters := ht.letters
  rcases Nat.lt_or_ge t.bits 32 with hnarrow | htall
  · obtain ⟨hfits, hlength⟩ := ht.narrow hnarrow
    obtain ⟨text, hcell⟩ := List.length_eq_one_iff.1 hlength
    have htext : text.length = 2 * t.bits - 1 := by
      have := hletters text (hcell ▸ List.mem_cons_self)
      omega
    refine ⟨?_, addCell_drawing h.starts (by omega)⟩
    rw [hcell]
    exact hroom.addNarrow hcell hpos hfits htext
  · obtain ⟨hfirst, hbits, hlength⟩ := ht.tall htall
    have hrows : ∀ row ∈ t.cell, row.length = 63 := by
      intro row hrow
      have := hletters row hrow
      omega
    obtain ⟨row, rest, hcell⟩ : ∃ row rest, t.cell = row :: rest :=
      List.exists_cons_of_length_pos (by omega)
    refine ⟨?_, addCell_drawing h.starts (by omega)⟩
    rw [hcell]
    exact hroom.addTall hcell hfirst hbits hpos hlength hrows

end Page

/-! ## The run of a drawing of rows -/

/-- Cells that fit, each behind the bits of those before it. -/
inductive Tiling : List Tile → Nat → Prop
  | nil : Tiling [] 0
  | concat {ts : List Tile} {t : Tile} (before : Tiling ts t.first) (fits : t.Fits) :
      Tiling (ts ++ [t]) (t.first + t.bits)

/-- **Drawing cells one behind the other comes to a page that shows them.** -/
theorem Tiling.exists_page {ts : List Tile} {bits : Nat} (h : Tiling ts bits) :
    ∃ p : Page, p.Shows ts bits ∧
      (ts.map Tile.cell).foldlM Drawing.addCell {} = .ok p.drawing := by
  induction h with
  | nil => exact ⟨{}, Page.shows_empty, rfl⟩
  | @concat ts t _ fits ih =>
    obtain ⟨p, hp, hdrawn⟩ := ih
    obtain ⟨hshows, hadd⟩ := hp.add fits
    refine ⟨p.add t.cell, hshows, ?_⟩
    rw [List.map_append, List.foldlM_append, hdrawn, ok_bind, List.map_singleton, List.foldlM_cons,
      hadd, ok_bind, List.foldlM_nil]
    rfl

end RegisterLayout
