import RegisterLayout.Proofs.TableRows

/-!
# Failures of tables

The table of a resolved tree can be set, whatever its names are, as long as its sizes can be
written.  Only a column of numbers with fractions can hold a cell that cannot be set, and the column
of the names is the one that can be taken for such: if the root alone is in the table, under one of
the words for infinities and the undefined value.

Principal results: `failsOnly_render`, `Field.failsOnly_table`.
-/

namespace RegisterLayout

open Failure (Foreseen)

/-! ## Columns -/

namespace ColumnKind

/-- A column of numbers with fractions has such a number and no text. -/
theorem ofCells_eq_real {cells : List Value} (h : ofCells cells = .real) :
    (∃ cell ∈ cells, ofCell cell = .real) ∧ ∀ cell ∈ cells, ofCell cell ≠ .text := by
  have hjoin : ∀ a b : ColumnKind, (a.join b = .real → a = .real ∨ b = .real) ∧
      (a = .text ∨ b = .text → a.join b = .text) := by
    intro a b
    cases a <;> cases b <;> decide
  have hfold : ∀ (kinds : List ColumnKind) (k : ColumnKind), kinds.foldl join k = .real →
      (k = .real ∨ .real ∈ kinds) ∧ k ≠ .text ∧ .text ∉ kinds := by
    intro kinds
    induction kinds with
    | nil =>
      rintro k rfl
      exact ⟨.inl rfl, nofun, List.not_mem_nil⟩
    | cons a kinds ih =>
      intro k hk
      obtain ⟨hreal, htext, hrest⟩ := ih (k.join a) hk
      have hnone := not_or.1 (mt (hjoin k a).2 htext)
      refine ⟨?_, hnone.1, fun hmem => ?_⟩
      · rcases hreal with hreal | hreal
        · exact ((hjoin k a).1 hreal).imp_right fun ha => List.mem_cons.2 (.inl ha.symm)
        · exact .inr (List.mem_cons_of_mem _ hreal)
      · rcases List.mem_cons.1 hmem with ha | hmem
        · exact hnone.2 ha.symm
        · exact hrest hmem
  obtain ⟨hreal, -, htext⟩ := hfold (cells.map ofCell) .truth h
  constructor
  · rcases hreal with hreal | hreal
    · cases hreal
    · obtain ⟨cell, hcell, hkind⟩ := List.mem_map.1 hreal
      exact ⟨cell, hcell, hkind⟩
  · intro cell hcell hkind
    exact htext (hkind ▸ List.mem_map_of_mem hcell)

theorem cellText_of_ne_real {k : ColumnKind} (hk : k ≠ .real) (escapes : Bool) {cell : Value}
    (hcell : cell.isWritable = true) : ∃ s, k.cellText escapes cell = .ok s := by
  have hwritten : cell.written = .ok cell.text := by
    rw [Value.written, Value.writable, hcell]
    rfl
  unfold cellText
  split
  · exact ⟨_, rfl⟩
  · exact ⟨_, rfl⟩
  · exact ⟨_, rfl⟩
  · exact absurd rfl hk
  · exact absurd rfl hk
  · exact ⟨_, hwritten⟩

end ColumnKind

section

variable {p : Failure → Prop} {o : TextTable.Setting} {header : Text} {cells : List Value}

/-- A column can be set if each of its cells can. -/
theorem failsOnly_setColumn
    (h : ∀ cell ∈ cells, ∃ s, (ColumnKind.ofCells cells).cellText o.escapes cell = .ok s) :
    FailsOnly p (TextTable.setColumn o header cells) := by
  refine FailsOnly.bind (FailsOnly.mapM fun cell hcell => ?_) fun _ _ => .pure
  obtain ⟨s, hs⟩ := h cell hcell
  rw [hs]
  exact .ok

/-- A column without numbers with fractions can be set. -/
theorem failsOnly_setColumn_of_ne_real (hkind : ∀ cell ∈ cells, ColumnKind.ofCell cell ≠ .real)
    (hcells : ∀ cell ∈ cells, cell.isWritable = true) :
    FailsOnly p (TextTable.setColumn o header cells) := by
  have hne : ColumnKind.ofCells cells ≠ .real := by
    intro h
    obtain ⟨⟨cell, hcell, hreal⟩, -⟩ := ColumnKind.ofCells_eq_real h
    exact hkind cell hcell hreal
  exact failsOnly_setColumn fun cell hcell =>
    ColumnKind.cellText_of_ne_real hne o.escapes (hcells cell hcell)

/-- Setting a table fails for a number that cannot be written, or with a column. -/
theorem failsOnly_render {headers : List Text} {rows : List (List Value)}
    (hlong : (∃ row ∈ rows, ∃ cell ∈ row, ¬cell.isWritable = true) → p .longNumber)
    (hcolumns : ∀ (o : TextTable.Setting) (i : Nat) (header : Text), headers[i]? = some header →
      (∀ row ∈ rows, TextTable.isRule row = false → ∀ cell ∈ row, cell.isWritable = true) →
      FailsOnly p (TextTable.setColumn o header
        ((rows.filter (!TextTable.isRule ·)).map fun row => (row[i]?).getD .null))) :
    FailsOnly p (TextTable.render headers rows) := by
  refine FailsOnly.bind ?_ fun _ _ => .pure
  unfold TextTable.lines
  refine .refuse (fun h => hlong ?_) fun h => ?_
  · simp only [Bool.not_eq_true', List.all_eq_false] at h
    obtain ⟨cell, hcell, hwritable⟩ := h
    obtain ⟨row, hrow, hcell⟩ := List.mem_flatten.1 hcell
    exact ⟨row, List.mem_of_mem_filter hrow, cell, hcell, hwritable⟩
  · have hcells : ∀ row ∈ rows, TextTable.isRule row = false → ∀ cell ∈ row,
        cell.isWritable = true := by
      intro row hrow hrule cell hcell
      simp only [Bool.not_eq_true', Bool.not_eq_false, List.all_eq_true] at h
      refine h cell (List.mem_flatten.2 ⟨row, List.mem_filter.2 ⟨hrow, ?_⟩, hcell⟩)
      rw [hrule]
      rfl
    refine FailsOnly.bind (FailsOnly.mapM fun column hcolumn => ?_) fun _ _ => .pure
    obtain ⟨i, hi, rfl⟩ := List.mem_mapIdx.1 hcolumn
    exact hcolumns _ i _ (List.getElem?_eq_getElem hi) hcells

end

/-! ## The column of names -/

section

variable {short : Prop} {own r : Row} {below : List Row}

theorem Text.IsNodeName.stripEscapes {s : Text} (h : s.IsNodeName) : s.stripEscapes = s :=
  stripEscapes_eq_self (h.not_mem (by unfold IsFurther; decide))

theorem Text.IsNodeName.filter_commas {s : Text} (h : s.IsNodeName) :
    s.filter (· ≠ .char ',') = s := by
  have hcomma : CodePoint.char ',' ∉ s := h.not_mem (by unfold IsFurther; decide)
  exact List.filter_eq_self.2 fun c hc => decide_eq_true fun heq => hcomma (heq ▸ hc)

/-- An indented name is a text. -/
theorem ofCell_indented {s : Text} (hs : s.IsNodeName) {n : Nat} (hn : 0 < n) :
    ColumnKind.ofCell (.str (Text.blanks n ++ s)) = .text := by
  have hmark : Text.escapeMark ∉ Text.blanks n ++ s := by
    rw [List.mem_append, not_or]
    refine ⟨fun hmem => ?_, hs.not_mem (by unfold IsFurther; decide)⟩
    exact absurd (List.eq_of_mem_replicate hmem) (by decide)
  obtain ⟨c, rest, hc, -, rfl⟩ := hs
  have hindented : Text.blanks n ++ Text.ofChars (c :: rest)
      = Text.ofChars (' ' :: List.replicate (n - 1) ' ' ++ c :: rest) := by
    have hsucc : n = n - 1 + 1 := by omega
    rw [Text.ofChars_append, ← List.replicate_succ, ← hsucc]
    simp [Text.blanks, Text.ofChars]
  rw [ColumnKind.ofCell, Text.stripEscapes_eq_self hmark, hindented]
  refine ColumnKind.ofShown_eq_text_of_indented (fun b hb => ?_) hc
  rw [List.eq_of_mem_replicate hb]
  exact Text.isBlank_space

/-- A name that counts as a number can be set as one. -/
theorem realText_of_isNodeName {s : Text} (h : s.IsNodeName)
    (hreal : ColumnKind.ofCell (.str s) = .real) (escapes : Bool) :
    ∃ text, ColumnKind.realText escapes s = .ok text := by
  have hshown : s.stripEscapes = s := h.stripEscapes
  have hcommas := h.filter_commas
  have hfrom : ∃ text, ColumnKind.realFrom s = .ok text := by
    rw [ColumnKind.ofCell, hshown] at hreal
    obtain ⟨c, rest, hc, -, rfl⟩ := h
    obtain ⟨x, hx⟩ := ColumnKind.readReal?_of_ofShown hc hreal
    refine ⟨x.generalText, ?_⟩
    rw [ColumnKind.realFrom, Text.chars?_ofChars, Option.bind_some, hx]
  obtain ⟨text, htext⟩ := hfrom
  cases escapes with
  | true =>
    refine ⟨Text.replaceAll s text s, ?_⟩
    simp only [ColumnKind.realText, hshown, htext]
    rfl
  | false => exact ⟨text, by rw [ColumnKind.realText, if_neg Bool.false_ne_true, hcommas, htext]⟩

/-- A cell that is not in the column of names. -/
theorem Row.cell_of_succ (r : Row) (i : Nat) :
    (r.cells[i + 1]?).getD .null = .null ∨ (r.cells[i + 1]?).getD .null ∈ r.cells.tail := by
  rw [← List.getElem?_tail]
  cases hget : r.cells.tail[i]? with
  | none => exact .inl rfl
  | some cell => exact .inr (List.mem_of_getElem? hget)

/-- The column of names can be set: one that counts as a column of numbers has no indented name. -/
theorem failsOnly_setNames {p : Failure → Prop} {o : TextTable.Setting} {header : Text}
    {cells : List Value} (hdepth : own.depth = 0) (hown : own.Sound short)
    (hbelow : ∀ r ∈ below, 0 < r.depth ∧ r.Sound short)
    (hcells : ∀ cell ∈ cells, ∃ r ∈ own :: below, cell = .str r.indentedName) :
    FailsOnly p (TextTable.setColumn o header cells) := by
  refine failsOnly_setColumn fun cell hcell => ?_
  by_cases hkind : ColumnKind.ofCells cells = .real
  · obtain ⟨⟨real, hmem, hreal⟩, htext⟩ := ColumnKind.ofCells_eq_real hkind
    have hroot : ∀ cell ∈ cells, cell = .str own.fullName := by
      intro cell hcell
      obtain ⟨r, hr, rfl⟩ := hcells cell hcell
      rcases List.mem_cons.1 hr with rfl | hr
      · rw [Row.indentedName, hdepth]
        rfl
      · obtain ⟨hpos, hsound⟩ := hbelow r hr
        exact absurd (ofCell_indented hsound.name (by omega)) (htext _ hcell)
    obtain rfl := hroot real hmem
    obtain ⟨text, hset⟩ := realText_of_isNodeName hown.name hreal o.escapes
    rw [hkind, hroot cell hcell]
    obtain ⟨c, rest, -, -, hname⟩ := hown.name
    rw [hname] at hset ⊢
    exact ⟨text, hset⟩
  · obtain ⟨r, -, rfl⟩ := hcells cell hcell
    exact ColumnKind.cellText_of_ne_real hkind o.escapes rfl

end

/-! ## Tables of trees -/

namespace Field

variable {short : Prop}

/-- **The table of a tree that was placed fails with nothing but a size that cannot be written.** -/
theorem failsOnly_table {f : Field} (ht : f.WellTyped) (hsizes : f.SizesWhole)
    (hplaceable : f.Placeable 0)
    (hlimit : short → (Value.int f.extent).isWritable = true) :
    FailsOnly (Foreseen short) (f.located [] 0 0).table := by
  obtain ⟨own, below, hrows, hdepth, hown, hbelow⟩ := @rows_located short [] 0 0 0 f ht hsizes
    hplaceable (fun _ hstep => nomatch hstep) hlimit
  have hsound : ∀ r ∈ own :: below, r.Sound short :=
    List.forall_mem_cons.2 ⟨hown, fun r hr => (hbelow r hr).2⟩
  have hplaced : (f.located [] 0 0).isPlaced = true := by
    rw [isPlaced, header_located]
    rfl
  rw [table, hrows, ok_bind]
  refine .refuse (fun h => absurd hplaced (by simpa using h)) fun _ => ?_
  refine failsOnly_render ?_ ?_
  · rintro ⟨row, hrow, cell, hcell, hlong⟩
    obtain ⟨r, hr, rfl⟩ := List.mem_map.1 hrow
    exact .inr ⟨rfl, fun hs => hlong ((hsound r hr).writable hs cell hcell)⟩
  · intro o i header hheader hwritable
    -- Every cell of a column stands in a row.
    have hcells : ∀ cell ∈ ((((own :: below).map Row.cells).filter (!TextTable.isRule ·)).map
        fun row => (row[i]?).getD .null), ∃ r ∈ own :: below,
          TextTable.isRule r.cells = false ∧ cell = (r.cells[i]?).getD .null := by
      intro cell hcell
      obtain ⟨row, hrow, rfl⟩ := List.mem_map.1 hcell
      obtain ⟨hrow, hrule⟩ := List.mem_filter.1 hrow
      obtain ⟨r, hr, rfl⟩ := List.mem_map.1 hrow
      exact ⟨r, hr, by simpa using hrule, rfl⟩
    cases i with
    | zero =>
      refine failsOnly_setNames hdepth hown hbelow fun cell hcell => ?_
      obtain ⟨r, hr, -, rfl⟩ := hcells cell hcell
      exact ⟨r, hr, rfl⟩
    | succ i =>
      refine failsOnly_setColumn_of_ne_real (fun cell hcell => ?_) fun cell hcell => ?_
      · obtain ⟨r, hr, -, rfl⟩ := hcells cell hcell
        rcases r.cell_of_succ i with hcell | hcell
        · rw [hcell]
          exact nofun
        · exact (hsound r hr).plain _ hcell
      · obtain ⟨r, hr, hrule, rfl⟩ := hcells cell hcell
        rcases r.cell_of_succ i with hcell | hcell
        · rw [hcell]
          rfl
        · exact hwritable r.cells (List.mem_map_of_mem hr) hrule _ (List.mem_of_mem_tail hcell)

end Field

end RegisterLayout
