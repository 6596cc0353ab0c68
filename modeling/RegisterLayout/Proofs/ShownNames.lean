import RegisterLayout.Proofs.RowTexts

/-!
# Names in tables

The table of an accepted tree without line feeds in its names has a line for every node and every
item, which begins with the full name behind two blanks for every level above it.  What a column is
taken for depends on all its cells: an indented name makes the names texts, and so they are shown
as they are below any root.  A root that is alone has no such name below it, and then the words for
infinity and for the undefined value are set as numbers.

Principal definitions: `Field.ListedBy`, `Field.IsLoneNumberWord`, `Field.SizesWritten`.
Principal results: `Field.ofCells_zero`, `Field.exists_lines`, `Field.table_lists`.
-/

namespace RegisterLayout

/-! ## Columns -/

/-- A name counts as a number exactly if it is such a word and not indented. -/
theorem Visit.ofCell_indentedName {v : Visit} (hname : v.node.fullName.IsIdentifier) :
    ColumnKind.ofCell (.str v.indentedName) = .real ∧ v.depth = 0 ∧ v.node.fullName.IsNumberWord ∨
      (ColumnKind.ofCell (.str v.indentedName)).isNumeric = false ∧
        ¬(v.depth = 0 ∧ v.node.fullName.IsNumberWord) := by
  rcases Nat.eq_zero_or_pos v.depth with hdepth | hdepth
  · have hindented : v.indentedName = v.node.fullName := by
      rw [indentedName, hdepth]
      rfl
    rw [hindented, hdepth]
    rcases ColumnKind.ofCell_of_isIdentifier hname with ⟨htruth, hword⟩ | hkind
    · exact .inr ⟨by rw [htruth]; rfl, fun h => hword h.2⟩
    · rw [hkind]
      by_cases hword : v.node.fullName.IsNumberWord
      · rw [if_pos hword]
        exact .inl ⟨rfl, rfl, hword⟩
      · rw [if_neg hword]
        exact .inr ⟨rfl, fun h => hword h.2⟩
  · right
    rw [indentedName, ofCell_indented hname.isNodeName (by omega)]
    exact ⟨rfl, fun h => hdepth.ne' h.1⟩

namespace Field

/-- Every size in a tree can be written. -/
def SizesWritten (root : Field) : Prop :=
  ∀ v ∈ root.visits, ∀ size, v.node.sizeBits = .ok size → size.isWritable = true

instance (root : Field) : Decidable root.SizesWritten :=
  decidable_of_iff
    (∀ v ∈ root.visits, ∀ size ∈ v.node.sizeBits.toOption, size.isWritable = true) (by
      refine forall₂_congr fun v _ => forall_congr' fun size => ?_
      cases v.node.sizeBits <;> simp [Except.toOption])

/-- A root that is alone under a name which counts as a number. -/
def IsLoneNumberWord (root : Field) : Prop := root.visits.length = 1 ∧ root.fullName.IsNumberWord

instance (root : Field) : Decidable root.IsLoneNumberWord := inferInstanceAs (Decidable (_ ∧ _))

/-- A table with a line of the headers, a rule, and a line for every node and every item of a tree
in their order, which begins with two blanks for every level above it and its full name, and goes
on with blanks. -/
def ListedBy (root : Field) (table : Text) : Prop :=
  ∃ header rule lines, Text.splitLines table = header :: rule :: lines ∧
    header.unspaced = Row.headers.flatMap Text.unspaced ∧
    (∀ c ∈ rule, c = .char '-' ∨ c = .char ' ') ∧
    List.Forall₂ (fun v line => v.indentedName ++ Text.blanks 2 <+: line) root.visits lines

open TextTable

section

variable {root : Field} {rows : List Row} {columns : List Column}
  (hrows : List.Forall₂ (fun v r => Row.Tabular r v) root.visits rows)

include hrows

theorem isPrinted_tabular :
    ∀ s ∈ Row.headers ++ (rows.map Row.cells).flatten.map Value.text, s.IsPrinted := by
  refine List.forall_mem_append.2 ⟨by decide, ?_⟩
  rw [List.forall_mem_map]
  intro cell hcell
  obtain ⟨cells, hcells, hcell⟩ := List.mem_flatten.1 hcell
  obtain ⟨r, hr, rfl⟩ := List.mem_map.1 hcells
  obtain ⟨v, -, htabular⟩ := exists_left_of_forall₂ hrows hr
  exact htabular.printed cell hcell

theorem columnCells_zero : columnCells (rows.map Row.cells) 0
    = root.visits.map fun v => .str v.indentedName := by
  rw [columnCells, List.map_map, ← List.forall₂_eq_eq_eq, List.forall₂_map_left_iff,
    List.forall₂_map_right_iff]
  refine hrows.flip.imp fun r v htabular => ?_
  rw [Function.comp_apply, htabular.name, Option.getD_some]

theorem ofCells_succ (i : Nat) :
    ColumnKind.ofCells (columnCells (rows.map Row.cells) (i + 1)) ≠ .real := by
  intro hreal
  obtain ⟨⟨cell, hcell, hkind⟩, -⟩ := ColumnKind.ofCells_eq_real hreal
  obtain ⟨cells, hcells, rfl⟩ := List.mem_map.1 hcell
  obtain ⟨r, hr, rfl⟩ := List.mem_map.1 hcells
  obtain ⟨v, -, htabular⟩ := exists_left_of_forall₂ hrows hr
  rcases r.cell_of_succ i with hnull | hmem
  · rw [hnull] at hkind
    cases hkind
  · exact htabular.unreal _ hmem hkind

theorem columnCells_of_isLoneNumberWord (hlone : root.IsLoneNumberWord) :
    columnCells (rows.map Row.cells) 0 = [.str root.fullName] := by
  obtain ⟨below, hvisits, -⟩ := exists_visits_eq_cons root
  have hnone : below = [] := by simpa [hvisits] using hlone.1
  rw [columnCells_zero hrows, hvisits, hnone]
  rfl

variable (hnames : ∀ v ∈ root.visits, v.node.fullName.IsIdentifier)

include hnames

/-- **The names count as numbers exactly if the root is alone under such a name**, and as texts or
truth values otherwise. -/
theorem ofCells_zero :
    ColumnKind.ofCells (columnCells (rows.map Row.cells) 0) = .real ∧ root.IsLoneNumberWord ∨
      (ColumnKind.ofCells (columnCells (rows.map Row.cells) 0)).isNumeric = false ∧
        ¬root.IsLoneNumberWord := by
  rw [columnCells_zero hrows]
  obtain ⟨below, hvisits, hbelow⟩ := exists_visits_eq_cons root
  have hkinds := fun v (hv : v ∈ root.visits) => Visit.ofCell_indentedName (hnames v hv)
  by_cases hreal : ColumnKind.ofCells (root.visits.map fun v => .str v.indentedName) = .real
  · -- Among the names there is no text, and so no node is below the root.
    obtain ⟨⟨_, hcell, hkind⟩, htext⟩ := ColumnKind.ofCells_eq_real hreal
    obtain ⟨v, hv, rfl⟩ := List.mem_map.1 hcell
    have hnone : below = [] := by
      refine List.eq_nil_iff_forall_not_mem.2 fun w hw => ?_
      have hmem : w ∈ root.visits := hvisits ▸ List.mem_cons_of_mem _ hw
      refine htext _ (List.mem_map_of_mem hmem) (ofCell_indented (hnames w hmem).isNodeName ?_)
      have := hbelow w hw
      omega
    rcases hkinds v hv with ⟨-, hword⟩ | ⟨hnumeric, -⟩
    · rw [hvisits, hnone] at hv
      obtain rfl := List.mem_singleton.1 hv
      exact .inl ⟨hreal, by rw [hvisits, hnone]; rfl, hword.2⟩
    · rw [hkind] at hnumeric
      cases hnumeric
  · refine .inr ⟨?_, fun hlone => hreal ?_⟩
    · rcases ColumnKind.ofCells_mem (root.visits.map fun v => .str v.indentedName) with
        htruth | ⟨_, hcell, hkind⟩
      · rw [htruth]
        rfl
      · obtain ⟨v, hv, rfl⟩ := List.mem_map.1 hcell
        rw [hkind] at hreal ⊢
        rcases hkinds v hv with ⟨hkind, -⟩ | ⟨hnumeric, -⟩
        · exact absurd hkind hreal
        · exact hnumeric
    · obtain ⟨hlength, hword⟩ := hlone
      have hnone : below = [] := by simpa [hvisits] using hlength
      rw [hvisits, hnone] at hkinds ⊢
      rcases List.forall_mem_singleton.1 hkinds with ⟨hkind, -⟩ | ⟨-, hnot⟩
      · rw [List.map_singleton, ColumnKind.ofCells, List.map_singleton, hkind]
        rfl
      · exact absurd ⟨rfl, hword⟩ hnot

variable (hwritable : ∀ row ∈ rows.map Row.cells, ∀ cell ∈ row, cell.isWritable = true)

include hwritable

/-- A cell that can be written is set in printed characters. -/
theorem exists_cellText {i : Nat} :
    ∀ cell ∈ columnCells (rows.map Row.cells) i, ∃ s,
      (ColumnKind.ofCells (columnCells (rows.map Row.cells) i)).cellText false cell = .ok s ∧
        s.IsPrinted := by
  intro cell hcell
  by_cases hreal : ColumnKind.ofCells (columnCells (rows.map Row.cells) i) = .real
  · cases i with
    | zero =>
      rcases ofCells_zero hrows hnames with ⟨-, hlone⟩ | ⟨hnumeric, -⟩
      · obtain ⟨below, hvisits, -⟩ := exists_visits_eq_cons root
        have hroot : root.fullName.IsIdentifier := hnames _ (hvisits ▸ List.mem_cons_self)
        rw [columnCells_of_isLoneNumberWord hrows hlone, List.mem_singleton] at hcell
        obtain ⟨word, hword, htext⟩ := ColumnKind.cellText_of_isNumberWord hroot hlone.2
        rw [hreal, hcell]
        exact ⟨_, htext, (by decide : ∀ word ∈ numberWords, (Text.ofString word).IsPrinted)
          word hword⟩
      · rw [hreal] at hnumeric
        cases hnumeric
    | succ i => exact absurd hreal (ofCells_succ hrows i)
  · obtain ⟨s, hs⟩ := ColumnKind.cellText_of_ne_real hreal false
      (forall_mem_columnCells (P := fun cell => cell.isWritable = true) rfl hwritable i cell hcell)
    have hprinted : cell.text.IsPrinted := by
      have hall : ∀ row ∈ rows.map Row.cells, ∀ cell ∈ row, cell.text.IsPrinted :=
        fun row hrow cell hcell => isPrinted_text (isPrinted_tabular hrows) hrow hcell
      exact forall_mem_columnCells (P := fun cell => cell.text.IsPrinted) (by decide) hall i cell
        hcell
    refine ⟨s, hs, ?_⟩
    rcases ColumnKind.cellText_of_isPrinted hreal hprinted hs with ⟨-, rfl⟩ | rfl
    · exact List.forall_mem_nil _
    · exact hprinted

/-- **The columns of the table can be set if all numbers in it can be written.** -/
theorem exists_columns : ∃ columns, setColumns Row.headers (rows.map Row.cells) = .ok columns ∧
    ∀ c ∈ columns, c.IsPrinted := by
  have hall : ∀ p ∈ Row.headers.zipIdx, ∃ c,
      setColumn .plain p.1 (columnCells (rows.map Row.cells) p.2) = .ok c ∧ c.IsPrinted := by
    intro p hp
    have hcells := exists_cellText (i := p.2) hrows hnames hwritable
    obtain ⟨c, hc⟩ := exists_setColumn p.1 fun cell hcell =>
      (hcells cell hcell).imp fun _ hs => hs.1
    refine ⟨c, hc, (shows_of_setColumn hc).isPrinted ?_ fun cell hcell s hs => ?_⟩
    · exact (by decide : ∀ p ∈ Row.headers.zipIdx, p.1.IsPrinted) p hp
    · obtain ⟨s', hs', hprinted⟩ := hcells cell hcell
      exact Except.ok.inj (hs.symm.trans hs') ▸ hprinted
  obtain ⟨columns, hcolumns, hprinted⟩ := mapM_of_forall hall
  refine ⟨columns, hcolumns, fun c hc => ?_⟩
  obtain ⟨p, -, hc⟩ := exists_left_of_forall₂ hprinted hc
  exact hc

end

/-! ## Lines -/

section

variable {root : Field} {rows : List Row} {columns : List Column}

/-- The second cell of a line is the kind of a node, and not blank. -/
theorem exists_nonblank {c : Column}
    (hrows : List.Forall₂ (fun v r => Row.Tabular r v) root.visits rows)
    (hshows : c.Shows "Kind" (columnCells (rows.map Row.cells) 1)) {k : Nat} {r : Row} {v : Visit}
    (hr : rows[k]? = some r) (htabular : r.Tabular v) :
    ∃ d ∈ (c.cells[k]?).getD [], d.holds Text.isBlank = false := by
  have hcell : (columnCells (rows.map Row.cells) 1)[k]? = some (.str v.node.kindName) := by
    rw [columnCells, List.map_map, List.getElem?_map, hr, Option.map_some, Function.comp_apply,
      htabular.kind, Option.getD_some]
  obtain ⟨s, hs, before, after, hpads, -⟩ := hshows.exists_cell hcell
  obtain rfl : s = Text.ofString v.node.kindName := by
    have hprinted : (Value.str v.node.kindName).text.IsPrinted := v.node.isPrinted_kindName
    rcases ColumnKind.cellText_of_isPrinted (ofCells_succ hrows 0) hprinted hs with
      ⟨hnull, -⟩ | hs
    · cases hnull
    · exact hs
  obtain ⟨d, hd, hblank⟩ : ∃ d ∈ Text.ofString v.node.kindName, d.holds Text.isBlank = false :=
    (by decide : ∀ kind ∈ kindNames, ∃ d ∈ Text.ofString kind, d.holds Text.isBlank = false)
      v.node.kindName v.node.kindName_mem
  rw [hpads]
  exact ⟨d, List.mem_append_left _ (List.mem_append_right _ hd), hblank⟩

/-- **What the lines of the table begin with**, if that is what the cells of its first column are
filled up from. -/
theorem exists_lines (hrows : List.Forall₂ (fun v r => Row.Tabular r v) root.visits rows)
    (hcolumns : setColumns Row.headers (rows.map Row.cells) = .ok columns)
    (hprinted : ∀ c ∈ columns, c.IsPrinted) (shown : Visit → Text)
    (hshown : ∀ c ∈ columns.head?, ∀ (k : Nat) (v : Visit), root.visits[k]? = some v →
      ∃ n, (c.cells[k]?).getD [] = shown v ++ Text.blanks n) :
    ∃ header rule lines,
      Text.splitLines (Text.joined "\n" (tableLines columns rows.length))
        = header :: rule :: lines ∧
      header.unspaced = Row.headers.flatMap Text.unspaced ∧
      (∀ c ∈ rule, c = .char '-' ∨ c = .char ' ') ∧
      List.Forall₂ (fun v line => shown v ++ Text.blanks 2 <+: line) root.visits lines := by
  have hlines : List.Forall₂ (fun v line => shown v ++ Text.blanks 2 <+: line) root.visits
      ((List.range rows.length).map fun k =>
        rowLine (columns.map fun c => (c.cells[k]?).getD [])) := by
    obtain ⟨name, others, -, hothers, rfl⟩ :=
      List.forall₂_cons_left_iff.1 (shows_of_setColumns hcolumns)
    obtain ⟨kind, others, hkind, -, rfl⟩ := List.forall₂_cons_left_iff.1 hothers
    rw [List.forall₂_iff_get]
    refine ⟨by rw [List.length_map, List.length_range, hrows.length_eq], fun k hk hk' => ?_⟩
    have hlt : k < rows.length := hrows.length_eq ▸ hk
    obtain ⟨n, hn⟩ := hshown name rfl k _ (List.getElem?_eq_getElem hk)
    have hnonblank := exists_nonblank hrows hkind (List.getElem?_eq_getElem hlt)
      (hrows.get hk hlt)
    rw [List.get_eq_getElem, List.get_eq_getElem, List.getElem_map, List.getElem_range,
      List.map_cons, List.map_cons, hn]
    exact prefix_rowLine n hnonblank
  refine ⟨_, _, _, Text.splitLines_joined (isPrinted_tableLines hprinted _) ?_,
    unspaced_headerLine hcolumns fun c hc => (hprinted c hc).1, forall_mem_ruleLine, hlines⟩
  -- The last line is that of a node, since the root has one.
  obtain ⟨below, hvisits, -⟩ := exists_visits_eq_cons root
  intro hlast
  rw [hvisits] at hlines
  obtain ⟨line, lines, -, -, heq⟩ := List.forall₂_cons_left_iff.1 hlines
  rw [tableLines, heq, List.getLast?_cons_cons, List.getLast?_cons_cons, ← heq] at hlast
  obtain ⟨v, -, hline⟩ := exists_left_of_forall₂ hlines (List.mem_of_getLast? hlast)
  simp [Text.blanks] at hline

/-- A column of names that is not set as numbers shows them as they are. -/
theorem shown_of_not_isLoneNumberWord
    (hrows : List.Forall₂ (fun v r => Row.Tabular r v) root.visits rows)
    (hnames : ∀ v ∈ root.visits, v.node.fullName.IsIdentifier) (hlone : ¬root.IsLoneNumberWord)
    (hcolumns : setColumns Row.headers (rows.map Row.cells) = .ok columns) :
    ∀ c ∈ columns.head?, ∀ (k : Nat) (v : Visit), root.visits[k]? = some v →
      ∃ n, (c.cells[k]?).getD [] = v.indentedName ++ Text.blanks n := by
  obtain ⟨name, others, hname, -, rfl⟩ :=
    List.forall₂_cons_left_iff.1 (shows_of_setColumns hcolumns)
  rintro _ ⟨⟩ k v hv
  obtain ⟨-, hlone'⟩ | ⟨hnumeric, -⟩ := ofCells_zero hrows hnames
  · exact absurd hlone' hlone
  have hcell : (columnCells (rows.map Row.cells) 0)[k]? = some (.str v.indentedName) := by
    rw [columnCells_zero hrows, List.getElem?_map, hv, Option.map_some]
  have hprinted : (Value.str v.indentedName).text.IsPrinted :=
    Text.isPrinted_append.2
      ⟨Text.isPrinted_blanks _, (hnames v (List.mem_of_getElem? hv)).isPrinted⟩
  obtain ⟨s, hs, before, after, hpads, hbefore⟩ := hname.exists_cell hcell
  have hunreal : ColumnKind.ofCells (columnCells (rows.map Row.cells) 0) ≠ .real := by
    intro hreal
    rw [hreal] at hnumeric
    cases hnumeric
  obtain rfl : s = v.indentedName := by
    rcases ColumnKind.cellText_of_isPrinted hunreal hprinted hs with ⟨hnull, -⟩ | hs
    · cases hnull
    · exact hs
  exact ⟨after, by rw [hpads, hbefore hnumeric]; rfl⟩

/-- A word that counts as a number alone in the column of names is set to the right, in small
letters. -/
theorem setColumn_of_isNumberWord {s : Text} (hs : s.IsIdentifier) (hword : s.IsNumberWord) :
    ∃ (word : Text) (width : Nat) (header : Text),
      setColumn .plain "FQN" [.str s] = .ok ⟨width, header, [Text.blanks 2 ++ word]⟩ := by
  have hkind : ColumnKind.ofCells [.str s] = .real := by
    rcases ColumnKind.ofCell_of_isIdentifier hs with ⟨-, hnot⟩ | hkind
    · exact absurd hword hnot
    · rw [ColumnKind.ofCells, List.map_singleton, hkind, if_pos hword]
      rfl
  obtain ⟨word, hmem, htext⟩ := ColumnKind.cellText_of_isNumberWord hs hword
  have htexts : [Value.str s].mapM (ColumnKind.real.cellText false) = .ok [Text.ofString word] := by
    rw [List.mapM_cons, htext]
    rfl
  refine ⟨word, 5, "  FQN", ?_⟩
  rw [setColumn, hkind, Setting.plain, htexts, ok_bind]
  simp only [numberWords, List.mem_cons, List.not_mem_nil, or_false] at hmem
  rcases hmem with rfl | rfl
  · rfl
  · rfl

/-- Under a word that counts as a number the one line begins with a blank. -/
theorem shown_of_isLoneNumberWord
    (hrows : List.Forall₂ (fun v r => Row.Tabular r v) root.visits rows)
    (hroot : root.fullName.IsIdentifier) (hlone : root.IsLoneNumberWord)
    (hcolumns : setColumns Row.headers (rows.map Row.cells) = .ok columns) :
    ∃ word, ∀ c ∈ columns.head?, ∀ (k : Nat) (v : Visit), root.visits[k]? = some v →
      ∃ n, (c.cells[k]?).getD [] = (Text.blanks 2 ++ word) ++ Text.blanks n := by
  obtain ⟨name, others, hname, -, rfl⟩ :=
    List.forall₂_cons_left_iff.1 (mapM_eq_ok_forall₂ hcolumns)
  dsimp only at hname
  obtain ⟨word, width, header, hset⟩ := setColumn_of_isNumberWord hroot hlone.2
  rw [columnCells_of_isLoneNumberWord hrows hlone] at hname
  obtain rfl := Except.ok.inj (hname.symm.trans hset)
  refine ⟨word, ?_⟩
  rintro _ ⟨⟩ k v hv
  obtain ⟨hlt, -⟩ := List.getElem?_eq_some_iff.1 hv
  obtain rfl : k = 0 := by
    have := hlone.1
    omega
  exact ⟨0, (List.append_nil _).symm⟩

theorem not_listedBy_of_isLoneNumberWord
    (hrows : List.Forall₂ (fun v r => Row.Tabular r v) root.visits rows)
    (hnames : ∀ v ∈ root.visits, v.node.fullName.IsIdentifier) (hlone : root.IsLoneNumberWord)
    (hcolumns : setColumns Row.headers (rows.map Row.cells) = .ok columns)
    (hprinted : ∀ c ∈ columns, c.IsPrinted) :
    ¬root.ListedBy (Text.joined "\n" (tableLines columns rows.length)) := by
  obtain ⟨below, hvisits, -⟩ := exists_visits_eq_cons root
  have hroot : root.fullName.IsIdentifier := hnames _ (hvisits ▸ List.mem_cons_self)
  obtain ⟨word, hshown⟩ := shown_of_isLoneNumberWord hrows hroot hlone hcolumns
  obtain ⟨header, rule, lines, hsplit, -, -, hlines⟩ :=
    exists_lines hrows hcolumns hprinted (fun _ => Text.blanks 2 ++ word) hshown
  rintro ⟨header', rule', lines', hsplit', -, -, hlisted⟩
  obtain ⟨-, htail⟩ := List.cons.inj (hsplit.symm.trans hsplit')
  obtain ⟨-, rfl⟩ := List.cons.inj htail
  rw [hvisits] at hlines hlisted
  obtain ⟨line, more, ⟨after, rfl⟩, -, rfl⟩ := List.forall₂_cons_left_iff.1 hlines
  obtain ⟨⟨after', heq⟩, -⟩ := List.forall₂_cons.1 hlisted
  -- The line begins with a blank, and the name does not.
  obtain ⟨-, c, t, hc, hname⟩ := Text.isIdentifier_iff.1 hroot
  have hindented : (Visit.mk [(root.header, 0)] root).indentedName = root.fullName := rfl
  rw [hindented, hname] at heq
  obtain rfl := CodePoint.char.inj (List.cons.inj heq).1
  exact absurd hc (by unfold IsInitial; decide)

end

/-! ## Accepted documents -/

section

variable {raw root : Field}

/-- The table of an accepted tree of names without line feeds is that of its rows. -/
theorem exists_tabular (hspelled : raw.Spelled) (hunbroken : raw.Unbroken)
    (hwidths : raw.WidthsWhole) (h : raw.resolve = .ok root) :
    ∃ rows, List.Forall₂ (fun v r => Row.Tabular r v) root.visits rows ∧
      root.table = TextTable.render Row.headers (rows.map Row.cells) := by
  have hwhole := sizesWhole_of_resolve hwidths h
  have hshowable := showable_of_resolve hwhole h
  have htabular := tabular_of_resolve hwhole h
  have hnames := isIdentifier_of_resolve hspelled hunbroken h
  obtain ⟨rows, hrows, hall⟩ := mapM_of_forall (r := fun v r => Row.Tabular r v) fun v hv => by
    obtain ⟨r, hr, hshows⟩ := Visit.exists_row (hshowable v hv)
    exact ⟨r, hr, hshows.tabular (hnames v hv) (htabular v hv)⟩
  have hplaced : root.isPlaced = true := by
    obtain ⟨below, hvisits, -⟩ := exists_visits_eq_cons root
    obtain ⟨name, hname⟩ := (hshowable _ (hvisits ▸ List.mem_cons_self)).fullName
    exact Option.isSome_iff_exists.2 ⟨name, hname⟩
  have hrows' : root.rows 0 = .ok rows := (@rows_eq_mapM [] 0 root hshowable).trans hrows
  refine ⟨rows, hall, ?_⟩
  rw [table, hplaced, hrows']
  rfl

/-- **Which tables list their trees.**  The table of an accepted document of whole widths without
line feeds in its names can be made exactly if the sizes in it can be written.  It lists the nodes
and items of the tree by their full names unless the root is alone under a word that counts as a
number, which is then shown as the number. -/
theorem table_lists {document : Looped Value} {text : Option Text}
    (hvalid : validate document text = .ok ()) (hraw : ofValue document.root = .ok raw)
    (hwidths : raw.WidthsWhole) (hunbroken : raw.Unbroken) (h : raw.resolve = .ok root) :
    (root.SizesWritten → ∃ table, root.table = .ok table ∧
      (root.ListedBy table ↔ ¬root.IsLoneNumberWord)) ∧
    (¬root.SizesWritten → root.table = .error .longNumber) := by
  have hspelled := spelled_of_validate hvalid hraw
  obtain ⟨rows, hrows, htable⟩ := exists_tabular hspelled hunbroken hwidths h
  have hnames := isIdentifier_of_resolve hspelled hunbroken h
  have hprinted := isPrinted_tabular hrows
  rw [htable]
  constructor
  · intro hsizes
    have hwritable : ∀ row ∈ rows.map Row.cells, ∀ cell ∈ row, cell.isWritable = true := by
      rw [List.forall_mem_map]
      intro r hr
      obtain ⟨v, hv, htabular⟩ := exists_left_of_forall₂ hrows hr
      exact htabular.writable.2 (hsizes v hv)
    obtain ⟨columns, hcolumns, hshown⟩ := exists_columns hrows hnames hwritable
    have hlines := (lines_eq_ok_iff hprinted (List.cons_ne_nil _ _)).2
      ⟨hwritable, columns, hcolumns, rfl⟩
    rw [List.length_map] at hlines
    refine ⟨Text.joined "\n" (tableLines columns rows.length), by rw [render, hlines]; rfl, ?_⟩
    by_cases hlone : root.IsLoneNumberWord
    · exact iff_of_false (not_listedBy_of_isLoneNumberWord hrows hnames hlone hcolumns hshown)
        (not_not.2 hlone)
    · refine iff_of_true ?_ hlone
      exact exists_lines hrows hcolumns hshown Visit.indentedName
        (shown_of_not_isLoneNumberWord hrows hnames hlone hcolumns)
  · intro hsizes
    obtain ⟨v, hv, hlong⟩ : ∃ v ∈ root.visits,
        ¬∀ size, v.node.sizeBits = .ok size → size.isWritable = true := by
      simpa [SizesWritten] using hsizes
    obtain ⟨r, hr, htabular⟩ := exists_left_of_forall₂ hrows.flip hv
    obtain ⟨cell, hcell, hlong⟩ : ∃ cell ∈ r.cells, cell.isWritable = false := by
      simpa using mt htabular.writable.1 hlong
    rw [render, lines_of_long hprinted (List.mem_map_of_mem hr) hcell hlong]
    rfl

end

/-- A valve with a status byte under its speed. -/
def valveDocument : Value := .map [
  (.str "type", .str "struct"), (.str "name", .str "valve"),
  (.str "fields", .list [
    .map [(.str "type", .str "word"), (.str "name", .str "speed"), (.str "bits", 16)],
    .map [(.str "type", .str "bitfield"), (.str "name", .str "status"), (.str "bits", 8),
      (.str "fields", .list [
        .map [(.str "name", .str "nan"), (.str "bits", 1)], .map [(.str "bits", 7)]])]])]

theorem table_lists_valveDocument :
    ∃ raw root, validate ⟨valveDocument, []⟩ none = .ok () ∧ ofValue valveDocument = .ok raw ∧
      raw.WidthsWhole ∧ raw.Unbroken ∧ raw.resolve = .ok root ∧ root.SizesWritten ∧
      root.visits.map Visit.indentedName = ["valve", "  valve_speed", "  valve_status",
        "    valve_status_nan", "    valve_status_f1"] ∧
      ∃ table, root.table = .ok table ∧ root.ListedBy table := by
  have hvalid : validate ⟨valveDocument, []⟩ none = .ok () :=
    validate_eq_ok_iff.2 (by decide +kernel)
  have hall : (ofValue valveDocument).toOption.any (fun raw : Field =>
      decide (raw.WidthsWhole ∧ raw.Unbroken) && raw.resolve.toOption.any fun root : Field =>
        decide (root.SizesWritten ∧ ¬root.IsLoneNumberWord ∧ root.visits.map Visit.indentedName
          = ["valve", "  valve_speed", "  valve_status", "    valve_status_nan",
            "    valve_status_f1"])) = true := by
    decide +kernel
  obtain ⟨raw, hraw, hall⟩ := exists_of_any hall
  obtain ⟨hnames, hall⟩ := Bool.and_eq_true_iff.1 hall
  obtain ⟨hwidths, hunbroken⟩ := of_decide_eq_true hnames
  obtain ⟨root, hroot, hall⟩ := exists_of_any hall
  obtain ⟨hsizes, hlone, hvisits⟩ := of_decide_eq_true hall
  obtain ⟨hlists, -⟩ := table_lists hvalid hraw hwidths hunbroken hroot
  obtain ⟨table, htable, hlisted⟩ := hlists hsizes
  exact ⟨raw, root, hvalid, hraw, hwidths, hunbroken, hroot, hsizes, hvisits, table, htable,
    hlisted.2 hlone⟩

/-- A word under a name that counts as a number. -/
def nanDocument : Value := .map [
  (.str "type", .str "word"), (.str "name", .str "NaN"), (.str "bits", 8)]

/-- What is read from it. -/
def nanWord : Field := word { header := { name := some (.str "NaN") }, bits := 8 }

/-- The table of this word has another name in it. -/
theorem table_nanWord :
    validate ⟨nanDocument, []⟩ none = .ok () ∧ ofValue nanDocument = .ok nanWord ∧
      nanWord.WidthsWhole ∧ nanWord.Unbroken ∧
      nanWord.resolve = .ok (nanWord.located [] 0 0) ∧ (nanWord.located [] 0 0).SizesWritten ∧
      ∃ table, (nanWord.located [] 0 0).table = .ok table ∧
        (Text.splitLines table).drop 2 = ["  nan  word    0x0            8       64"] ∧
        ¬(nanWord.located [] 0 0).ListedBy table := by
  have hvalid : validate ⟨nanDocument, []⟩ none = .ok () :=
    validate_eq_ok_iff.2 (by decide +kernel)
  have hall : (nanWord.located [] 0 0).table.toOption.any (fun table : Text =>
      decide ((Text.splitLines table).drop 2 = ["  nan  word    0x0            8       64"]))
        = true := by
    decide +kernel
  obtain ⟨table, htable, hall⟩ := exists_of_any hall
  have hline := of_decide_eq_true hall
  refine ⟨hvalid, rfl, by decide, by decide, rfl, by decide +kernel, table, htable, hline, ?_⟩
  rintro ⟨header, rule, lines, hsplit, -, -, hlisted⟩
  rw [hsplit, List.drop_succ_cons, List.drop_succ_cons, List.drop_zero] at hline
  rw [hline] at hlisted
  obtain ⟨hname, -⟩ := List.forall₂_cons.1 hlisted
  exact absurd hname (by decide)

end Field

end RegisterLayout
