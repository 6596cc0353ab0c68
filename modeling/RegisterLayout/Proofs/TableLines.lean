import RegisterLayout.Proofs.CommentText
import RegisterLayout.Proofs.TableFailures

/-!
# Lines of tables

A table of printed characters has a line for its headers, a rule, and one line for every row.  In
each line the cells of the row are between blanks, and in a column that is none of numbers they
begin where the column begins: the first cell of a row, unless its column is set as numbers, is what
the line of the row begins with.

Principal definitions: `Text.IsPrinted`, `TextTable.Column.Shows`, `TextTable.tableLines`.
Principal results: `Text.splitLines_joined`, `TextTable.lines_eq_ok_iff`,
`TextTable.shows_of_setColumn`, `TextTable.prefix_rowLine`.
-/

namespace RegisterLayout

/-! ## Printed characters -/

/-- A character of ASCII that is no control. -/
def CodePoint.isPrinted : CodePoint → Bool := holds fun c => 0x20 ≤ c.toNat && c.toNat < 0x7F

namespace Text

/-- A text of printed characters. -/
def IsPrinted (s : Text) : Prop := ∀ c ∈ s, c.isPrinted = true

instance (s : Text) : Decidable s.IsPrinted := inferInstanceAs (Decidable (∀ c ∈ s, _))

variable {s t separator : Text} {parts ls : List Text}

theorem isPrinted_append : (s ++ t).IsPrinted ↔ s.IsPrinted ∧ t.IsPrinted := List.forall_mem_append

theorem blanks_add (m n : Nat) : blanks (m + n) = blanks m ++ blanks n := List.replicate_add ..

theorem isPrinted_blanks (n : Nat) : (blanks n).IsPrinted := by
  intro c hc
  rw [List.eq_of_mem_replicate hc]
  decide

/-- What is known of the separator and of the parts is known of what they make up. -/
theorem forall_mem_joined {P : CodePoint → Prop} (hseparator : ∀ c ∈ separator, P c)
    (hparts : ∀ s ∈ parts, ∀ c ∈ s, P c) : ∀ c ∈ joined separator parts, P c := by
  induction parts with
  | nil => exact List.forall_mem_nil P
  | cons s parts ih =>
    obtain ⟨hs, hmore⟩ := List.forall_mem_cons.1 hparts
    cases parts with
    | nil => rwa [joined, List.intercalate_singleton]
    | cons t parts =>
      rw [joined, List.intercalate_cons_cons]
      exact List.forall_mem_append.2 ⟨List.forall_mem_append.2 ⟨hs, hseparator⟩, ih hmore⟩

/-- A property of printed characters that is decided for all of them. -/
theorem forall_printed {P : CodePoint → Prop}
    (h : ∀ n < 128, (CodePoint.char (Char.ofNat n)).isPrinted = true → P (.char (Char.ofNat n)))
    {c : CodePoint} (hc : c.isPrinted = true) : P c := by
  cases c with
  | surrogate i => cases hc
  | char c =>
    have hascii : c.toNat < 128 := by
      have hbounds : 0x20 ≤ c.toNat ∧ c.toNat < 0x7F := by
        simpa [CodePoint.isPrinted, CodePoint.holds] using hc
      omega
    exact forall_ascii (P := fun c => (CodePoint.char c).isPrinted = true → P (.char c)) h hascii hc

theorem holds_isLineBoundary_of_isPrinted {c : CodePoint} (hc : c.isPrinted = true) :
    c.holds isLineBoundary = false :=
  forall_printed (P := fun c => c.holds isLineBoundary = false) (by decide) hc

theorem eq_blank_of_isPrinted {c : CodePoint} (hc : c.isPrinted = true)
    (hblank : c.holds isBlank = true) : c = .char ' ' :=
  forall_printed (P := fun c => c.holds isBlank = true → c = .char ' ') (by decide) hc hblank

theorem IsPrinted.not_mem (h : s.IsPrinted) {c : CodePoint} (hc : c.isPrinted = false) : c ∉ s :=
  fun hmem => absurd (h c hmem) (by simp [hc])

theorem IsPrinted.stripRight (h : s.IsPrinted) : (stripRight s).IsPrinted := by
  obtain ⟨blanks, hs, -⟩ := exists_stripRight_append s
  rw [← hs, isPrinted_append] at h
  exact h.1

/-- A text without its spaces. -/
def unspaced (s : Text) : Text := s.filter (· ≠ .char ' ')

theorem unspaced_append (s t : Text) : unspaced (s ++ t) = unspaced s ++ unspaced t :=
  List.filter_append s t

theorem unspaced_blanks (n : Nat) : unspaced (blanks n) = [] := by
  simp [unspaced, blanks]

/-- What is stripped off printed characters is spaces. -/
theorem IsPrinted.unspaced_stripRight (h : s.IsPrinted) :
    unspaced (Text.stripRight s) = unspaced s := by
  obtain ⟨blanks, hs, hblanks⟩ := exists_stripRight_append s
  have hprinted : blanks.IsPrinted := (isPrinted_append.1 (hs.symm ▸ h)).2
  have hnone : unspaced blanks = [] := by
    refine List.filter_eq_nil_iff.2 fun c hc => ?_
    simp [eq_blank_of_isPrinted (hprinted c hc) (hblanks c hc)]
  conv_rhs => rw [← hs, unspaced_append, hnone, List.append_nil]

theorem unspaced_joined (hseparator : unspaced separator = []) :
    unspaced (joined separator parts) = parts.flatMap unspaced := by
  induction parts with
  | nil => rfl
  | cons s parts ih =>
    cases parts with
    | nil => rw [joined, List.intercalate_singleton, List.flatMap_singleton]
    | cons t parts =>
      rw [joined, List.intercalate_cons_cons, unspaced_append, unspaced_append, hseparator,
        List.append_nil, List.flatMap_cons]
      exact congrArg (unspaced s ++ ·) ih

/-! ## Lines of printed characters -/

/-- Printed characters belong to the line under way. -/
theorem splitLinesFrom_append (h : s.IsPrinted) (line rest : Text) :
    splitLinesFrom line (s ++ rest) = splitLinesFrom (s.reverse ++ line) rest := by
  induction s generalizing line with
  | nil => rfl
  | cons c s ih =>
    obtain ⟨hc, hs⟩ := List.forall_mem_cons.1 h
    have hstep : splitLinesFrom line (c :: (s ++ rest))
        = splitLinesFrom (c :: line) (s ++ rest) := by
      rw [splitLinesFrom]
      · rw [holds_isLineBoundary_of_isPrinted hc, if_neg Bool.false_ne_true]
      · rintro more rfl -
        exact absurd hc (by decide)
    rw [List.cons_append, hstep, ih hs, List.reverse_cons, List.append_assoc]
    rfl

/-- **Printed lines are the lines of the text that they make up**, if the last is not empty. -/
theorem splitLines_joined (h : ∀ l ∈ ls, l.IsPrinted) (hlast : ls.getLast? ≠ some []) :
    splitLines (joined "\n" ls) = ls := by
  induction ls with
  | nil => rfl
  | cons l ls ih =>
    obtain ⟨hl, hls⟩ := List.forall_mem_cons.1 h
    cases ls with
    | nil =>
      have hne : l.reverse.isEmpty = false := by simpa using hlast
      have hend := splitLinesFrom_append hl [] []
      rw [List.append_nil, List.append_nil] at hend
      rw [joined, List.intercalate_singleton, splitLines, hend, splitLinesFrom, hne,
        List.reverse_reverse]
      rfl
    | cons l' ls =>
      have hbreak : ∀ (line rest : Text), splitLinesFrom line (ofString "\n" ++ rest)
          = line.reverse :: splitLinesFrom [] rest := by
        intro line rest
        show splitLinesFrom line (.char '\n' :: rest) = _
        rw [splitLinesFrom]
        · rfl
        · simp
      rw [List.getLast?_cons_cons] at hlast
      rw [joined, List.intercalate_cons_cons, splitLines, List.append_assoc,
        splitLinesFrom_append hl, hbreak, List.append_nil, List.reverse_reverse]
      exact congrArg (l :: ·) (ih hls hlast)

end Text

/-! ## Texts of cells -/

namespace ColumnKind

/-- The column of cells counts as truth values or as one of them counts. -/
theorem ofCells_mem (cells : List Value) :
    ofCells cells = .truth ∨ ∃ cell ∈ cells, ofCells cells = ofCell cell := by
  have hfold : ∀ (kinds : List ColumnKind) (k : ColumnKind),
      kinds.foldl join k = k ∨ kinds.foldl join k ∈ kinds := by
    intro kinds
    induction kinds with
    | nil => exact fun k => .inl rfl
    | cons a kinds ih =>
      intro k
      have hjoin : k.join a = k ∨ k.join a = a := by
        unfold join
        split
        · exact .inr rfl
        · exact .inl rfl
      rcases ih (k.join a) with hfirst | hmem
      · rw [List.foldl_cons, hfirst]
        exact hjoin.imp_right fun ha => List.mem_cons.2 (.inl ha)
      · exact .inr (List.mem_cons_of_mem a hmem)
  refine (hfold (cells.map ofCell) .truth).imp_right fun hmem => ?_
  obtain ⟨cell, hcell, hkind⟩ := List.mem_map.1 hmem
  exact ⟨cell, hcell, hkind.symm⟩

/-- A printed cell is shown as it is, or it is missing. -/
theorem cellText_of_isPrinted {k : ColumnKind} (hk : k ≠ .real) {cell : Value} {s : Text}
    (hcell : cell.text.IsPrinted) (h : k.cellText false cell = .ok s) :
    cell = .null ∧ s = [] ∨ s = cell.text := by
  unfold cellText at h
  split at h
  · exact .inl ⟨rfl, (Except.ok.inj h).symm⟩
  · exact .inr (Except.ok.inj h).symm
  · next s _ =>
    have hmark : Text.escapeMark ∉ s := hcell.not_mem (by decide)
    rw [wholeText_eq_self hmark] at h
    exact .inr (Except.ok.inj h).symm
  · exact absurd rfl hk
  · exact absurd rfl hk
  · exact .inr (written_eq_ok h)

end ColumnKind

namespace TextTable

/-! ## Tables without escapes and line breaks -/

/-- The setting of a table in which no cell has an escape or several lines. -/
def Setting.plain : Setting := ⟨false, false⟩

theorem Setting.ofRows_eq_plain {headers : List Text} {rows : List (List Value)}
    (h : ∀ s ∈ headers ++ rows.flatten.map Value.text, s.IsPrinted) :
    Setting.ofRows headers rows = .plain := by
  have hbroken : (Setting.ofRows headers rows).broken = false :=
    Setting.broken_ofRows fun s hs => ⟨(h s hs).not_mem (by decide), (h s hs).not_mem (by decide)⟩
  have hescapes : (Setting.ofRows headers rows).escapes = false := by
    refine Text.hasEscape_eq_false fun hmem => ?_
    refine absurd rfl (Text.forall_mem_joined (P := (· ≠ Text.escapeMark)) (by decide) ?_ _ hmem)
    rintro s hs c hc rfl
    exact absurd (h s hs _ hc) (by decide)
  exact congrArg₂ Setting.mk hescapes hbroken

theorem setCell_plain (numeric : Bool) (width : Nat) (s : Text) :
    setCell .plain numeric width s = fill numeric width s := by
  have hlength : lengthFor .plain width s = width := congrArg (width + ·) (Nat.sub_self s.length)
  rw [setCell, hlength]
  rfl

/-- The cells of a row in one line. -/
def rowLine (cells : List Text) : Text := Text.stripRight (Text.joined "  " cells)

theorem setRow_plain {cells : List (Nat × Text)} (hne : cells ≠ []) :
    setRow .plain cells = [rowLine (cells.map Prod.snd)] := by
  have hheight : (cells.map fun _ => 1).foldl max 0 = 1 := by
    have hones : ∀ cells : List (Nat × Text), (cells.map fun _ => 1).foldl max 1 = 1 := by
      intro cells
      induction cells with
      | nil => rfl
      | cons _ cells ih => rwa [List.map_cons, List.foldl_cons, Nat.max_self]
    cases cells with
    | nil => exact absurd rfl hne
    | cons _ cells => exact hones cells
  simp only [setRow, Setting.plain, Bool.false_eq_true, if_false, List.map_map, Function.comp_def,
    List.length_singleton, hheight, List.range_one, List.map_singleton, List.getElem?_cons_zero,
    Option.getD_some]
  rfl

theorem isPrinted_cells {cells : List Text} (h : ∀ s ∈ cells, s.IsPrinted) :
    (Text.joined "  " cells).IsPrinted :=
  Text.forall_mem_joined (P := fun c => c.isPrinted = true) (by decide) h

theorem isPrinted_rowLine {cells : List Text} (h : ∀ s ∈ cells, s.IsPrinted) :
    (rowLine cells).IsPrinted :=
  (isPrinted_cells h).stripRight

/-- Apart from spaces a line has what its cells have. -/
theorem unspaced_rowLine {cells : List Text} (h : ∀ s ∈ cells, s.IsPrinted) :
    (rowLine cells).unspaced = cells.flatMap Text.unspaced := by
  rw [rowLine, (isPrinted_cells h).unspaced_stripRight]
  exact Text.unspaced_joined (by decide)

/-- **A line begins with its first cell as far as that is filled up with blanks only**, if there is
anything behind it. -/
theorem prefix_rowLine {s second : Text} {rest : List Text} (n : Nat)
    (hsecond : ∃ c ∈ second, c.holds Text.isBlank = false) :
    s ++ Text.blanks 2 <+: rowLine ((s ++ Text.blanks n) :: second :: rest) := by
  obtain ⟨c, hc, hblank⟩ := hsecond
  obtain ⟨before, after, rfl⟩ := List.append_of_mem hc
  have hjoined : ∃ more, Text.joined "  " ((s ++ Text.blanks n) :: (before ++ c :: after) :: rest)
      = (s ++ Text.blanks (2 + n) ++ before) ++ c :: more := by
    have hblanks : Text.blanks n ++ Text.ofString "  " = Text.blanks (2 + n) := by
      rw [Nat.add_comm, Text.blanks_add]
      rfl
    rw [← hblanks]
    cases rest with
    | nil => exact ⟨after, by simp [Text.joined, List.intercalate_cons_cons]⟩
    | cons t rest =>
      exact ⟨after ++ "  " ++ Text.joined "  " (t :: rest),
        by simp [Text.joined, List.intercalate_cons_cons]⟩
  obtain ⟨more, hmore⟩ := hjoined
  rw [rowLine, hmore, Text.stripRight_append_cons hblank, Text.blanks_add]
  simp only [List.append_assoc, List.prefix_append_right_inj]
  exact List.prefix_append _ _

/-! ## Columns -/

/-- A text between blanks, none of which are before it unless it is in a column of numbers. -/
def Pads (numeric : Bool) (s t : Text) : Prop :=
  ∃ before after, t = Text.blanks before ++ s ++ Text.blanks after ∧ (numeric = false → before = 0)

theorem pads_fill {s t : Text} {n : Nat} (h : t = s ++ Text.blanks n) (numeric : Bool)
    (width : Nat) : Pads numeric s (fill numeric width t) := by
  subst h
  cases numeric with
  | true => exact ⟨_, n, (List.append_assoc _ _ _).symm, fun h => absurd h (by decide)⟩
  | false =>
    refine ⟨0, n + (width - (s ++ Text.blanks n).length), ?_, fun _ => rfl⟩
    rw [Text.blanks_add, ← List.append_assoc]
    rfl

theorem Pads.isPrinted {numeric : Bool} {s t : Text} (h : Pads numeric s t) (hs : s.IsPrinted) :
    t.IsPrinted := by
  obtain ⟨before, after, rfl, -⟩ := h
  rw [Text.isPrinted_append, Text.isPrinted_append]
  exact ⟨⟨Text.isPrinted_blanks _, hs⟩, Text.isPrinted_blanks _⟩

theorem Pads.unspaced {numeric : Bool} {s t : Text} (h : Pads numeric s t) :
    t.unspaced = s.unspaced := by
  obtain ⟨before, after, rfl, -⟩ := h
  rw [Text.unspaced_append, Text.unspaced_append, Text.unspaced_blanks, Text.unspaced_blanks,
    List.append_nil]
  rfl

/-- The cells of all rows at one place. -/
def columnCells (rows : List (List Value)) (i : Nat) : List Value :=
  rows.map fun row => (row[i]?).getD .null

theorem forall_mem_columnCells {P : Value → Prop} (hnull : P .null) {rows : List (List Value)}
    (h : ∀ row ∈ rows, ∀ cell ∈ row, P cell) (i : Nat) : ∀ cell ∈ columnCells rows i, P cell := by
  refine List.forall_mem_map.2 fun row hrow => ?_
  cases hcell : row[i]? with
  | none => exact hnull
  | some cell => exact h row hrow cell (List.mem_of_getElem? hcell)

/-- A column that shows its header and cells, filled up with blanks. -/
structure Column.Shows (c : Column) (header : Text) (cells : List Value) : Prop where
  header : Pads (ColumnKind.ofCells cells).isNumeric header c.header
  cells : List.Forall₂ (fun cell t => ∃ s, (ColumnKind.ofCells cells).cellText false cell = .ok s ∧
    Pads (ColumnKind.ofCells cells).isNumeric s t) cells c.cells

/-- **What is set as a column shows its header and its cells.** -/
theorem shows_of_setColumn {header : Text} {cells : List Value} {c : Column}
    (h : setColumn .plain header cells = .ok c) : c.Shows header cells := by
  simp only [setColumn, bind_eq_ok_iff, pure_eq_ok_iff] at h
  obtain ⟨texts, htexts, rfl⟩ := h
  constructor
  · exact pads_fill (n := 0) (List.append_nil header).symm _ _
  · -- Blanks are put behind numbers, and then around all cells.
    obtain ⟨n, hn⟩ : ∃ n : Text → Nat,
        (if (ColumnKind.ofCells cells).isNumeric then alignPoints texts else texts)
          = texts.map fun s => s ++ Text.blanks (n s) := by
      split
      · exact ⟨_, rfl⟩
      · exact ⟨fun _ => 0, by simp [Text.blanks]⟩
    simp only [hn, List.map_map, List.forall₂_map_right_iff]
    refine (mapM_eq_ok_forall₂ htexts).imp fun cell s hs => ⟨s, hs, ?_⟩
    rw [Function.comp_apply, setCell_plain]
    exact pads_fill rfl _ _

theorem exists_setColumn (header : Text) {cells : List Value}
    (h : ∀ cell ∈ cells, ∃ s, (ColumnKind.ofCells cells).cellText false cell = .ok s) :
    ∃ c, setColumn .plain header cells = .ok c := by
  cases hset : setColumn .plain header cells with
  | ok c => exact ⟨c, rfl⟩
  | error e => exact (failsOnly_setColumn (p := fun _ => False) h e hset).elim

/-! ## Tables -/

/-- The columns of a table, one for each header. -/
def setColumns (headers : List Text) (rows : List (List Value)) : Except Failure (List Column) :=
  headers.zipIdx.mapM fun p => setColumn .plain p.1 (columnCells rows p.2)

/-- The rule below the headers. -/
def ruleLine (columns : List Column) : Text :=
  Text.stripRight (Text.joined "  " (columns.map fun c => List.replicate c.width (.char '-')))

/-- The lines of a table with so many rows. -/
def tableLines (columns : List Column) (count : Nat) : List Text :=
  rowLine (columns.map Column.header) :: ruleLine columns ::
    (List.range count).map fun k => rowLine (columns.map fun c => (c.cells[k]?).getD [])

section

variable {headers : List Text} {rows : List (List Value)}

theorem mapM_mapIdx_eq (f : Nat → Text → Except Failure Column) :
    (headers.mapIdx f).mapM id = headers.zipIdx.mapM fun p => f p.2 p.1 := by
  rw [List.mapIdx_eq_zipIdx_map, List.mapM_map]
  rfl

theorem arrange_of_rows {rule : List Text} (hrules : ∀ row ∈ rows, isRule row = false)
    {set : List (List Text)} (hlength : set.length = rows.length) :
    arrange rule rows set = set.flatten := by
  induction rows generalizing set with
  | nil =>
    obtain rfl := List.length_eq_zero_iff.1 hlength
    rfl
  | cons row rows ih =>
    obtain ⟨hrow, hrules⟩ := List.forall_mem_cons.1 hrules
    obtain ⟨lines, set, rfl⟩ := List.exists_cons_of_length_eq_add_one hlength
    rw [arrange, hrow, if_neg Bool.false_ne_true, List.tail_cons,
      ih hrules (Nat.succ.inj hlength), List.flatten_cons]
    rfl

variable (hprinted : ∀ s ∈ headers ++ rows.flatten.map Value.text, s.IsPrinted)

include hprinted

theorem isPrinted_text {row : List Value} (hrow : row ∈ rows) {cell : Value} (hcell : cell ∈ row) :
    cell.text.IsPrinted :=
  hprinted _ (List.mem_append_right _ (List.mem_map_of_mem (List.mem_flatten_of_mem hrow hcell)))

theorem isRule_of_printed : ∀ row ∈ rows, isRule row = false := by
  refine fun row hrow => isRule_eq_false fun s hs => ?_
  exact (isPrinted_text hprinted hrow hs : s.IsPrinted).not_mem (by decide)

/-- **The lines of a table of printed characters**: that of its headers, a rule, and one for every
row.  It has no lines exactly if a number in it is too long or a column cannot be set. -/
theorem lines_eq_ok_iff (hne : headers ≠ []) {ls : List Text} :
    lines headers rows = .ok ls ↔ (∀ row ∈ rows, ∀ cell ∈ row, cell.isWritable = true) ∧
      ∃ columns, setColumns headers rows = .ok columns ∧ ls = tableLines columns rows.length := by
  have hrules := isRule_of_printed hprinted
  have hcells : rows.filter (!isRule ·) = rows :=
    List.filter_eq_self.2 fun row hrow => by rw [hrules row hrow]; rfl
  have hwritable : (¬(!rows.flatten.all Value.isWritable) = true) ↔
      ∀ row ∈ rows, ∀ cell ∈ row, cell.isWritable = true := by
    simp only [Bool.not_eq_true', Bool.not_eq_false, List.all_eq_true]
    exact List.forall_mem_flatten
  unfold lines
  simp only [hcells, refuse_eq_ok_iff, hwritable, Setting.ofRows_eq_plain hprinted,
    bind_eq_ok_iff, pure_eq_ok_iff]
  refine and_congr_right fun _ => exists_congr fun columns => ?_
  rw [mapM_mapIdx_eq]
  refine and_congr_right fun hcolumns => ?_
  have hsome : columns ≠ [] := by
    rintro rfl
    have hshort := (mapM_eq_ok_forall₂ hcolumns).length_eq
    rw [List.length_zipIdx] at hshort
    exact hne (List.length_eq_zero_iff.1 hshort)
  have hrow : ∀ f : Column → Text, setRow .plain (columns.map fun c => (c.width, f c))
      = [rowLine (columns.map f)] := by
    intro f
    rw [setRow_plain (by simpa using hsome), List.map_map]
    rfl
  simp only [hrow]
  rw [arrange_of_rows hrules (by simp), ← List.flatMap_def, ← List.map_eq_flatMap]
  rfl

/-- A number that is too long is seen before any column is set. -/
theorem lines_of_long {row : List Value} (hrow : row ∈ rows) {cell : Value} (hcell : cell ∈ row)
    (hlong : cell.isWritable = false) : lines headers rows = .error .longNumber := by
  have hrules := isRule_of_printed hprinted
  have hmem : cell ∈ (rows.filter (!isRule ·)).flatten :=
    List.mem_flatten_of_mem (List.mem_filter.2 ⟨hrow, by rw [hrules row hrow]; rfl⟩) hcell
  have hall : (rows.filter (!isRule ·)).flatten.all Value.isWritable = false :=
    List.all_eq_false.2 ⟨cell, hmem, by simp [hlong]⟩
  unfold lines
  simp only [hall, Bool.not_false, if_true]
  rfl

end

/-! ## What is in the lines -/

section

variable {headers : List Text} {rows : List (List Value)} {columns : List Column}

theorem shows_of_setColumns (h : setColumns headers rows = .ok columns) :
    List.Forall₂ (fun p c => Column.Shows c p.1 (columnCells rows p.2)) headers.zipIdx columns :=
  (mapM_eq_ok_forall₂ h).imp fun _ _ => shows_of_setColumn

/-- The line of the headers has nothing else. -/
theorem unspaced_headerLine (h : setColumns headers rows = .ok columns)
    (hprinted : ∀ c ∈ columns, c.header.IsPrinted) :
    (rowLine (columns.map Column.header)).unspaced = headers.flatMap Text.unspaced := by
  have hsame : headers.map Text.unspaced = (columns.map Column.header).map Text.unspaced := by
    rw [← List.zipIdx_map_fst 0 headers, List.map_map, List.map_map, ← List.forall₂_eq_eq_eq,
      List.forall₂_map_left_iff, List.forall₂_map_right_iff]
    exact (shows_of_setColumns h).imp fun _ _ hshows => hshows.header.unspaced.symm
  rw [unspaced_rowLine (List.forall_mem_map.2 hprinted), List.flatMap_def, List.flatMap_def, hsame]

theorem forall_mem_ruleLine : ∀ c ∈ ruleLine columns, c = .char '-' ∨ c = .char ' ' := by
  intro c hc
  obtain ⟨blanks, hs, -⟩ := Text.exists_stripRight_append
    (Text.joined "  " (columns.map fun c => List.replicate c.width (.char '-')))
  have hmem : c ∈ Text.joined "  " (columns.map fun c => List.replicate c.width (.char '-')) :=
    hs ▸ List.mem_append_left blanks hc
  refine Text.forall_mem_joined (P := fun c => c = .char '-' ∨ c = .char ' ') (by decide) ?_ c hmem
  rw [List.forall_mem_map]
  exact fun c _ d hd => .inl (List.eq_of_mem_replicate hd)

/-- A column of printed texts. -/
def Column.IsPrinted (c : Column) : Prop := c.header.IsPrinted ∧ ∀ s ∈ c.cells, s.IsPrinted

theorem Column.Shows.isPrinted {c : Column} {header : Text} {cells : List Value}
    (h : c.Shows header cells) (hheader : header.IsPrinted)
    (hcells : ∀ cell ∈ cells, ∀ s, (ColumnKind.ofCells cells).cellText false cell = .ok s →
      s.IsPrinted) : c.IsPrinted := by
  refine ⟨h.header.isPrinted hheader, fun t ht => ?_⟩
  obtain ⟨cell, hcell, s, hs, hpads⟩ := exists_left_of_forall₂ h.cells ht
  exact hpads.isPrinted (hcells cell hcell s hs)

theorem Column.Shows.exists_cell {c : Column} {header : Text} {cells : List Value}
    (h : c.Shows header cells) {k : Nat} {cell : Value} (hk : cells[k]? = some cell) :
    ∃ s, (ColumnKind.ofCells cells).cellText false cell = .ok s ∧
      Pads (ColumnKind.ofCells cells).isNumeric s ((c.cells[k]?).getD []) := by
  obtain ⟨hlt, hcell⟩ := List.getElem?_eq_some_iff.1 hk
  have hlt' : k < c.cells.length := h.cells.length_eq ▸ hlt
  have hget := h.cells.get hlt hlt'
  rw [List.get_eq_getElem, List.get_eq_getElem, hcell] at hget
  rwa [List.getElem?_eq_getElem hlt', Option.getD_some]

/-- **The lines of a table of printed texts are printed.** -/
theorem isPrinted_tableLines (h : ∀ c ∈ columns, c.IsPrinted) (count : Nat) :
    ∀ l ∈ tableLines columns count, l.IsPrinted := by
  rw [tableLines, List.forall_mem_cons, List.forall_mem_cons, List.forall_mem_map]
  refine ⟨isPrinted_rowLine (List.forall_mem_map.2 fun c hc => (h c hc).1), fun c hc => ?_,
    fun k _ => isPrinted_rowLine (List.forall_mem_map.2 fun c hc => ?_)⟩
  · rcases forall_mem_ruleLine c hc with rfl | rfl
    · rfl
    · rfl
  · cases hcell : c.cells[k]? with
    | none => exact List.forall_mem_nil _
    | some s => exact (h c hc).2 s (List.mem_of_getElem? hcell)

end

end TextTable

end RegisterLayout
