import RegisterLayout.Proofs.DrawnEntries

/-!
# The legend of a diagram

The legend of a diagram has a line for every entry of its tree, in their order, and the lines that
have a label belong to the cells one by one.  No two labels are the same, and each stands in the
middle of its cell.  A label can be empty, though only one, and only for a name that vanishes.

Principal definition: `Diagram.Shows`.
Principal results: `Field.diagram_shows`, `label_empty_iff`.
-/

namespace RegisterLayout

/-! ## Lines and cells -/

/-- A cell stands for a drawn entry. -/
structure Drawn.HasCell (x : Drawn) (cell : Cell) : Prop where
  rows : 1 ≤ x.entry.width ∧ (x.entry.width < 32 ∨ 32 ∣ x.entry.width)
  label : ∃ label, x.label = some label ∧ cell.Shows label x.entry.width

/-- A diagram shows drawn entries. -/
structure Diagram.Shows (d : Diagram) (ds : List Drawn) : Prop where
  lines : d.legend = ds.map Drawn.line
  /-- The lines with a label are those of the entries with a cell. -/
  labelled : d.legend.filter (·.label.isSome) = (ds.filter (·.entry.hasCell)).map Drawn.line
  names : ∀ before x after, ds = before ++ x :: after →
    x.name = x.entry.nameAfter (before.map Drawn.entry)
  distinct : (ds.filterMap Drawn.label).Nodup
  cells : List.Forall₂ Drawn.HasCell (ds.filter (·.entry.hasCell)) d.cells

namespace Field

variable {raw root : Field} {d : Diagram}

/-- **The lines and the cells of a diagram are those of the entries of its tree.** -/
theorem diagram_shows (hraw : raw.SizesWhole) (h : raw.resolve = .ok root)
    (hd : root.diagram = .ok d) :
    ∃ ds : List Drawn, ds.map Drawn.entry = root.entries ∧ d.Shows ds := by
  obtain ⟨ds, hds, hcells, hlegend, -⟩ := exists_of_diagram_eq_ok hraw h hd
  refine ⟨ds, hds.entries, ?_⟩
  constructor
  case lines => exact hlegend
  case labelled =>
    rw [hlegend, List.filter_map]
    congr 1
    refine List.filter_congr fun x hx => ?_
    show (x.label.map Value.str).isSome = _
    rw [Option.isSome_map, (hds.inOrder.of_mem hx).1]
  case names =>
    rintro before x after rfl
    rw [hds.inOrder.split.2.2, canvasOf_nameFor]
  case distinct => exact hds.inOrder.labels_nodup
  case cells =>
    rw [hcells]
    refine forall₂_filter_filterMap ?_ ?_
    · intro x hx
      rw [← (hds.inOrder.of_mem hx).1, Drawn.cell?, Option.isSome_map]
    · intro x hx cell hcell
      obtain ⟨label, hlabel, hpos, hplace, hshows⟩ := hds.cell_of_mem hx hcell
      have hrows : x.entry.width < 32 ∨ 32 ∣ x.entry.width := by
        rcases Int.lt_or_le x.entry.width 32 with hnarrow | htall
        · exact .inl hnarrow
        · exact .inr (hplace.tall htall).1
      exact ⟨⟨hpos, hrows⟩, label, hlabel, hshows⟩

theorem diagram_shows_statusBlock :
    statusBlock.SizesWhole ∧ ∃ root d, statusBlock.resolve = .ok root ∧ root.diagram = .ok d ∧
      ∃ ds : List Drawn, ds.map Drawn.entry = root.entries ∧ d.Shows ds := by
  obtain ⟨hwhole, root, d, hresolve, hd, -⟩ := exists_diagram_statusBlock
  exact ⟨hwhole, root, d, hresolve, hd, diagram_shows hwhole hresolve hd⟩

end Field

/-! ## Empty labels -/

theorem isUsableLabel_reverse {n : Int} {taken : List Text} {candidate : Text} :
    isUsableLabel n taken.reverse candidate = isUsableLabel n taken candidate := by
  rw [Bool.eq_iff_iff, isUsableLabel_iff, isUsableLabel_iff, List.mem_reverse]

/-- The order in which labels were taken does not count. -/
theorem vanishes_reverse {name : Text} {n : Int} {taken : List Text} :
    Vanishes name n taken.reverse ↔ Vanishes name n taken := by
  have hown : IsOwnLabel name n taken.reverse ↔ IsOwnLabel name n taken := by
    rw [IsOwnLabel, IsOwnLabel, List.mem_reverse]
  constructor
  · intro h
    exact ⟨h.several, fun h' => h.notOwn (hown.2 h'), h.consonants,
      isUsableLabel_reverse ▸ h.joined⟩
  · intro h
    exact ⟨h.several, fun h' => h.notOwn (hown.1 h'), h.consonants,
      isUsableLabel_reverse.symm ▸ h.joined⟩

theorem ofString_append_ne_nil {s t : String} (hs : s.toList ≠ []) :
    Text.ofString (s ++ t) ≠ [] := by
  intro h
  have hchars : (s ++ t).toList = [] := List.map_eq_nil_iff.1 h
  rw [String.toList_append, List.append_eq_nil_iff] at hchars
  exact hs hchars.1

/-- No entry has an empty name. -/
theorem Entry.nameAfter_ne_nil {e : Entry} (he : e.Sound) (before : List Entry) :
    e.nameAfter before ≠ [] := by
  rw [Entry.nameAfter, Header.nameOr]
  cases hname : e.header.givenName? with
  | some name =>
    obtain ⟨s, rfl, -⟩ := he.nameAllowed.name name hname
    rintro hs
    have htruthy := (Option.filter_eq_some_iff.1 hname).2
    rw [show s = [] from hs] at htruthy
    cases htruthy
  | none =>
    cases e.hasCell
    · exact ofString_append_ne_nil (by decide)
    · exact ofString_append_ne_nil (by decide)

/-- When the label of an entry is empty. -/
theorem InOrder.label_eq_nil_iff {before after : List Drawn} {x : Drawn}
    (h : InOrder (before ++ x :: after)) (hx : x.entry.Sound) :
    x.label = some [] ↔ x.entry.hasCell = true ∧ [] ∉ before.filterMap Drawn.label ∧
      Vanishes x.name (cellLetters x.entry.width) (before.filterMap Drawn.label) := by
  obtain ⟨hfound, -, hname⟩ := h.split
  obtain ⟨hcell, hfits⟩ := labelFor_eq_ok hfound
  have hnonempty : x.name ≠ [] := by
    rw [hname, canvasOf_nameFor]
    exact Entry.nameAfter_ne_nil hx _
  rw [Canvas.labelFor, canvasOf_taken, ← hname] at hfound
  cases hlabel : x.label with
  | none =>
    rw [hlabel] at hcell
    simp [← hcell]
  | some label =>
    rw [hlabel] at hcell hfits hfound
    have hhas : x.entry.hasCell = true := hcell.symm
    rw [if_pos hhas, bind_eq_ok_iff] at hfound
    obtain ⟨l, hl, heq⟩ := hfound
    obtain rfl := Option.some.inj (Except.ok.inj heq)
    have hroom := one_le_cellLetters (one_le_of_fits (hfits l rfl).2)
    have hnil := @findLabel_eq_ok_nil_iff _ _ (before.filterMap Drawn.label).reverse hnonempty hroom
    rw [hl, Except.ok.injEq, List.mem_reverse, vanishes_reverse] at hnil
    rw [Option.some.injEq, hnil, and_iff_right hhas]

/-- **A label is empty exactly if its name vanishes and no label before it was empty**, whatever
the name and the labels that are taken, and in the diagrams of accepted trees. -/
theorem label_empty_iff {name : Text} {n : Int} (hname : name ≠ []) (hn : 1 ≤ n)
    (taken : List Text) :
    (findLabel name (.int n) taken = .ok [] ↔ [] ∉ taken ∧ Vanishes name n taken) ∧
    ∀ (raw root : Field) (d : Diagram), raw.SizesWhole → raw.resolve = .ok root →
      root.diagram = .ok d →
        ∃ ds : List Drawn, ds.map Drawn.entry = root.entries ∧ d.legend = ds.map Drawn.line ∧
          ∀ before x after, ds = before ++ x :: after →
            (x.label = some [] ↔ x.entry.hasCell = true ∧ [] ∉ before.filterMap Drawn.label ∧
              Vanishes x.name (cellLetters x.entry.width) (before.filterMap Drawn.label)) := by
  refine ⟨findLabel_eq_ok_nil_iff hname hn, ?_⟩
  intro raw root d hraw h hd
  obtain ⟨ds, hds, -, hlegend, -⟩ := Field.exists_of_diagram_eq_ok hraw h hd
  refine ⟨ds, hds.entries, hlegend, ?_⟩
  rintro before x after rfl
  have hx := hds.mem_entries (List.mem_append_right _ List.mem_cons_self)
  exact hds.inOrder.label_eq_nil_iff (hds.consecutive.sound _ hx)

/-- A byte with an item of two bits whose name has no consonants. -/
def vowelByte : Field :=
  .bitfield { header := { name := some (.str "b") }, bits := 8, items :=
    [{ header := { name := some (.str "aeio") }, bits := 2 }, { bits := 6 }] }

theorem label_empty_iff_vowelByte :
    ("aeio" : Text) ≠ [] ∧ (1 : Int) ≤ 3 ∧
      (findLabel "aeio" (.int 3) [] = .ok [] ↔
        [] ∉ ([] : List Text) ∧ Vanishes "aeio" 3 []) ∧
      vowelByte.SizesWhole ∧ ∃ root d, vowelByte.resolve = .ok root ∧ root.diagram = .ok d ∧
        ∃ ds : List Drawn, ds.map Drawn.entry = root.entries ∧ d.legend = ds.map Drawn.line ∧
          ∀ before x after, ds = before ++ x :: after →
            (x.label = some [] ↔ x.entry.hasCell = true ∧ [] ∉ before.filterMap Drawn.label ∧
              Vanishes x.name (cellLetters x.entry.width) (before.filterMap Drawn.label)) := by
  have hwhole : vowelByte.SizesWhole := by decide
  have hresolve : vowelByte.resolve = .ok (vowelByte.located [] 0 0) := rfl
  have hdrawn : (vowelByte.located [] 0 0).diagram.isOk = true := by decide +kernel
  obtain ⟨d, hd⟩ := exists_of_isOk hdrawn
  obtain ⟨hempty, hdiagrams⟩ := @label_empty_iff "aeio" 3 (by decide) (by decide) []
  exact ⟨by decide, by decide, hempty, hwhole, _, d, hresolve, hd,
    hdiagrams _ _ d hwhole hresolve hd⟩

/-- Not every label has a letter. -/
theorem findLabel_vowelByte :
    findLabel "aeio" (.int 3) [] = .ok [] ∧
      ∃ root d, vowelByte.SizesWhole ∧ vowelByte.resolve = .ok root ∧ root.diagram = .ok d ∧
        ∃ line ∈ d.legend, line.label.map Value.text = some [] := by
  have hdrawn : (vowelByte.located [] 0 0).diagram.isOk = true := by decide +kernel
  have hlegend : (vowelByte.located [] 0 0).diagram.toOption.any (fun d =>
      d.legend.any fun line => line.label.map Value.text = some []) = true := by decide +kernel
  obtain ⟨d, hd⟩ := exists_of_isOk hdrawn
  rw [hd] at hlegend
  obtain ⟨line, hline, hempty⟩ := List.any_eq_true.1 hlegend
  exact ⟨rfl, _, d, by decide, rfl, hd, line, hline, of_decide_eq_true hempty⟩

end RegisterLayout
