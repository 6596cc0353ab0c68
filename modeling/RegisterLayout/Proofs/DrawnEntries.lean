import Mathlib.Data.List.Induction
import Mathlib.Data.List.Nodup
import RegisterLayout.Proofs.EntryDrawing

/-!
# Entries drawn in their order

A canvas on which entries were drawn holds the cell and the line of each, and the labels that were
chosen; no label was chosen twice.  A drawing of an accepted tree that does not fail comes to such
a canvas, and every cell on it has a place and shows its label.

Principal definitions: `canvasOf`, `InOrder`, `Field.DrawnWith`.
Principal results: `inOrder_of_foldlM`, `Field.DrawnWith.cell_of_mem`,
`Field.exists_of_diagram_eq_ok`.
-/

namespace RegisterLayout

open Entry (Consecutive)

/-- The canvas with some entries drawn. -/
def canvasOf (ds : List Drawn) : Canvas := ds.foldl Canvas.after {}

/-- Entries as they were drawn one after the other, each with the name and the label that it got
when it was its turn. -/
inductive InOrder : List Drawn → Prop
  | nil : InOrder []
  | concat {ds : List Drawn} {e : Entry} {label : Option Text} (drawn : InOrder ds)
      (found : (canvasOf ds).labelFor e = .ok label) (placed : e.refusal? = none) :
      InOrder (ds ++ [⟨e, (canvasOf ds).nameFor e, label⟩])

/-- The entries without a name, of those with cells or of the bit fields. -/
def unnamedCount (hasCell : Bool) (es : List Entry) : Nat :=
  es.countP fun e => e.hasCell == hasCell && e.header.givenName?.isNone

/-- The name of an entry behind others in the legend: what was given or a number. -/
def Entry.nameAfter (before : List Entry) (e : Entry) : Text :=
  e.header.nameOr (if e.hasCell then "unused_" else "bitfield_") (unnamedCount e.hasCell before)

theorem forall₂_filter_filterMap {α β : Type} {R : α → β → Prop} {p : α → Bool}
    {f : α → Option β} {xs : List α} (hsome : ∀ x ∈ xs, (f x).isSome = p x)
    (hrel : ∀ x ∈ xs, ∀ y, f x = some y → R x y) :
    List.Forall₂ R (xs.filter p) (xs.filterMap f) := by
  induction xs with
  | nil => exact .nil
  | cons x xs ih =>
    obtain ⟨hx, hxs⟩ := List.forall_mem_cons.1 hsome
    obtain ⟨hrelx, hrelxs⟩ := List.forall_mem_cons.1 hrel
    cases hf : f x with
    | none =>
      rw [hf, Option.isSome_none] at hx
      rw [List.filter_cons_of_neg (by rw [← hx]; decide), List.filterMap_cons_none hf]
      exact ih hxs hrelxs
    | some y =>
      rw [hf, Option.isSome_some] at hx
      rw [List.filter_cons_of_pos hx.symm, List.filterMap_cons_some hf]
      exact .cons (hrelx y hf) (ih hxs hrelxs)

/-! ## What is on a canvas -/

section

variable {ds : List Drawn}

theorem canvasOf_concat (ds : List Drawn) (d : Drawn) :
    canvasOf (ds ++ [d]) = (canvasOf ds).after d := List.foldl_concat ..

theorem canvasOf_cells (ds : List Drawn) : (canvasOf ds).cells = ds.filterMap Drawn.cell? := by
  induction ds using List.reverseRecOn with
  | nil => rfl
  | append_singleton ds d ih =>
    rw [canvasOf_concat, Canvas.after, ih, List.filterMap_append]
    cases hcell : d.cell? <;> simp [hcell]

theorem canvasOf_legend (ds : List Drawn) : (canvasOf ds).legend = ds.map Drawn.line := by
  induction ds using List.reverseRecOn with
  | nil => rfl
  | append_singleton ds d ih => rw [canvasOf_concat, Canvas.after, ih, List.map_append]; rfl

theorem canvasOf_taken (ds : List Drawn) :
    (canvasOf ds).taken = (ds.filterMap Drawn.label).reverse := by
  induction ds using List.reverseRecOn with
  | nil => rfl
  | append_singleton ds d ih =>
    rw [canvasOf_concat, Canvas.after, ih, List.filterMap_append]
    cases hlabel : d.label <;> simp [hlabel]

/-- The entries with a cell and the bit fields that were given a name are counted apart. -/
theorem canvasOf_unnamed (ds : List Drawn) :
    (canvasOf ds).unnamedFields = unnamedCount true (ds.map Drawn.entry) ∧
      (canvasOf ds).unnamedBitFields = unnamedCount false (ds.map Drawn.entry) := by
  induction ds using List.reverseRecOn with
  | nil => exact ⟨rfl, rfl⟩
  | append_singleton ds d ih =>
    obtain ⟨hfields, hbitFields⟩ := ih
    rw [canvasOf_concat, Canvas.after, hfields, hbitFields, List.map_append, List.map_singleton]
    simp only [unnamedCount, List.countP_append, List.countP_singleton, Header.unnamed]
    cases d.entry.hasCell <;> cases d.entry.header.givenName? <;> simp

theorem canvasOf_nameFor (ds : List Drawn) (e : Entry) :
    (canvasOf ds).nameFor e = e.nameAfter (ds.map Drawn.entry) := by
  obtain ⟨hfields, hbitFields⟩ := canvasOf_unnamed ds
  cases hcell : e.hasCell <;> simp [Canvas.nameFor, Entry.nameAfter, hcell, hfields, hbitFields]

/-- A canvas stands at the bit behind its last entry. -/
theorem canvasOf_bitOffset {stop : Int} (h : Consecutive 0 (ds.map Drawn.entry) stop) :
    (canvasOf ds).bitOffset = .int stop := by
  cases ds using List.reverseRecOn with
  | nil =>
    rw [Consecutive.nil_iff.1 h]
    rfl
  | append_singleton ds d _ =>
    rw [List.map_append, List.map_singleton] at h
    obtain ⟨-, -, rfl⟩ := Consecutive.concat_iff.1 h
    rw [canvasOf_concat, Canvas.after]

end

/-! ## The run of a drawing -/

section

variable {es : List Entry} {stop : Int}

/-- **Drawing consecutive entries comes to the canvas of them, drawn in their order.** -/
theorem inOrder_of_foldlM {c : Canvas} (hes : Consecutive 0 es stop)
    (h : es.foldlM Canvas.drawEntry {} = .ok c) :
    ∃ ds, InOrder ds ∧ ds.map Drawn.entry = es ∧ c = canvasOf ds := by
  induction es using List.reverseRecOn generalizing stop c with
  | nil => exact ⟨[], .nil, rfl, (Except.ok.inj h).symm⟩
  | append_singleton es e ih =>
    -- The last entry begins where those before it have left the canvas.
    obtain ⟨hbefore, hsound, -⟩ := Consecutive.concat_iff.1 hes
    rw [List.foldlM_append, bind_eq_ok_iff] at h
    obtain ⟨before, hrun, hlast⟩ := h
    obtain ⟨ds, hds, rfl, rfl⟩ := ih hbefore hrun
    have hdraw := Canvas.drawEntry_eq hsound (canvasOf_bitOffset hbefore)
    rw [List.foldlM_cons, hdraw] at hlast
    simp only [List.foldlM_nil, bind_pure, bind_eq_ok_iff] at hlast
    obtain ⟨label, hlabel, hplace⟩ := hlast
    cases hrefusal : e.refusal? with
    | some err =>
      rw [hrefusal] at hplace
      cases hplace
    | none =>
      rw [hrefusal, Except.ok.injEq] at hplace
      refine ⟨_, .concat hds hlabel hrefusal, by rw [List.map_append]; rfl, ?_⟩
      rw [canvasOf_concat, hplace]

/-- A label that is found for an entry is there exactly if the entry has a cell, and is new. -/
theorem labelFor_eq_ok {c : Canvas} {e : Entry} {label : Option Text}
    (h : c.labelFor e = .ok label) :
    label.isSome = e.hasCell ∧ ∀ l ∈ label, l ∉ c.taken ∧ l.length ≤ cellLetters e.width := by
  cases hcell : e.hasCell with
  | false =>
    rw [Canvas.labelFor, hcell, if_neg Bool.false_ne_true, Except.ok.injEq] at h
    subst h
    exact ⟨rfl, by simp⟩
  | true =>
    rw [Canvas.labelFor, if_pos hcell, bind_eq_ok_iff] at h
    obtain ⟨l, hfound, hl⟩ := h
    rw [Except.ok.injEq] at hl
    subst hl
    exact ⟨rfl, fun _ hl => Option.mem_some_iff.1 hl ▸ findLabel_fits hfound⟩

namespace InOrder

variable {ds : List Drawn}

theorem split {before after : List Drawn} {x : Drawn} (h : InOrder (before ++ x :: after)) :
    (canvasOf before).labelFor x.entry = .ok x.label ∧ x.entry.refusal? = none ∧
      x.name = (canvasOf before).nameFor x.entry := by
  induction after using List.reverseRecOn with
  | nil =>
    generalize hds : before ++ [x] = ds at h
    cases h with
    | nil => simp at hds
    | concat drawn found placed =>
      obtain ⟨rfl, hx⟩ := List.append_inj' hds rfl
      obtain rfl := List.singleton_inj.1 hx
      exact ⟨found, placed, rfl⟩
  | append_singleton after y ih =>
    generalize hds : before ++ x :: (after ++ [y]) = ds at h
    cases h with
    | nil => simp at hds
    | concat drawn found placed =>
      rw [← List.cons_append, ← List.append_assoc] at hds
      obtain ⟨rfl, -⟩ := List.append_inj' hds rfl
      exact ih drawn

/-- No label was chosen twice. -/
theorem labels_nodup (h : InOrder ds) : (ds.filterMap Drawn.label).Nodup := by
  induction h with
  | nil => exact List.nodup_nil
  | @concat ds e label hds hfound _ ih =>
    have hnew := (labelFor_eq_ok hfound).2
    rw [List.filterMap_append]
    cases label with
    | none => simpa using ih
    | some l =>
      have hfree : l ∉ ds.filterMap Drawn.label := by
        have hl := (hnew l rfl).1
        rwa [canvasOf_taken, List.mem_reverse] at hl
      exact List.nodup_append_comm.1 (List.nodup_cons.2 ⟨hfree, ih⟩)

theorem of_mem (h : InOrder ds) {x : Drawn} (hx : x ∈ ds) :
    x.label.isSome = x.entry.hasCell ∧ (∀ l ∈ x.label, l.length ≤ cellLetters x.entry.width) ∧
      x.entry.refusal? = none := by
  obtain ⟨before, after, rfl⟩ := List.append_of_mem hx
  obtain ⟨hfound, hplaced, -⟩ := h.split
  obtain ⟨hsome, hfits⟩ := labelFor_eq_ok hfound
  exact ⟨hsome, fun l hl => (hfits l hl).2, hplaced⟩

end InOrder

end

/-! ## Drawn trees -/

/-- A placed tree with its entries drawn in their order. -/
structure Field.DrawnWith (root : Field) (ds : List Drawn) : Prop where
  inOrder : InOrder ds
  entries : ds.map Drawn.entry = root.entries
  consecutive : Consecutive 0 root.entries root.bitCount

namespace Field.DrawnWith

variable {root : Field} {ds : List Drawn} {x : Drawn} {e : Entry}

theorem mem_entries (h : root.DrawnWith ds) (hx : x ∈ ds) : x.entry ∈ root.entries :=
  h.entries ▸ List.mem_map_of_mem hx

theorem refusal?_eq_none (h : root.DrawnWith ds) (he : e ∈ root.entries) :
    e.refusal? = none := by
  rw [← h.entries, List.mem_map] at he
  obtain ⟨x, hx, rfl⟩ := he
  exact (h.inOrder.of_mem hx).2.2

/-- Every cell of a drawn tree has a place: items have theirs from their bit fields, which were
not refused either. -/
theorem hasPlace (h : root.DrawnWith ds) (he : e ∈ root.entries) (hcell : e.hasCell = true) :
    HasPlace e.firstBit e.width := by
  refine (h.consecutive.sound e he).hasPlace hcell (h.refusal?_eq_none he) ?_
  rintro b i rfl
  exact h.refusal?_eq_none (heading_mem_entries he)

/-- Items are drawn like other cells. -/
theorem cellWith_eq (h : root.DrawnWith ds) (he : e ∈ root.entries) (label : Text) :
    e.cellWith label = cellOf label e.width := by
  cases h.consecutive.sound e he with
  | @item b i n w endBit ha hb hn hi hpos hrange hlow hhigh hstands =>
    have hheading := h.refusal?_eq_none (heading_mem_entries he)
    have hword : n ≤ 32 := by
      have hplaced := (bitFieldRefusal?_eq_none_iff.1 hheading).1
      rwa [hb, Value.whole_int] at hplaced
    rw [Entry.cellWith, Entry.width, hi, Value.whole_int, cellOf]
    split
    · rfl
    · have hrow : w = 32 := by omega
      subst hrow
      rfl
  | _ => rfl

/-- **Every cell of a drawn tree has a place and shows its label.** -/
theorem cell_of_mem (h : root.DrawnWith ds) (hx : x ∈ ds) {cell : Cell}
    (hcell : x.cell? = some cell) :
    ∃ label, x.label = some label ∧ 1 ≤ x.entry.width ∧
      HasPlace x.entry.firstBit x.entry.width ∧ cell.Shows label x.entry.width := by
  obtain ⟨hhas, hfits, -⟩ := h.inOrder.of_mem hx
  obtain ⟨label, hlabel, rfl⟩ := Option.map_eq_some_iff.1 hcell
  rw [hlabel, Option.isSome_some] at hhas
  have hletters := hfits label hlabel
  have hpos : 1 ≤ x.entry.width := one_le_of_fits hletters
  refine ⟨label, hlabel, hpos, h.hasPlace (h.mem_entries hx) hhas.symm, ?_⟩
  rw [h.cellWith_eq (h.mem_entries hx)]
  exact cellOf_shows hpos hletters

/-- No cell begins before the tree. -/
theorem firstBit_nonneg (h : root.DrawnWith ds) (hx : x ∈ ds) : 0 ≤ x.entry.firstBit :=
  h.consecutive.bounds.2 _ (h.mem_entries hx)

end Field.DrawnWith

/-! ## Diagrams -/

namespace Field

variable {raw root : Field} {d : Diagram}

/-- The diagram of a placed tree by its entries. -/
theorem diagram_eq (h : root.isPlaced = true) :
    root.diagram = do
      let c ← root.entries.foldlM Canvas.drawEntry {}
      return ⟨← root.title, c.cells, c.legend, c.bitOffset⟩ := by
  rw [diagram, h, ← Canvas.drawField_eq_foldlM]
  rfl

theorem isPlaced_of_resolve (hraw : raw.SizesWhole) (h : raw.resolve = .ok root) :
    root.isPlaced = true := by
  obtain ⟨-, -, rfl⟩ := (resolve_eq_ok_iff hraw).1 h
  rw [isPlaced, header_located]
  rfl

/-- **A diagram holds the cells and the lines of the entries drawn in their order**, and ends
where the tree does. -/
theorem exists_of_diagram_eq_ok (hraw : raw.SizesWhole) (h : raw.resolve = .ok root)
    (hd : root.diagram = .ok d) :
    ∃ ds, root.DrawnWith ds ∧ d.cells = ds.filterMap Drawn.cell? ∧
      d.legend = ds.map Drawn.line ∧ d.totalBits = .int root.bitCount := by
  have hes := consecutive_of_resolve hraw h
  rw [diagram_eq (isPlaced_of_resolve hraw h), bind_eq_ok_iff] at hd
  obtain ⟨c, hdraw, hd⟩ := hd
  obtain ⟨title, -, hd⟩ := bind_eq_ok_iff.1 hd
  rw [pure_eq_ok_iff] at hd
  obtain ⟨ds, hds, hentries, rfl⟩ := inOrder_of_foldlM hes hdraw
  subst hd
  refine ⟨ds, ⟨hds, hentries, hes⟩, canvasOf_cells ds, canvasOf_legend ds, ?_⟩
  exact canvasOf_bitOffset (hentries ▸ hes)

/-- A word, a bit field beside it, and bytes on rows of their own. -/
def statusBlock : Field :=
  struct { name := some (.str "r") }
    [word { header := { name := some (.str "a") }, bits := 16 },
      bitfield { header := { name := some (.str "c") }, bits := 16, items :=
        [{ header := { name := some (.str "x") }, bits := 3 }, { bits := 13 }] },
      blob { header := { name := some (.str "data") }, bytes := 8 },
      word { header := { name := some (.str "z") }, bits := 8 }]

/-- The block is accepted as it stands, and drawn to its last bit. -/
theorem exists_diagram_statusBlock :
    statusBlock.SizesWhole ∧ ∃ root d, statusBlock.resolve = .ok root ∧ root.diagram = .ok d ∧
      d.totalBits = .int (104 : Nat) := by
  have hbits : (statusBlock.located [] 0 0).diagram.toOption.map Diagram.totalBits
      = some (.int (104 : Nat)) := by decide +kernel
  refine ⟨by decide, statusBlock.located [] 0 0, ?_⟩
  cases hd : (statusBlock.located [] 0 0).diagram with
  | error e =>
    rw [hd] at hbits
    cases hbits
  | ok d =>
    rw [hd] at hbits
    exact ⟨d, rfl, rfl, Option.some.inj hbits⟩

end Field

end RegisterLayout
