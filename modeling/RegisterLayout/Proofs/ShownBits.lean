import RegisterLayout.Proofs.MaskBits
import RegisterLayout.Proofs.Offsets
import RegisterLayout.Proofs.PrintedBlock
import RegisterLayout.Proofs.TreeFailures
import RegisterLayout.Proofs.Walk

/-!
# Bits in tables and declarations

The table of a placed tree has the rows of its visits, in their order and as deep as they are.  An
item is shown with the numbers of its bits and its mask in the word, a named one is declared with a
macro for its mask, and both have the bits that placing gave to the item.  So does the line that
defines the macro: the text behind its name stands for these bits.

Principal definitions: `Visit.row`, `Row.Shows`, `Item.DefinedIn`.
Principal results: `Field.rows_eq_mapM`, the rows of a tree are those of its visits;
`Field.resolve_showsBits`.
-/

namespace RegisterLayout

/-! ## The row of a visit -/

namespace Item

/-- The number of the one bit of a placed item, or of its highest and its lowest. -/
def rangeText (i : Item) : Text :=
  Text.ofString (if i.bitIndices.length = 1 then toString i.low
    else toString i.high ++ ":" ++ toString i.low)

/-- The mask of a placed item in hexadecimal digits. -/
def maskText (i : Item) : Text := Text.ofString ("0x" ++ Number.hexText i.maskNumber)

/-- A line defines the macro of an item: the text behind its name stands for the bits of the item,
and for no others. -/
def DefinedIn (i : Item) (line : Text) : Prop :=
  ∃ arguments : Text, line = tabbed ("#define " ++ i.macroName) arguments ∧
    ∀ bits, arguments.DenotesBits bits ↔ bits = (· ∈ i.bitIndices)

theorem bitTexts_of_nonneg {i : Item} (hne : i.bitIndices ≠ [])
    (hnonneg : ∀ bit ∈ i.bitIndices, 0 ≤ bit) : i.bitTexts = .ok (i.rangeText, i.maskText) := by
  obtain ⟨low, hlow⟩ := Option.isSome_iff_exists.1 (List.isSome_head?.2 hne)
  obtain ⟨high, hhigh⟩ := Option.isSome_iff_exists.1 (List.getLast?_isSome.2 hne)
  have hlow' : i.low = low := by rw [Item.low, hlow, Option.getD_some]
  have hhigh' : i.high = high := by rw [Item.high, hhigh, Option.getD_some]
  have hmask := mask_eq_maskNumber (hlow' ▸ hnonneg low (List.mem_of_head? hlow))
    (hhigh' ▸ hnonneg high (List.mem_of_getLast? hhigh))
  cases hrange : i.bitRange with
  | none =>
    rw [bitIndices, hrange] at hne
    exact absurd rfl hne
  | some range =>
    obtain rfl : i.bitIndices = range := by rw [bitIndices, hrange, Option.getD_some]
    rw [bitTexts, hrange]
    simp only [hlow, hhigh, ← hlow', ← hhigh', hmask, ok_bind]
    rfl

end Item

/-- What the table says of the bits of a node: of an item its bits and its mask, of any other node
nothing. -/
def Field.bitTexts : Field → Text × Text
  | stray i => (i.rangeText, i.maskText)
  | _ => ([], [])

/-- The row of a visited node. -/
def Visit.row (v : Visit) : Except Failure Row :=
  rowOfNode v.depth v.node.kindName v.node.header v.node.sizeBits (.ok v.node.bitTexts)

/-- A row that shows what placing made of a visited node, its name behind two blanks for every node
above it. -/
structure Row.Shows (r : Row) (v : Visit) : Prop where
  name : r.indentedName = Text.blanks (2 * v.depth) ++ v.node.fullName
  kind : r.kind = v.node.kindName
  offset : ∃ start, v.node.header.position.byteOffset = some start ∧ hexText start = .ok r.offset
  size : v.node.sizeBits = .ok r.bits
  align : r.align = v.node.header.position.align
  bits : (r.bitRange, r.mask) = v.node.bitTexts

/-- A node with all that its row shows. -/
structure Field.Showable (f : Field) : Prop where
  fullName : ∃ s, f.header.position.fullName = some s
  offset : ∃ start, f.header.StandsAt start
  size : ∃ v, f.sizeBits = .ok v
  bits : ∀ i, f = stray i → i.bitTexts = .ok f.bitTexts

theorem Visit.exists_row {v : Visit} (h : v.node.Showable) :
    ∃ r, v.row = .ok r ∧ r.Shows v := by
  obtain ⟨name, hname⟩ := h.fullName
  obtain ⟨start, hstart⟩ := h.offset
  obtain ⟨size, hsize⟩ := h.size
  have hoffset : v.node.header.position.byteOffset = some (.int start) := hstart
  refine ⟨⟨v.depth, name, v.node.kindName, _, size, v.node.header.position.align,
    v.node.bitTexts.1, v.node.bitTexts.2⟩, ?_, ?_, rfl, ⟨_, hoffset, rfl⟩, hsize, rfl, rfl⟩
  · rw [Visit.row, rowOfNode, hname, hoffset, hsize]
    rfl
  · rw [Row.indentedName, Field.fullName, hname]
    rfl

/-! ## The rows of a tree -/

theorem Visit.row_item {above : Trail} {i : Item} {p : Header × Nat}
    (h : (Field.stray i).Showable) :
    Visit.row ⟨above ++ [p], .stray i⟩ = i.row above.length := by
  rw [Item.row, h.bits i rfl, Visit.row, Visit.depth, List.length_append]
  rfl

/-- The rows of numbered items do not depend on their numbers. -/
theorem mapM_mapIdx {α β γ : Type} {number : Nat → α → β} {f : β → Except Failure γ}
    {g : α → Except Failure γ} {xs : List α} (h : ∀ k, ∀ x ∈ xs, f (number k x) = g x) :
    (xs.mapIdx number).mapM f = xs.mapM g := by
  induction xs generalizing number with
  | nil => rfl
  | cons x xs ih =>
    rw [List.mapIdx_cons, List.mapM_cons, List.mapM_cons, h 0 x List.mem_cons_self,
      ih fun k y hy => h (k + 1) y (List.mem_cons_of_mem x hy)]

namespace Field

section

variable {above : Trail} {index : Nat}

theorem row_own {f : Field} (hstray : ∀ i, f ≠ stray i) {p : Header × Nat} :
    Visit.row ⟨above ++ [p], f⟩ = f.ownRow above.length := by
  rw [ownRow, Visit.row, Visit.depth, List.length_append]
  cases f with
  | stray i => exact absurd rfl (hstray i)
  | _ => rfl

theorem rowsAll_eq_mapM {fs : List Field}
    (ih : ∀ f ∈ fs, ∀ {index : Nat}, (∀ v ∈ f.walk above index, v.node.Showable) →
      f.rows above.length = (f.walk above index).mapM Visit.row)
    (h : ∀ v ∈ walkAll above index fs, v.node.Showable) :
    rowsAll above.length fs = (walkAll above index fs).mapM Visit.row := by
  induction fs generalizing index with
  | nil => rfl
  | cons f fs ihfs =>
    obtain ⟨hf, hfs⟩ := List.forall_mem_cons.1 ih
    rw [walkAll, List.forall_mem_append] at h
    rw [rowsAll, walkAll, List.mapM_append, hf h.1, ihfs hfs h.2]

/-- **The rows of a tree are the rows of its visits.** -/
theorem rows_eq_mapM {f : Field} (h : ∀ v ∈ f.walk above index, v.node.Showable) :
    f.rows above.length = (f.walk above index).mapM Visit.row := by
  induction f using inductionOn generalizing above index with
  | word w | blob b =>
    simp only [rows, walk, List.mapM_cons]
    rw [row_own (by simp)]
    rfl
  | bitfield b =>
    rw [walk, List.forall_mem_cons] at h
    have hitems : ∀ k, ∀ i ∈ b.items, Visit.row
        ⟨above ++ [(b.header, index)] ++ [(i.header, k)], stray i⟩ = i.row (above.length + 1) := by
      intro k i hi
      obtain ⟨k', hk'⟩ := List.mem_iff_getElem?.1 hi
      rw [Visit.row_item (forall_mem_visitItems.1 h.2 k' i hk'), List.length_append]
      rfl
    rw [rows, walk, List.mapM_cons, row_own (by simp), visitItems, mapM_mapIdx hitems]
  | struct header fields ih | union header fields ih =>
    rw [walk, List.forall_mem_cons] at h
    have hbelow := rowsAll_eq_mapM (fun f hf => ih f hf) h.2
    rw [List.length_append] at hbelow
    rw [rows, walk, List.mapM_cons, row_own (by simp), ← hbelow]
    rfl
  | stray i =>
    have hitem : (stray i).Showable := h _ List.mem_cons_self
    simp only [rows, walk, List.mapM_cons]
    rw [Visit.row_item hitem]
    rfl

end

/-! ## Accepted trees -/

/-- A node that is no item, and whose items share out the bits of its word if it is a bit field. -/
structure SharesBits (f : Field) : Prop where
  noItem : ∀ i, f ≠ stray i
  partition : ∀ b, f = bitfield b →
    ∃ (b' : BitField) (n : Nat), b.bits = .int n ∧ b'.Partition n b

theorem Placeable.sharesBits {f : Field} {start : Int} (h : f.Placeable start)
    (hf : f.SizesWhole) (path : Path) (index : Nat) : (f.located path index start).SharesBits := by
  cases f with
  | bitfield b =>
    have hb : b.Admissible := h.kind
    obtain ⟨⟨n, hn⟩, -⟩ := hf.own
    have hwhole : b.bits.whole = n := by rw [hn, Value.whole_int]
    have hpartition := BitField.located_partition hb (b.header.nameUnder path index)
      (b.header.pathUnder path index) start
    obtain ⟨width, rfl⟩ : ∃ width : Nat, n = width := by
      have hpos := (mem_wordWidths_bounds (hwhole ▸ hb.width)).1
      exact ⟨n.toNat, by omega⟩
    rw [located]
    refine ⟨by simp, fun b' hb' => ?_⟩
    obtain rfl := bitfield.inj hb'
    exact ⟨b, width, hn, hwhole ▸ hpartition⟩
  | stray i => exact h.kind.elim
  | _ =>
    rw [located]
    exact ⟨by simp, by simp⟩

section

variable {raw root : Field}

theorem sizesWhole_of_resolve (hwidths : raw.WidthsWhole) (h : raw.resolve = .ok root) :
    raw.SizesWhole := by
  simp only [resolve, check_bind_eq_ok_iff, @bind_eq_ok_iff (Field × Number)] at h
  obtain ⟨-, placed, hplaced, -⟩ := h
  exact sizesWhole_of_place hwidths hplaced

theorem sharesBits_of_resolve (hwhole : raw.SizesWhole) (h : raw.resolve = .ok root) :
    ∀ g ∈ root.nodes, g.SharesBits :=
  forall_mem_nodes_of_resolve (fun _ path index _ h hf => h.sharesBits hf path index) hwhole h

/-- The items of a bit field in an accepted tree are named in their order. -/
theorem placedItems_of_resolve (h : raw.resolve = .ok root) {b : BitField}
    (hb : b ∈ root.bitFields) :
    ∃ path, ∀ (k : Nat) (i : Item), b.items[k]? = some i → i.PlacedUnder path k := by
  obtain ⟨path, index, hplaced⟩ := (resolve_eq_ok h).1.node_of_mem _ (mem_bitFields.1 hb)
  cases hplaced with
  | node header items union children => exact ⟨_, items b rfl⟩

/-- Every node and every item of an accepted tree has what its row shows. -/
theorem showable_of_resolve (hwhole : raw.SizesWhole) (h : raw.resolve = .ok root) :
    ∀ v ∈ root.visits, v.node.Showable := by
  have hlaidOut := laidOut_of_resolve hwhole h
  have hshares := sharesBits_of_resolve hwhole h
  refine forall_mem_walk_node.2 ⟨fun g hg => ?_, fun b hb i hi => ?_⟩
  · obtain ⟨start, hstands⟩ := hlaidOut g hg
    obtain ⟨path, index, hplaced⟩ := (resolve_eq_ok h).1.node_of_mem g hg
    cases hplaced with
    | node header items union children =>
      exact ⟨⟨_, header.fullName⟩, ⟨start, hstands.offset⟩, ⟨_, hstands.size⟩,
        fun i hg' => absurd hg' ((hshares g hg).noItem i)⟩
  · have hmem := mem_bitFields.1 hb
    obtain ⟨start, hstands⟩ := hlaidOut _ hmem
    obtain ⟨path, hitems⟩ := placedItems_of_resolve h hb
    obtain ⟨b', n, -, hpartition⟩ := (hshares _ hmem).partition b rfl
    obtain ⟨k, hk⟩ := List.mem_iff_getElem?.1 hi
    refine ⟨⟨_, (hitems k i hk).header.fullName⟩, ⟨start, hstands.items b rfl i hi⟩, ⟨_, rfl⟩, ?_⟩
    rintro _ ⟨⟩
    exact Item.bitTexts_of_nonneg (hpartition.nonempty i hi)
      fun bit hbit => ((hpartition.cover bit).1 ⟨i, hi, hbit⟩).1

/-- The macros of a bit field have the bits of its named items, and so have the lines that define
them. -/
theorem macros_cover {b : BitField} {path : Path}
    (hitems : ∀ (k : Nat) (i : Item), b.items[k]? = some i → i.PlacedUnder path k)
    {o : DeclarationOptions} {struct member : Text} {block : BitFieldBlock}
    (hblock : declareBitField o struct member b = .ok block) :
    List.Forall₂ (fun i m => ∀ bit, m.mask.Covers bit ↔ bit ∈ i.bitIndices)
        b.namedItems block.macros ∧
      List.Forall₂ Item.DefinedIn b.namedItems
        (block.lines.filter (Text.beginsWith "#define ")) := by
  have hplaced : ∀ i ∈ b.items, ∃ k, i.PlacedUnder path k := by
    intro i hi
    obtain ⟨k, hk⟩ := List.mem_iff_getElem?.1 hi
    exact ⟨k, hitems k i hk⟩
  have hnamed : ∀ i ∈ b.namedItems, ∃ k, i.PlacedUnder path k :=
    fun i hi => hplaced i (List.mem_of_mem_filter hi)
  have hwidth : ∀ i ∈ b.items, 1 ≤ i.bits.whole := by
    intro i hi
    obtain ⟨k, hk⟩ := hplaced i hi
    exact hk.width
  obtain rfl := declareBitField_eq_ok hwidth hblock
  constructor
  · simp only [BitField.block, List.map_map, List.forall₂_map_right_iff, List.forall₂_same]
    intro i hi bit
    obtain ⟨k, hk⟩ := hnamed i hi
    exact hk.covers_mask_iff bit
  · rw [b.lines_block, b.filter_define_printed, List.forall₂_map_right_iff, List.forall₂_same]
    intro i hi
    obtain ⟨k, hk⟩ := hnamed i hi
    exact ⟨i.bitsText, rfl, fun bits => hk.denotesBits_iff⟩

/-- **Tables and declarations show the bits that placing gave out.**  The table of an accepted tree
has one row for every node and every item, in their order and each behind two blanks for every level
above it.  The masks in the rows of the items of a bit field have no bit in common, together they
are the mask of the word, and each has the bits of its item; and these are the bits that the macro
for a named item stands for, as it is printed in the one line that defines it. -/
theorem resolve_showsBits (hwidths : raw.WidthsWhole) (h : raw.resolve = .ok root) :
    (∃ rows, root.rows 0 = .ok rows ∧ List.Forall₂ (fun v r => Row.Shows r v) root.visits rows) ∧
    ∀ b ∈ root.bitFields, ∃ n : Nat, b.bits = .int n ∧ b.MasksPartition n ∧
      ∀ o struct member block, declareBitField o struct member b = .ok block →
        List.Forall₂ (fun i m => ∀ bit, m.mask.Covers bit ↔ bit ∈ i.bitIndices)
            b.namedItems block.macros ∧
          List.Forall₂ Item.DefinedIn b.namedItems
            (block.lines.filter (Text.beginsWith "#define ")) := by
  have hwhole := sizesWhole_of_resolve hwidths h
  have hshowable := showable_of_resolve hwhole h
  constructor
  · obtain ⟨rows, hrows, hshows⟩ := mapM_of_forall fun v hv => Visit.exists_row (hshowable v hv)
    exact ⟨rows, (@rows_eq_mapM [] 0 root hshowable).trans hrows, hshows⟩
  · intro b hb
    obtain ⟨b', n, hn, hpartition⟩ :=
      (sharesBits_of_resolve hwhole h _ (mem_bitFields.1 hb)).partition b rfl
    obtain ⟨path, hitems⟩ := placedItems_of_resolve h hb
    exact ⟨n, hn, BitField.masksPartition hpartition hitems, fun _ _ _ _ => macros_cover hitems⟩

end

/-- A byte with a flag and a number, and four bits without a name. -/
def pumpByte : BitField where
  bits := 8
  items := [{ header := { name := some (.str "on") }, bits := 1 },
    { header := { name := some (.str "speed") }, bits := 3 }, { bits := 4 }]

def pumpRoot : Field := struct { name := some (.str "pump") } [bitfield pumpByte]

theorem resolve_showsBits_pumpRoot :
    pumpRoot.WidthsWhole ∧ pumpRoot.resolve = .ok (pumpRoot.located [] 0 0) ∧
      (∃ rows, (pumpRoot.located [] 0 0).rows 0 = .ok rows ∧
        List.Forall₂ (fun v r => Row.Shows r v) (pumpRoot.located [] 0 0).visits rows ∧
        rows.map Row.mask = ["", "", "0x80", "0x70", "0xf"]) ∧
      ∃ b ∈ (pumpRoot.located [] 0 0).bitFields, (∃ n, b.MasksPartition n) ∧
        ∃ block, declareBitField {} "pump" "bitfield_0" b = .ok block ∧
          block.lines.filter (Text.beginsWith "#define ")
            = [Text.ofString "#define PUMP_ON\t\t\t\t\t\tBIT(7)",
              "#define PUMP_SPEED_MASK\t\t\t\t\tGENMASK(6, 4)"] ∧
          List.Forall₂ (fun i m => ∀ bit, m.mask.Covers bit ↔ bit ∈ i.bitIndices)
            b.namedItems block.macros ∧
          List.Forall₂ Item.DefinedIn b.namedItems
            (block.lines.filter (Text.beginsWith "#define ")) := by
  have hwidths : pumpRoot.WidthsWhole := by decide
  have hresolve : pumpRoot.resolve = .ok (pumpRoot.located [] 0 0) := rfl
  obtain ⟨⟨rows, hrows, hshows⟩, hbits⟩ := resolve_showsBits hwidths hresolve
  have hmasks : ((pumpRoot.located [] 0 0).rows 0).toOption.any
      (fun rows : List Row =>
        decide (rows.map Row.mask = ["", "", "0x80", "0x70", "0xf"])) = true := by
    decide +kernel
  rw [hrows] at hmasks
  have hmem : pumpByte.located "pump_f0" [.label "pump", .index 0] 0
      ∈ (pumpRoot.located [] 0 0).bitFields := List.mem_cons_self
  obtain ⟨n, -, hpartition, hmacros⟩ := hbits _ hmem
  obtain ⟨block, hblock, hdefined⟩ := exists_of_any
    (show (declareBitField {} "pump" "bitfield_0"
        (pumpByte.located "pump_f0" [.label "pump", .index 0] 0)).toOption.any
      (fun block => block.lines.filter (Text.beginsWith "#define ")
        == [Text.ofString "#define PUMP_ON\t\t\t\t\t\tBIT(7)",
          "#define PUMP_SPEED_MASK\t\t\t\t\tGENMASK(6, 4)"]) = true by decide +kernel)
  exact ⟨hwidths, hresolve, ⟨rows, hrows, hshows, of_decide_eq_true hmasks⟩, _, hmem,
    ⟨n, hpartition⟩, block, hblock, beq_iff_eq.1 hdefined, hmacros _ _ _ _ hblock⟩

end Field

end RegisterLayout
