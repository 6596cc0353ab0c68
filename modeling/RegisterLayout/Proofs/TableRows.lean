import Mathlib.Data.Nat.Digits.Defs
import RegisterLayout.Proofs.BitPartition
import RegisterLayout.Proofs.CellKinds
import RegisterLayout.Proofs.TreeFailures
import RegisterLayout.Table.Row

/-!
# The rows of a placed tree

Every node of a tree that was placed has its row, whatever its names are.  The row of the root is
the only one whose name is not indented, and no cell but those of names is taken for a number with
a fraction.

Principal definitions: `Text.IsNodeName`, `Row.Sound`.
Principal results: `Header.isNodeName_nameUnder`, `Field.rows_located`.
-/

namespace RegisterLayout

/-! ## Full names -/

/-- A character that may follow in a name. -/
def IsFurther (c : Char) : Prop := c.isAlphanum ∨ c = '_' ∨ c = '\n'

/-- A text that begins like a name; it may have line feeds, since every part of it may end with
one. -/
def Text.IsNodeName (s : Text) : Prop :=
  ∃ (c : Char) (rest : List Char), IsInitial c ∧ (∀ d ∈ rest, IsFurther d) ∧
    s = Text.ofChars (c :: rest)

theorem IsInitial.further {c : Char} (h : IsInitial c) : IsFurther c := by
  rcases h with h | h
  · exact .inl (by simp [Char.isAlphanum, h])
  · exact .inr (.inl h)

theorem IsFurther.ascii {c : Char} (h : IsFurther c) : c.toNat < 128 := by
  rcases h with h | rfl | rfl
  · exact toNat_lt_of_isAlphanum h
  · decide
  · decide

namespace Text.IsNodeName

theorem isName {s : Text} (h : (Value.str s).IsName) : s.IsNodeName := by
  obtain ⟨c, rest, hc, hrest, hs⟩ := h
  have hfurther : ∀ d ∈ rest, IsFurther d := fun d hd => (hrest d hd).imp_right .inl
  rcases hs with hs | hs
  · exact ⟨c, rest, hc, hfurther, Value.str.inj hs⟩
  · refine ⟨c, rest ++ ['\n'], hc, ?_, Value.str.inj hs⟩
    intro d hd
    rcases List.mem_append.1 hd with hd | hd
    · exact hfurther d hd
    · exact .inr (.inr (List.mem_singleton.1 hd))

/-- Names joined by underscores are a name. -/
theorem joined {parts : List Text} (hne : parts ≠ []) (h : ∀ s ∈ parts, s.IsNodeName) :
    (Path.joined parts).IsNodeName := by
  induction parts with
  | nil => exact absurd rfl hne
  | cons s more ih =>
    obtain ⟨hs, hmore⟩ := List.forall_mem_cons.1 h
    cases more with
    | nil =>
      rw [Path.joined, Text.joined, List.intercalate_singleton]
      exact hs
    | cons t rest =>
      obtain ⟨c, first, hc, hfirst, rfl⟩ := hs
      obtain ⟨d, second, hd, hsecond, heq⟩ := ih (List.cons_ne_nil t rest) hmore
      refine ⟨c, first ++ '_' :: d :: second, hc, ?_, ?_⟩
      · refine List.forall_mem_append.2 ⟨hfirst, ?_⟩
        exact List.forall_mem_cons.2 ⟨.inr (.inl rfl), List.forall_mem_cons.2 ⟨hd.further, hsecond⟩⟩
      · rw [Path.joined, Text.joined] at heq ⊢
        rw [List.intercalate_cons_cons, heq, ← List.cons_append, ofChars_append, List.append_assoc]
        rfl

/-- The characters of a name. -/
theorem forall_mem {s : Text} (h : s.IsNodeName) :
    ∀ c ∈ s, ∃ d, c = .char d ∧ IsFurther d := by
  obtain ⟨c, rest, hc, hrest, rfl⟩ := h
  intro e he
  obtain ⟨d, hd, rfl⟩ := List.mem_map.1 he
  exact ⟨d, rfl, List.forall_mem_cons.2 ⟨hc.further, hrest⟩ d hd⟩

theorem not_mem {s : Text} (h : s.IsNodeName) {c : Char} (hc : ¬IsFurther c) :
    CodePoint.char c ∉ s := by
  intro hmem
  obtain ⟨d, hd, hfurther⟩ := h.forall_mem _ hmem
  exact hc (CodePoint.char.inj hd ▸ hfurther)

end Text.IsNodeName

/-- A path whose steps are names. -/
def Path.IsNamed (p : Path) : Prop := ∀ step ∈ p, step.text.IsNodeName

theorem Step.isNodeName_index (n : Nat) : (Step.index n).text.IsNodeName := by
  have hdigits : ∀ d ∈ (toString n).toList, d.isDigit = true := by
    intro d hd
    rw [Nat.toString_eq_repr, Nat.toList_repr] at hd
    exact Nat.isDigit_of_mem_toDigits (by decide) (by decide) hd
  refine ⟨'f', (toString n).toList, .inl (by decide), fun d hd => .inl ?_, ?_⟩
  · simp [Char.isAlphanum, hdigits d hd]
  · rw [Step.text, Text.ofString, String.toList_append]
    rfl

namespace Header

variable {h : Header} {path : Path}

theorem WellTyped.isNodeName_labelText (ht : h.WellTyped) (hnamed : h.IsNamed) :
    h.labelText.IsNodeName := by
  have htext : ∀ {v : Value}, v.IsName → v.text.IsNodeName := by
    intro v hv
    have hname := hv
    obtain ⟨c, rest, -, -, rfl | rfl⟩ := hv
    · exact .isName hname
    · exact .isName hname
  obtain ⟨name, hgiven⟩ := Option.isSome_iff_exists.1 hnamed
  unfold labelText label?
  cases hshort : filled? h.shortName with
  | some short => exact htext (ht.shortName short (Option.filter_eq_some_iff.1 hshort).1)
  | none =>
    have hname := (Option.filter_eq_some_iff.1 hgiven).1
    rw [hname]
    exact htext (ht.name name hname)

theorem isNodeName_stepUnder (hlabel : h.IsNamed → h.labelText.IsNodeName) (index : Nat) :
    (h.stepUnder index).text.IsNodeName := by
  unfold stepUnder
  split
  · next hnamed => exact hlabel hnamed
  · exact Step.isNodeName_index index

theorem isNamed_pathUnder (hlabel : h.IsNamed → h.labelText.IsNodeName) (hpath : path.IsNamed)
    (index : Nat) : Path.IsNamed (h.pathUnder path index) :=
  List.forall_mem_append.2
    ⟨hpath, List.forall_mem_singleton.2 (isNodeName_stepUnder hlabel index)⟩

/-- **The full name of a node begins like a name**, whether the node has one or not. -/
theorem isNodeName_nameUnder (hlabel : h.IsNamed → h.labelText.IsNodeName)
    (hpath : path.IsNamed) (index : Nat) : (h.nameUnder path index).IsNodeName := by
  unfold nameUnder
  split
  · next hnamed =>
    refine .joined (List.concat_ne_nil _ _) (List.forall_mem_append.2 ⟨fun s hs => ?_,
      List.forall_mem_singleton.2 (hlabel hnamed)⟩)
    obtain ⟨step, hstep, hlabel⟩ := List.mem_filterMap.1 hs
    cases step with
    | label text =>
      obtain rfl := Option.some.inj hlabel
      exact hpath _ hstep
    | index n => cases hlabel
  · refine .joined ?_ fun s hs => ?_
    · rw [ne_eq, List.map_eq_nil_iff]
      exact List.concat_ne_nil _ _
    · obtain ⟨step, hstep, rfl⟩ := List.mem_map.1 hs
      exact isNamed_pathUnder hlabel hpath index step hstep

end Header

/-! ## Numbers in rows -/

theorem forall_mem_toDigits_sixteen (n : Nat) :
    ∀ c ∈ Nat.toDigits 16 n, c.isAlphanum = true := by
  have hdigit : ∀ d < 16, (Nat.digitChar d).isAlphanum = true := by decide
  induction n using Nat.strongRecOn with
  | ind n ih =>
    rw [Nat.toDigits_eq_if (by decide)]
    split
    · next hn => exact List.forall_mem_singleton.2 (hdigit n hn)
    · next hn =>
      exact List.forall_mem_append.2 ⟨ih (n / 16) (by omega),
        List.forall_mem_singleton.2 (hdigit _ (Nat.mod_lt n (by decide)))⟩

namespace ColumnKind

/-- A text without the mark of an escape that has a character which is in no numeral. -/
theorem ofCell_eq_text_of_foreign {s : String} {c : Char} (hc : IsForeign c) (hs : c ∈ s.toList)
    (hmark : '\x1b' ∉ s.toList) : ofCell (.str s) = .text := by
  have hescape : Text.escapeMark ∉ Text.ofString s := by
    intro hmem
    obtain ⟨d, hd, heq⟩ := List.mem_map.1 hmem
    exact hmark (CodePoint.char.inj heq ▸ hd)
  rw [ofCell, Text.stripEscapes_eq_self hescape]
  exact ofShown_eq_text_of_foreign hc hs

end ColumnKind

/-- A whole number in hexadecimal digits is a text. -/
theorem hexText_int (n : Int) :
    ∃ s, hexText (.int n) = .ok s ∧ ColumnKind.ofCell (.str s) = .text := by
  refine ⟨_, rfl, ColumnKind.ofCell_eq_text_of_foreign isForeign_x ?_ ?_⟩
  · rw [String.append_assoc, String.toList_append]
    exact List.mem_append_left _ (by decide)
  · rw [String.toList_append, String.toList_append, Number.hexText]
    have hsign : '\x1b' ∉ (if n < 0 then "-" else "").toList := by split <;> decide
    simp only [List.mem_append, not_or]
    refine ⟨⟨by decide, hsign⟩, fun hmem => ?_⟩
    rw [String.toList_ofList] at hmem
    have hdigit := forall_mem_toDigits_sixteen n.natAbs '\x1b' hmem
    exact absurd hdigit (by decide)

theorem alignmentAt_bounds (n : Number) : 0 ≤ alignmentAt n ∧ alignmentAt n ≤ 64 := by
  unfold alignmentAt
  cases hlast : ([1, 2, 4, 8, 16, 32, 64].takeWhile fun p => (n.mod p).isZero).getLast? with
  | none => decide
  | some p =>
    have hall : ∀ p ∈ ([1, 2, 4, 8, 16, 32, 64] : List Int), 0 ≤ p ∧ p ≤ 64 := by decide
    exact hall p ((List.takeWhile_sublist _).subset (List.mem_of_getLast? hlast))

theorem mask_of_nonneg {high low : Int} (hhigh : 0 ≤ high) (hlow : 0 ≤ low) :
    ∃ n, mask high low = .ok n := by
  unfold mask
  rw [if_neg (by omega)]
  exact ⟨_, rfl⟩

/-- The number of a bit. -/
theorem bitNumber {k : Int} (hk : 0 ≤ k ∧ k < 64) :
    ColumnKind.ofCell (.str (toString k : String)) = .whole ∧ '\x1b' ∉ (toString k).toList := by
  have hall : ∀ k < 64, ColumnKind.ofCell (.str (toString (Int.ofNat k) : String)) = .whole ∧
      '\x1b' ∉ (toString (Int.ofNat k)).toList := by
    decide +kernel
  obtain ⟨n, rfl⟩ := Int.eq_ofNat_of_zero_le hk.1
  exact hall n (by omega)

/-- The bits of an item that has its place in a word. -/
theorem bitTexts_eq_ok {i : Item} (hne : i.bitIndices ≠ [])
    (hbits : ∀ bit ∈ i.bitIndices, 0 ≤ bit ∧ bit < 64) :
    ∃ range mask, i.bitTexts = .ok (range, mask) ∧ ColumnKind.ofCell (.str range) ≠ .real ∧
      ColumnKind.ofCell (.str mask) ≠ .real := by
  cases hrange : i.bitRange with
  | none =>
    rw [Item.bitIndices, hrange] at hne
    exact absurd rfl hne
  | some range =>
    rw [Item.bitIndices, hrange, Option.getD_some] at hne hbits
    obtain ⟨low, hlow⟩ := Option.isSome_iff_exists.1 (List.isSome_head?.2 hne)
    obtain ⟨high, hhigh⟩ := Option.isSome_iff_exists.1 (List.getLast?_isSome.2 hne)
    have hlowBits := hbits low (List.mem_of_head? hlow)
    have hhighBits := hbits high (List.mem_of_getLast? hhigh)
    obtain ⟨n, hn⟩ := mask_of_nonneg hhighBits.1 hlowBits.1
    obtain ⟨s, hs, htext⟩ := hexText_int n
    have htexts : i.bitTexts = .ok (Text.ofString (if range.length = 1 then toString low
        else toString high ++ ":" ++ toString low), s) := by
      rw [Item.bitTexts, hrange]
      simp only [hlow, hhigh, hn, ok_bind, hs]
      rfl
    have hmask : ColumnKind.ofCell (.str s) ≠ .real := by
      rw [htext]
      decide
    refine ⟨_, s, htexts, ?_, hmask⟩
    split
    · rw [(bitNumber hlowBits).1]
      decide
    · rw [ColumnKind.ofCell_eq_text_of_foreign isForeign_colon]
      · decide
      · simp
      · simp only [String.toList_append, List.mem_append, not_or]
        exact ⟨⟨(bitNumber hhighBits).2, by decide⟩, (bitNumber hlowBits).2⟩

/-! ## Rows -/

/-- A row whose cells can be written if the numbers are short, and whose cells other than the name
are no numbers with fractions. -/
structure Row.Sound (short : Prop) (r : Row) : Prop where
  name : r.fullName.IsNodeName
  plain : ∀ cell ∈ r.cells.tail, ColumnKind.ofCell cell ≠ .real
  writable : short → ∀ cell ∈ r.cells, cell.isWritable = true

section

variable {short : Prop} {path : Path} {index depth : Nat} {start : Int}

/-- The row of a node that was placed. -/
theorem rowOfNode_placedAt {h : Header} {name kind range mask : Text} {n : Int}
    {size : Except Failure Value} {bitTexts : Except Failure (Text × Text)}
    (hname : name.IsNodeName) (hkind : ColumnKind.ofCell (.str kind) ≠ .real)
    (hsize : size = .ok (.int n)) (hwritable : short → (Value.int n).isWritable = true)
    (htexts : bitTexts = .ok (range, mask)) (hrange : ColumnKind.ofCell (.str range) ≠ .real)
    (hmask : ColumnKind.ofCell (.str mask) ≠ .real) :
    ∃ r, rowOfNode depth kind (h.placedAt name (.int start)) size bitTexts = .ok r ∧
      r.depth = depth ∧ r.Sound short := by
  obtain ⟨offset, hoffset, htext⟩ := hexText_int start
  have halign : (Value.int (alignmentAt (.int start))).isWritable = true := by
    rw [Value.isWritable_num]
    exact isWritable_of_le (by have := alignmentAt_bounds (.int start); omega)
      (alignmentAt_bounds (.int start)).2
  refine ⟨⟨depth, name, kind, offset, .int n, some (.int (alignmentAt (.int start))), range, mask⟩,
    ?_, rfl, hname, ?_, ?_⟩
  · rw [hsize, htexts]
    simp only [rowOfNode, Header.placedAt, hoffset, ok_bind]
    rfl
  · have hoffsetKind : ColumnKind.ofCell (.str offset) ≠ .real := by
      rw [htext]
      decide
    simpa [Row.cells, hkind, hrange, hmask, hoffsetKind] using ⟨by rintro ⟨⟩, by rintro ⟨⟩⟩
  · intro hs
    have hn := hwritable hs
    simp only [Row.cells, List.forall_mem_cons, Option.getD_some]
    exact ⟨rfl, rfl, rfl, hn, halign, rfl, rfl, List.forall_mem_nil _⟩

/-! ## The rows of bit fields -/

theorem exists_of_mem_locatedItems {endBit : Int} {items : List Item} {p : Item}
    (hp : p ∈ locatedItems path (.int start) index endBit items) :
    ∃ i ∈ items, ∃ index range,
      p = { i.namedAt path index (.int start) with bitRange := some range } := by
  induction items generalizing index endBit with
  | nil => cases hp
  | cons i rest ih =>
    rcases List.mem_cons.1 hp with rfl | hp
    · exact ⟨i, List.mem_cons_self, index, _, rfl⟩
    · obtain ⟨j, hj, hp⟩ := ih hp
      exact ⟨j, List.mem_cons_of_mem i hj, hp⟩

theorem BitField.itemRow_located {b : BitField} (ht : b.WellTyped) (ha : b.Admissible)
    (hwhole : ∀ i ∈ b.items, ∃ n, i.bits = .int n) (hpath : path.IsNamed) {fullName : Text} :
    ∀ p ∈ (b.located fullName path start).items,
      ∃ r, p.row depth = .ok r ∧ r.depth = depth ∧ r.Sound short := by
  intro p hp
  have hpartition := located_partition ha fullName path start
  have hbits : ∀ bit ∈ p.bitIndices, 0 ≤ bit ∧ bit < 64 := by
    intro bit hbit
    obtain ⟨hlow, hhigh⟩ := (hpartition.cover bit).1 ⟨p, hp, hbit⟩
    exact ⟨hlow, Int.lt_of_lt_of_le hhigh (mem_wordWidths_bounds ha.width).2⟩
  obtain ⟨range, mask, htexts, hrange, hmask⟩ := bitTexts_eq_ok (hpartition.nonempty p hp) hbits
  obtain ⟨i, hi, index, bits, rfl⟩ := exists_of_mem_locatedItems hp
  obtain ⟨n, hn⟩ := hwhole i hi
  have hwritable : (Value.int n).isWritable = true := hn ▸ isWritable_itemBits (ht.items i hi)
  have hlabel := (ht.items i hi).header.isNodeName_labelText
  exact rowOfNode_placedAt (Header.isNodeName_nameUnder hlabel hpath index) (by decide)
    (congrArg Except.ok hn) (fun _ => hwritable) htexts hrange hmask

theorem BitField.itemRows_located {b : BitField} (ht : b.WellTyped) (ha : b.Admissible)
    (hwhole : ∀ i ∈ b.items, ∃ n, i.bits = .int n) (hpath : path.IsNamed) {fullName : Text} :
    ∃ rows, (b.located fullName path start).items.mapM (Item.row depth) = .ok rows ∧
      ∀ r ∈ rows, depth ≤ r.depth ∧ r.Sound short := by
  obtain ⟨rows, hrows, hall⟩ := mapM_of_forall (itemRow_located ht ha hwhole hpath)
  refine ⟨rows, hrows, fun r hr => ?_⟩
  obtain ⟨p, -, hdepth, hsound⟩ := exists_left_of_forall₂ hall hr
  exact ⟨hdepth.ge, hsound⟩

/-! ## The rows of trees -/

namespace Field

/-- The rows below the own row of a node. -/
def rowsBelow (depth : Nat) : Field → Except Failure (List Row)
  | bitfield b => b.items.mapM (Item.row depth)
  | struct _ fields | union _ fields => rowsAll depth fields
  | _ => .ok []

theorem rows_eq_ok {f : Field} {own : Row} {below : List Row} (hstray : ∀ i, f ≠ stray i)
    (hown : f.ownRow depth = .ok own) (hbelow : f.rowsBelow (depth + 1) = .ok below) :
    f.rows depth = .ok (own :: below) := by
  cases f with
  | word w | blob b =>
    obtain rfl := Except.ok.inj hbelow
    simp only [rows, hown, ok_bind]
    rfl
  | bitfield b =>
    rw [rowsBelow] at hbelow
    rw [rows, hown, ok_bind, hbelow, ok_bind]
    rfl
  | struct h fields | union h fields =>
    rw [rowsBelow] at hbelow
    rw [rows, hown, ok_bind, hbelow, ok_bind]
    rfl
  | stray i => exact absurd rfl (hstray i)

/-- A tree with a row of its own at a depth, and rows that are deeper for all below. -/
def HasRows (short : Prop) (depth : Nat) (f : Field) : Prop :=
  ∃ own below, f.rows depth = .ok (own :: below) ∧ own.depth = depth ∧ own.Sound short ∧
    ∀ r ∈ below, depth < r.depth ∧ r.Sound short

theorem rowsAll_of_forall {fs : List Field} (h : ∀ f ∈ fs, f.HasRows short depth) :
    ∃ rows, rowsAll depth fs = .ok rows ∧ ∀ r ∈ rows, depth ≤ r.depth ∧ r.Sound short := by
  induction fs with
  | nil => exact ⟨[], rfl, fun _ hr => nomatch hr⟩
  | cons f fs ih =>
    obtain ⟨hf, hfs⟩ := List.forall_mem_cons.1 h
    obtain ⟨own, below, hrows, hdepth, hown, hbelow⟩ := hf
    obtain ⟨more, hmore, hall⟩ := ih hfs
    refine ⟨own :: below ++ more, ?_, ?_⟩
    · rw [rowsAll, hrows, ok_bind, hmore, ok_bind]
      rfl
    · refine List.forall_mem_append.2 ⟨List.forall_mem_cons.2 ⟨⟨hdepth.ge, hown⟩, ?_⟩, hall⟩
      exact fun r hr => ⟨Nat.le_of_lt (hbelow r hr).1, (hbelow r hr).2⟩

/-- What the table says of the kinds of nodes. -/
def kindNames : List String := ["bit", "word", "bitfield", "struct", "opaque", "union"]

theorem kindName_mem (f : Field) : f.kindName ∈ kindNames := by
  cases f <;> simp [kindName, FieldKind.name, kindNames]

theorem ofCell_kindName (f : Field) : ColumnKind.ofCell (.str f.kindName) ≠ .real :=
  (by decide : ∀ kind ∈ kindNames, ColumnKind.ofCell (.str (kind : String)) ≠ .real)
    f.kindName f.kindName_mem

/-- The own row of a node that was placed. -/
theorem ownRow_located {f : Field} (ht : f.WellTyped) (hsizes : f.SizesWhole)
    (hpath : path.IsNamed) (hlimit : short → (Value.int f.extent).isWritable = true) :
    ∃ r, (f.located path index start).ownRow depth = .ok r ∧ r.depth = depth ∧
      r.Sound short := by
  have hcount := bitCount_lt_extent ht hsizes
  have hwritable : short → (Value.int f.bitCount).isWritable = true :=
    fun hs => isWritable_upTo hcount.1 (Int.le_of_lt hcount.2) (hlimit hs)
  rw [ownRow, header_located, sizeBits_located, sizeBits_eq hsizes]
  have hlabel := ht.own.header.isNodeName_labelText
  exact rowOfNode_placedAt (Header.isNodeName_nameUnder hlabel hpath index) (ofCell_kindName _)
    rfl hwritable rfl (by decide) (by decide)

/-- **Every tree that can be placed has its rows.** -/
theorem rows_located {f : Field} (ht : f.WellTyped) (hsizes : f.SizesWhole)
    (hplaceable : f.Placeable start) (hpath : path.IsNamed)
    (hlimit : short → (Value.int f.extent).isWritable = true) :
    (f.located path index start).HasRows short depth := by
  induction f using inductionOnChildren generalizing path index start depth with
  | node f ih =>
    have hinner := Header.isNamed_pathUnder ht.own.header.isNodeName_labelText hpath index
    have hchildren : ∀ c ∈ (f.located path index start).children,
        c.HasRows short (depth + 1) := by
      intro c hc
      obtain ⟨g, hg, index', start', rfl, hplaceable'⟩ := exists_of_mem_children_located hc
      have hpos := extent_pos (ht.child hg)
      exact ih g hg (ht.child hg) (hsizes.child hg) (hplaceable' hplaceable) hinner
        fun hs => isWritable_upTo (by omega) (extent_child_le ht hg) (hlimit hs)
    obtain ⟨own, hown, hdepth, hsound⟩ :=
      @ownRow_located short path index depth start f ht hsizes hpath hlimit
    have hbelow : ∃ below, (f.located path index start).rowsBelow (depth + 1) = .ok below ∧
        ∀ r ∈ below, depth < r.depth ∧ r.Sound short := by
      cases f with
      | word w | blob b => exact ⟨[], rfl, nofun⟩
      | bitfield b =>
        exact BitField.itemRows_located ht.own hplaceable.kind hsizes.own.2 hinner
      | struct h fields | union h members => exact rowsAll_of_forall hchildren
      | stray i => exact hplaceable.kind.elim
    obtain ⟨below, hrows, hbelow⟩ := hbelow
    have hstray : ∀ i, f.located path index start ≠ stray i := by
      intro i heq
      cases f with
      | stray j => exact hplaceable.kind
      | _ => cases heq
    exact ⟨own, below, rows_eq_ok hstray hown hrows, hdepth, hsound, hbelow⟩

end Field

end

end RegisterLayout
