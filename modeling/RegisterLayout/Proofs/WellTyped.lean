import RegisterLayout.Proofs.Described

/-!
# Trees of accepted documents

A tree that was read from an accepted document has texts and numbers in the right places.  Two
things are left open: a width may be a whole number or a binary64 number that is equal to one, and
a number may have any count of digits.

Principal definitions: `Field.WellTyped`; `Field.WidthsWhole` — the widths of words and bit fields
are whole numbers; `Field.NumbersShort` — all numbers of a tree can be written, and so can its
extent, which is above every index, offset and size in it.
Principal results: `Value.Describes.wellTyped`, `Field.bitCount_lt_extent`.
-/

namespace RegisterLayout

open Value

/-! ## Attributes -/

/-- Attributes that every node may have. -/
structure Header.WellTyped (h : Header) : Prop where
  name : ∀ v, h.name = some v → v.IsName
  shortName : ∀ v, h.shortName = some v → v.IsName
  desc : ∀ v, h.desc = some v → v.IsText
  offset : ∀ v, h.offset = some v → v.IsWhole (0 ≤ ·)

/-- The constants of an enumeration are numbers. -/
def Enumeration.Numeric (e : Option Enumeration) : Prop :=
  ∀ entry ∈ e.getD [], ∃ n, entry.2 = .num n

structure Item.WellTyped (i : Item) : Prop where
  header : i.header.WellTyped
  bits : i.bits.IsWhole fun n => 1 ≤ n ∧ n ≤ 64
  constants : Enumeration.Numeric i.enumeration

structure Word.WellTyped (w : Word) : Prop where
  header : w.header.WellTyped
  bits : w.bits.IsWhole (· ∈ wordWidths)
  typedef : ∀ v, w.typedef = some v → v.IsText
  constants : Enumeration.Numeric w.enumeration

structure BitField.WellTyped (b : BitField) : Prop where
  header : b.header.WellTyped
  bits : b.bits.IsWhole (· ∈ wordWidths)
  items : ∀ i ∈ b.items, i.WellTyped

structure Blob.WellTyped (b : Blob) : Prop where
  header : b.header.WellTyped
  bytes : b.bytes.IsWhole (1 ≤ ·)
  decl : ∀ v, b.decl = some v → v.IsText

namespace Field

/-- The attributes that a node has itself. -/
def OwnTyped : Field → Prop
  | word w => w.WellTyped
  | bitfield b => b.WellTyped
  | blob b => b.WellTyped
  | struct h _ | union h _ => h.WellTyped
  | stray _ => False

def WellTyped (f : Field) : Prop := ∀ g ∈ f.nodes, g.OwnTyped

theorem WellTyped.own {f : Field} (h : f.WellTyped) : f.OwnTyped := (forall_mem_nodes.1 h).1

theorem WellTyped.child {f c : Field} (h : f.WellTyped) (hc : c ∈ f.children) : c.WellTyped :=
  (forall_mem_nodes.1 h).2 c hc

theorem OwnTyped.header {f : Field} (h : f.OwnTyped) : f.header.WellTyped := by
  cases f with
  | word w => exact Word.WellTyped.header h
  | bitfield b => exact BitField.WellTyped.header h
  | blob b => exact Blob.WellTyped.header h
  | struct header fields => exact h
  | union header members => exact h
  | stray i => exact h.elim

end Field

/-! ## Trees as documents describe them -/

theorem Header.wellTyped_written {entries : List (Value × Value)} (h : CommonRules entries) :
    (Header.written entries).WellTyped :=
  ⟨h.name, h.shortName, h.desc, h.offset⟩

theorem numeric_of_may {entries : List (Value × Value)} {e : Option Enumeration}
    (h : May entries "enum" (IsEnumeration []))
    (he : lookup? entries "enum" = e.map Value.map) : Enumeration.Numeric e := by
  cases e with
  | none => exact fun _ hentry => nomatch hentry
  | some constants =>
    obtain ⟨entries', hopened, hwhole⟩ := h _ he
    obtain rfl := Value.map.inj ((opened_nil _).symm.trans hopened)
    intro entry hentry
    obtain ⟨n, -, hn, -, -⟩ := hwhole entry hentry
    exact ⟨n, hn⟩

theorem of_must {entries : List (Value × Value)} {key : String} {v : Value} {p : Value → Prop}
    (h : Must entries key p) (hv : lookup? entries key = some v) : p v := by
  obtain ⟨w, hw, hp⟩ := h
  obtain rfl := Option.some.inj (hw.symm.trans hv)
  exact hp

theorem Value.DescribesItem.wellTyped {v : Value} {i : Item} (h : v.DescribesItem i)
    (hv : v.IsItem []) : i.WellTyped := by
  obtain ⟨entries, hopened, rules⟩ := hv
  cases h with
  | item header bits enumeration only bitRange =>
    obtain rfl := Value.map.inj ((opened_nil _).symm.trans hopened)
    exact ⟨header ▸ Header.wellTyped_written rules.toCommonRules, of_must rules.bits bits,
      numeric_of_may rules.constants enumeration⟩

/-- Two lists of which the elements go together have each element in a pair. -/
theorem exists_left_of_forall₂ {α β : Type} {r : α → β → Prop} {xs : List α} {ys : List β}
    (h : List.Forall₂ r xs ys) {y : β} (hy : y ∈ ys) : ∃ x ∈ xs, r x y := by
  induction h with
  | nil => cases hy
  | cons hxy _ ih =>
    rcases List.mem_cons.1 hy with rfl | hy
    · exact ⟨_, List.mem_cons_self, hxy⟩
    · obtain ⟨x, hx, hr⟩ := ih hy
      exact ⟨x, List.mem_cons_of_mem _ hx, hr⟩

/-- A mapping has one type. -/
theorem type_unique {entries : List (Value × Value)} {a b : Text}
    (ha : lookup? entries "type" = some (.str a)) (hb : lookup? entries "type" = some (.str b)) :
    a = b :=
  Value.str.inj (Option.some.inj (ha.symm.trans hb))

/-- Trees that listed values describe one by one are well typed if each is. -/
theorem Field.wellTyped_of_forall₂ {xs : List Value} {fs : List Field}
    (each : List.Forall₂ Value.Describes xs fs)
    (h : ∀ x ∈ xs, ∀ {f : Field}, x.Describes f → f.WellTyped) : ∀ f ∈ fs, f.WellTyped := by
  intro f hf
  obtain ⟨x, hx, hdescribes⟩ := exists_left_of_forall₂ each hf
  exact h x hx hdescribes

/-- **A tree that an accepted document describes has attributes of the right types.** -/
theorem Value.Describes.wellTyped {v : Value} {f : Field} (h : v.Describes f)
    (hv : v.IsField []) : f.WellTyped := by
  induction hv generalizing f with
  | word hopened type rules =>
    rw [opened_nil] at hopened
    subst hopened
    cases h with
    | word _ header bits _ typedef enumeration =>
      exact List.forall_mem_singleton.2 ⟨header ▸ Header.wellTyped_written rules.toCommonRules,
        of_must rules.bits bits, fun v hv => rules.typedef v (typedef.trans hv),
        numeric_of_may rules.constants enumeration⟩
    | _ => exact absurd (type_unique type ‹lookup? _ _ = _›) (by decide)
  | bitfield hopened type rules =>
    rw [opened_nil] at hopened
    subst hopened
    cases h with
    | bitfield _ header bits fields items =>
      obtain ⟨xs, hxs, hitems⟩ := of_must rules.items fields
      obtain rfl := Value.list.inj ((opened_nil _).symm.trans hxs)
      refine List.forall_mem_singleton.2 ⟨header ▸ Header.wellTyped_written rules.toCommonRules,
        of_must rules.bits bits, fun i hi => ?_⟩
      obtain ⟨x, hx, hdescribes⟩ := exists_left_of_forall₂ items hi
      exact hdescribes.wellTyped (hitems x hx)
    | _ => exact absurd (type_unique type ‹lookup? _ _ = _›) (by decide)
  | struct hopened type rules _ ih =>
    rw [opened_nil] at hopened
    subst hopened
    cases h with
    | struct _ fields each =>
      have hxs := of_must rules.fields fields
      obtain rfl := Value.list.inj ((opened_nil _).symm.trans hxs)
      exact Field.forall_mem_nodes.2 ⟨Header.wellTyped_written rules.toCommonRules,
        Field.wellTyped_of_forall₂ each ih⟩
    | _ => exact absurd (type_unique type ‹lookup? _ _ = _›) (by decide)
  | blob hopened type rules =>
    rw [opened_nil] at hopened
    subst hopened
    cases h with
    | blob _ header bytes decl =>
      exact List.forall_mem_singleton.2 ⟨header ▸ Header.wellTyped_written rules.toCommonRules,
        of_must rules.bytes bytes, fun v hv => rules.decl v (decl.trans hv)⟩
    | _ => exact absurd (type_unique type ‹lookup? _ _ = _›) (by decide)
  | union hopened type rules _ ih =>
    rw [opened_nil] at hopened
    subst hopened
    cases h with
    | union _ fields each =>
      have hxs := of_must rules.fields fields
      obtain rfl := Value.list.inj ((opened_nil _).symm.trans hxs)
      exact Field.forall_mem_nodes.2 ⟨Header.wellTyped_written rules.toCommonRules,
        Field.wellTyped_of_forall₂ each ih⟩
    | _ => exact absurd (type_unique type ‹lookup? _ _ = _›) (by decide)

/-! ## Whole widths -/

namespace Field

/-- A word or a bit field of whole width. -/
def OwnWidthWhole : Field → Prop
  | word w => ∃ n, w.bits = .int n
  | bitfield b => ∃ n, b.bits = .int n
  | _ => True

instance (f : Field) : Decidable f.OwnWidthWhole :=
  match f with
  | word w => decidable_of_iff (w.bits.int?.isSome = true) (by
      simp [OwnWidthWhole, Option.isSome_iff_exists])
  | bitfield b => decidable_of_iff (b.bits.int?.isSome = true) (by
      simp [OwnWidthWhole, Option.isSome_iff_exists])
  | blob _ | struct _ _ | union _ _ | stray _ => isTrue trivial

/-- The widths of all words and bit fields in a tree are whole numbers. -/
def WidthsWhole (f : Field) : Prop := ∀ g ∈ f.nodes, g.OwnWidthWhole

instance (f : Field) : Decidable f.WidthsWhole := inferInstanceAs (Decidable (∀ g ∈ f.nodes, _))

theorem WidthsWhole.own {f : Field} (h : f.WidthsWhole) : f.OwnWidthWhole :=
  (forall_mem_nodes.1 h).1

theorem WidthsWhole.child {f c : Field} (h : f.WidthsWhole) (hc : c ∈ f.children) :
    c.WidthsWhole :=
  (forall_mem_nodes.1 h).2 c hc

/-! ## The extent of a tree -/

/-- The bits that a node asks for itself, and those that its items ask for. -/
def ownBits : Field → Int
  | word w => w.bits.whole
  | bitfield b => b.bits.whole + b.itemBits
  | blob b => 8 * b.bytes.whole
  | struct _ _ | union _ _ => 0
  | stray i => i.bits.whole

/-- All bits that a tree asks for, those of every member of a union counted, and one for each
node. -/
def extent (f : Field) : Int := (f.nodes.map fun g => g.ownBits + 1).sum

theorem sum_nodesOf (fs : List Field) :
    ((nodesOf fs).map fun g => g.ownBits + 1).sum = (fs.map extent).sum := by
  induction fs with
  | nil => rfl
  | cons f fs ih => rw [nodesOf, List.map_append, List.sum_append, ih, List.map_cons, List.sum_cons,
      extent]

theorem extent_eq (f : Field) : f.extent = f.ownBits + 1 + (f.children.map extent).sum := by
  rw [extent, nodes_eq, List.map_cons, List.sum_cons, sum_nodesOf]

theorem whole_nonneg {p : Int → Prop} {v : Value} (h : v.IsWhole p) (hp : ∀ n, p n → 0 ≤ n) :
    0 ≤ v.whole := by
  obtain ⟨n, m, rfl, hm, hn⟩ := h
  cases n with
  | int n =>
    obtain rfl : n = m := Option.some.inj hm
    exact hp n hn
  | real x => exact Int.le_refl 0

theorem width_nonneg {v : Value} (h : v.IsWhole (· ∈ wordWidths)) : 0 ≤ v.whole :=
  whole_nonneg h fun _ hn => Int.le_of_lt (wordWidths_pos hn).1

theorem itemBits_nonneg {b : BitField} (h : ∀ i ∈ b.items, i.WellTyped) : 0 ≤ b.itemBits := by
  refine List.sum_nonneg fun n hn => ?_
  obtain ⟨i, hi, rfl⟩ := List.mem_map.1 hn
  exact whole_nonneg (h i hi).bits fun n hn => by omega

theorem ownBits_nonneg {f : Field} (h : f.OwnTyped) : 0 ≤ f.ownBits := by
  cases f with
  | word w => exact width_nonneg (Word.WellTyped.bits h)
  | bitfield b =>
    exact Int.add_nonneg (width_nonneg (BitField.WellTyped.bits h))
      (itemBits_nonneg (BitField.WellTyped.items h))
  | blob b =>
    have hbytes := whole_nonneg (Blob.WellTyped.bytes h) fun n hn => by omega
    rw [ownBits]
    omega
  | struct | union => exact Int.le_refl 0
  | stray => exact h.elim

theorem extent_pos {f : Field} (h : f.WellTyped) : 1 ≤ f.extent := by
  induction f using inductionOnChildren with
  | node f ih =>
    have hown := ownBits_nonneg h.own
    have hbelow : 0 ≤ (f.children.map extent).sum := by
      refine List.sum_nonneg fun n hn => ?_
      obtain ⟨c, hc, rfl⟩ := List.mem_map.1 hn
      exact Int.le_trans (by decide) (ih c hc (h.child hc))
    rw [extent_eq]
    omega

/-- The extent of a tree is above what each of its nodes asks for. -/
theorem ownBits_lt_extent {f g : Field} (h : f.WellTyped) (hg : g ∈ f.nodes) :
    g.ownBits < f.extent := by
  have hnonneg : ∀ n ∈ f.nodes.map fun g => g.ownBits + 1, 0 ≤ n := by
    intro n hn
    obtain ⟨g, hg, rfl⟩ := List.mem_map.1 hn
    have hown := ownBits_nonneg (h g hg)
    omega
  have hle := List.single_le_sum hnonneg _ (List.mem_map_of_mem hg)
  exact Int.lt_of_lt_of_le (Int.lt_succ _) hle

theorem extent_child_le {f c : Field} (h : f.WellTyped) (hc : c ∈ f.children) :
    c.extent ≤ f.extent := by
  have hnonneg : ∀ n ∈ f.children.map extent, 0 ≤ n := by
    intro n hn
    obtain ⟨c, hc, rfl⟩ := List.mem_map.1 hn
    exact Int.le_trans (by decide) (extent_pos (h.child hc))
  have hle := List.single_le_sum hnonneg _ (List.mem_map_of_mem hc)
  have hown := ownBits_nonneg h.own
  rw [extent_eq f]
  omega

theorem extent_of_leaf {f : Field} (hleaf : f.children = []) : f.extent = f.ownBits + 1 := by
  rw [extent_eq, hleaf, List.map_nil, List.sum_nil, Int.add_zero]

/-- **The size of a tree is below its extent.** -/
theorem bitCount_lt_extent {f : Field} (h : f.WellTyped) (hsizes : f.SizesWhole) :
    0 ≤ f.bitCount ∧ f.bitCount < f.extent := by
  induction f using inductionOn with
  | word w =>
    obtain ⟨n, hn⟩ := hsizes.own
    have hown := ownBits_nonneg h.own
    rw [ownBits, hn, Value.whole_int] at hown
    rw [bitCount_word hn, extent_of_leaf rfl, ownBits, hn, Value.whole_int]
    omega
  | bitfield b =>
    obtain ⟨⟨n, hn⟩, -⟩ := hsizes.own
    have hitems : 0 ≤ b.itemBits := itemBits_nonneg (BitField.WellTyped.items h.own)
    have hwidth := width_nonneg (BitField.WellTyped.bits h.own)
    rw [hn, Value.whole_int] at hwidth
    rw [bitCount_bitfield hn, extent_of_leaf rfl, ownBits, hn, Value.whole_int]
    omega
  | blob b =>
    obtain ⟨n, hn⟩ := hsizes.own
    have hown := ownBits_nonneg h.own
    rw [ownBits, hn, Value.whole_int] at hown
    rw [bitCount_blob hn, extent_of_leaf rfl, ownBits, hn, Value.whole_int]
    omega
  | struct header fields ih =>
    have hfields : ∀ f ∈ fields, 0 ≤ f.bitCount ∧ f.bitCount < f.extent := fun f hf =>
      ih f hf (h.child hf) (hsizes.child hf)
    have hnonneg : 0 ≤ (fields.map bitCount).sum := by
      refine List.sum_nonneg fun n hn => ?_
      obtain ⟨f, hf, rfl⟩ := List.mem_map.1 hn
      exact (hfields f hf).1
    have hsum : (fields.map bitCount).sum ≤ (fields.map extent).sum :=
      List.sum_le_sum fun f hf => Int.le_of_lt (hfields f hf).2
    have hwhole : ∀ f ∈ fields, f.SizesWhole := fun f hf => hsizes.child hf
    rw [bitCount_struct hwhole, extent_eq, ownBits, children]
    omega
  | union header members ih =>
    have hmembers : ∀ f ∈ members, 0 ≤ f.bitCount ∧ f.bitCount < f.extent := fun f hf =>
      ih f hf (h.child hf) (hsizes.child hf)
    have hextents : ∀ n ∈ members.map extent, 0 ≤ n := by
      intro n hn
      obtain ⟨f, hf, rfl⟩ := List.mem_map.1 hn
      exact Int.le_of_lt (Int.lt_of_le_of_lt (hmembers f hf).1 (hmembers f hf).2)
    have hwhole : ∀ f ∈ members, f.SizesWhole := fun f hf => hsizes.child hf
    rw [bitCount_union hwhole, extent_eq, ownBits, children]
    cases hmax : (members.map bitCount).max? with
    | none =>
      have := List.sum_nonneg hextents
      rw [Option.getD_none]
      omega
    | some n =>
      obtain ⟨f, hf, rfl⟩ := List.mem_map.1 (List.max?_mem hmax)
      have hle := List.single_le_sum hextents _ (List.mem_map_of_mem hf)
      have := hmembers f hf
      rw [Option.getD_some]
      omega
  | stray i => exact h.own.elim

/-! ## Numbers of few digits -/

/-- The keys and the values of an enumeration. -/
def enumerationParts (e : Option Enumeration) : List Value :=
  (e.getD []).flatMap fun entry => [entry.1, entry.2]

/-- The values of a node that a message can show. -/
def ownParts (f : Field) : List Value :=
  f.header.offset.toList ++ match f with
    | word w => enumerationParts w.enumeration
    | bitfield b => b.items.flatMap fun i => enumerationParts i.enumeration
    | stray i => enumerationParts i.enumeration
    | _ => []

/-- No number of a tree has too many digits to be written, and neither has its extent. -/
structure NumbersShort (f : Field) : Prop where
  parts : ∀ g ∈ f.nodes, ∀ v ∈ g.ownParts, v.isWritable = true
  extent : (Value.int f.extent).isWritable = true

instance (f : Field) : Decidable f.NumbersShort :=
  decidable_of_iff ((∀ g ∈ f.nodes, ∀ v ∈ g.ownParts, v.isWritable = true) ∧
      (Value.int f.extent).isWritable = true)
    ⟨fun ⟨hparts, hextent⟩ => ⟨hparts, hextent⟩, fun h => ⟨h.parts, h.extent⟩⟩

end Field

end RegisterLayout
