import Mathlib.Data.List.Flatten
import RegisterLayout.Proofs.ItemDeclaration
import RegisterLayout.Proofs.NameClash

/-!
# Declared trees

What the declarations of a placed tree are, as a relation between its fields and their members
and blocks.  A struct or a union has a member for each field, and the names that are made up for
unnamed ones are numbered within it.  The bit fields of the tree have their blocks in the order of
their nodes, an unnamed one under the name that the struct of the tree has for it.

Principal definitions: `DeclaredLeaf`, `Declares`; `Field.bitFields`, `numberedBitFields`.
Principal results: `declares_of_declareFields`, `Declares.blocks_eq`, `Field.declarations_eq_ok`.
-/

namespace RegisterLayout

/-! ## The bit fields of a tree -/

namespace Field

def bitField? : Field → Option BitField
  | bitfield b => some b
  | _ => none

/-- The bit fields of a tree in the order of its nodes. -/
def bitFields (f : Field) : List BitField := f.nodes.filterMap bitField?

def bitFieldsOf (fs : List Field) : List BitField := (nodesOf fs).filterMap bitField?

theorem bitFieldsOf_cons (f : Field) (fs : List Field) :
    bitFieldsOf (f :: fs) = f.bitFields ++ bitFieldsOf fs :=
  List.filterMap_append

theorem bitFieldsOf_union_cons (h : Header) (members fs : List Field) :
    bitFieldsOf (union h members :: fs) = bitFieldsOf members ++ bitFieldsOf fs :=
  bitFieldsOf_cons (union h members) fs

end Field

/-- Bit fields with the names that their members have, behind some unnamed ones. -/
def numberedBitFields (number : Nat) : List BitField → List (BitField × Text)
  | [] => []
  | b :: bs =>
    (b, b.header.nameOr "bitfield_" number) :: numberedBitFields (number + b.header.unnamed) bs

theorem map_fst_numberedBitFields (number : Nat) (bs : List BitField) :
    (numberedBitFields number bs).map Prod.fst = bs := by
  induction bs generalizing number with
  | nil => rfl
  | cons b bs ih => rw [numberedBitFields, List.map_cons, ih]

theorem flatMap_numberedBitFields {α : Type} (number : Nat) (bs : List BitField)
    (f : BitField → List α) :
    (numberedBitFields number bs).flatMap (fun b => f b.1) = bs.flatMap f := by
  rw [← List.flatMap_map, map_fst_numberedBitFields]

theorem mem_of_mem_numberedBitFields {number : Nat} {bs : List BitField} {b : BitField × Text}
    (hb : b ∈ numberedBitFields number bs) : b.1 ∈ bs := by
  rw [← map_fst_numberedBitFields number bs]
  exact List.mem_map_of_mem hb

/-- Bit fields that have names are not numbered. -/
theorem numberedBitFields_append {named : List BitField} (hnamed : ∀ b ∈ named, b.header.IsNamed)
    (start number : Nat) (bs : List BitField) :
    numberedBitFields number (named ++ bs)
      = numberedBitFields start named ++ numberedBitFields number bs := by
  induction named generalizing start with
  | nil => rfl
  | cons b named ih =>
    obtain ⟨hb, hnamed⟩ := List.forall_mem_cons.1 hnamed
    obtain ⟨name, hname⟩ := Option.isSome_iff_exists.1 hb
    have hnone : b.header.unnamed = 0 := by simp [Header.unnamed, hname]
    simp only [List.cons_append, numberedBitFields, hnone, Nat.add_zero, ih hnamed start,
      Header.nameOr, hname]

/-! ## Declared members -/

/-- The type of the member for a word. -/
def Word.memberType (w : Word) : WordType :=
  match filled? w.typedef with
  | some name => .named name.text
  | none => .plain (filled? w.signed).isSome w.bits

/-- What is declared for a field without members. -/
inductive DeclaredLeaf (o : DeclarationOptions) (struct : Text) (n : UnnamedMembers) :
    Field → Member → List BitFieldBlock → Prop
  | word (w : Word) :
      DeclaredLeaf o struct n (.word w) (.word w.memberType (w.header.nameOr "unused_" n.plain)) []
  | verbatim (b : Blob) (decl : Text) (hdecl : filled? b.decl = some (.str decl)) :
      DeclaredLeaf o struct n (.blob b) (.verbatim decl) []
  | bytes (b : Blob) (hdecl : filled? b.decl = none) :
      DeclaredLeaf o struct n (.blob b) (.bytes (numberedName "unused_" n.plain) b.bytes) []
  | bitfield (b : BitField) :
      DeclaredLeaf o struct n (.bitfield b)
        (.word (.plain false b.bits) (b.header.nameOr "bitfield_" n.bitFields))
        [b.block o struct (b.header.nameOr "bitfield_" n.bitFields)]

/-- What is declared for fields behind some unnamed ones. -/
inductive Declares (o : DeclarationOptions) (struct : Text) :
    UnnamedMembers → List Field → List Member → List BitFieldBlock → Prop
  | nil {n : UnnamedMembers} : Declares o struct n [] [] []
  | leaf {n : UnnamedMembers} {f : Field} {fs : List Field} {m : Member} {ms : List Member}
      {own blocks : List BitFieldBlock} (first : DeclaredLeaf o struct n f m own)
      (rest : Declares o struct (n.after f) fs ms blocks) :
      Declares o struct n (f :: fs) ((o.comment? f.header).toList.map .doc ++ m :: ms)
        (own ++ blocks)
  | union {n : UnnamedMembers} {h : Header} {members fs : List Field} {inner ms : List Member}
      {own blocks : List BitFieldBlock} (within : Declares o struct {} members inner own)
      (rest : Declares o struct n fs ms blocks) :
      Declares o struct n (.union h members :: fs)
        ((o.comment? h).toList.map .doc ++ .union (h.name.map Value.text) inner :: ms)
        (own ++ blocks)

theorem memberName_eq_ok {h : Header} {stem : String} {number : Nat} {name : Text}
    (hname : memberName h (numberedName stem number) = .ok name) : name = h.nameOr stem number := by
  unfold memberName at hname
  unfold Header.nameOr
  cases hgiven : h.givenName? with
  | none =>
    rw [hgiven] at hname
    exact (Except.ok.inj hname).symm
  | some given =>
    rw [hgiven] at hname
    exact written_eq_ok hname

theorem declareWord_eq_ok {n : UnnamedMembers} {w : Word} {m : Member}
    (h : declareWord n w = .ok m) :
    m = .word w.memberType (w.header.nameOr "unused_" n.plain) := by
  unfold declareWord at h
  unfold Word.memberType
  cases htypedef : filled? w.typedef with
  | none =>
    simp only [htypedef, bind_eq_ok_iff, pure_eq_ok_iff] at h
    obtain ⟨bits, hbits, type, rfl, name, hname, rfl⟩ := h
    rw [writable_eq_ok hbits, memberName_eq_ok hname]
  | some given =>
    simp only [htypedef, bind_eq_ok_iff, pure_eq_ok_iff] at h
    obtain ⟨type, htype, _, rfl, name, hname, rfl⟩ := h
    rw [written_eq_ok htype, memberName_eq_ok hname]

theorem declareBlob_eq_ok {o : DeclarationOptions} {struct : Text} {n : UnnamedMembers} {b : Blob}
    {m : Member} (h : declareBlob n b = .ok m) : DeclaredLeaf o struct n (.blob b) m [] := by
  unfold declareBlob at h
  cases hdecl : filled? b.decl with
  | none =>
    simp only [hdecl, bind_eq_ok_iff, pure_eq_ok_iff] at h
    obtain ⟨bytes, hbytes, rfl⟩ := h
    rw [writable_eq_ok hbytes]
    exact .bytes b hdecl
  | some decl =>
    cases decl with
    | str decl =>
      simp only [hdecl, pure_eq_ok_iff] at h
      subst h
      exact .verbatim b decl hdecl
    | _ =>
      simp only [hdecl] at h
      exact absurd h throw_ne_ok

/-! ## Unnamed members -/

/-- How many made-up names the member for a field takes from those that words and blobs share. -/
def Field.plainSpare : Field → Nat
  | word w => w.header.unnamed
  | blob b => if filled? b.decl = none then 1 else 0
  | _ => 0

/-- How many made-up names the member for a field takes from those for bit fields. -/
def Field.bitFieldSpare : Field → Nat
  | bitfield b => b.header.unnamed
  | _ => 0

namespace UnnamedMembers

theorem after_plain (n : UnnamedMembers) (f : Field) :
    (n.after f).plain = n.plain + f.plainSpare := by
  cases f with
  | word w =>
    cases hname : w.header.givenName? <;> simp [after, Field.plainSpare, Header.unnamed, hname]
  | blob b => cases hdecl : filled? b.decl <;> simp [after, Field.plainSpare, hdecl]
  | bitfield b => cases hname : b.header.givenName? <;> simp [after, Field.plainSpare, hname]
  | _ => rfl

theorem after_bitFields (n : UnnamedMembers) (f : Field) :
    (n.after f).bitFields = n.bitFields + f.bitFieldSpare := by
  cases f with
  | word w => cases hname : w.header.givenName? <;> simp [after, Field.bitFieldSpare, hname]
  | blob b => cases hdecl : filled? b.decl <;> simp [after, Field.bitFieldSpare, hdecl]
  | bitfield b =>
    cases hname : b.header.givenName? <;> simp [after, Field.bitFieldSpare, Header.unnamed, hname]
  | _ => rfl

end UnnamedMembers

/-! ## Whole trees -/

namespace Field

/-- Items have at least one bit each. -/
def ItemsCounted (bs : List BitField) : Prop := ∀ b ∈ bs, ∀ i ∈ b.items, 1 ≤ i.bits.whole

section

variable {o : DeclarationOptions} {structName : Text}

/-- What is declared for a field stands before what is declared for the fields behind it. -/
def DeclaredBefore (o : DeclarationOptions) (structName : Text) (f : Field) : Prop :=
  ∀ (n : UnnamedMembers) (first : List Member) (own : List BitFieldBlock),
    ItemsCounted f.bitFields → declareField o structName n f = .ok (first, own) →
    ∀ {fs : List Field} {ms : List Member} {blocks : List BitFieldBlock},
      Declares o structName (n.after f) fs ms blocks →
      Declares o structName n (f :: fs)
        ((o.comment? f.header).toList.map .doc ++ first ++ ms) (own ++ blocks)

theorem declares_of_forall {fs : List Field} (hfs : ∀ f ∈ fs, f.DeclaredBefore o structName)
    (hcounted : ItemsCounted (bitFieldsOf fs)) {n : UnnamedMembers} {ms : List Member}
    {blocks : List BitFieldBlock} (h : declareFields o structName n fs = .ok (ms, blocks)) :
    Declares o structName n fs ms blocks := by
  induction fs generalizing n ms blocks with
  | nil =>
    rw [declareFields, Except.ok.injEq] at h
    obtain ⟨rfl, rfl⟩ := Prod.mk.inj h
    exact .nil
  | cons f fs ih =>
    obtain ⟨hf, hfs⟩ := List.forall_mem_cons.1 hfs
    rw [ItemsCounted, bitFieldsOf_cons, List.forall_mem_append] at hcounted
    simp only [declareFields, bind_eq_ok_iff, Prod.exists, pure_eq_ok_iff] at h
    obtain ⟨doc, hdoc, first, own, hfirst, more, moreBlocks, hmore, hr⟩ := h
    obtain ⟨rfl, rfl⟩ := Prod.mk.inj hr
    rw [docOf_eq_ok hdoc]
    exact hf n first own hcounted.1 hfirst (ih hfs hcounted.2 hmore)

theorem declaredBefore (o : DeclarationOptions) (structName : Text) (f : Field) :
    f.DeclaredBefore o structName := by
  -- A leaf stands before the rest with its one member.
  have hleaf : ∀ {f : Field} {n : UnnamedMembers} {m : Member} {own : List BitFieldBlock},
      DeclaredLeaf o structName n f m own →
      ∀ {fs : List Field} {ms : List Member} {blocks : List BitFieldBlock},
        Declares o structName (n.after f) fs ms blocks →
        Declares o structName n (f :: fs)
          ((o.comment? f.header).toList.map .doc ++ [m] ++ ms) (own ++ blocks) := by
    intro f n m own hfirst fs ms blocks hrest
    rw [List.append_assoc, List.singleton_append]
    exact .leaf hfirst hrest
  induction f using inductionOn with
  | word w =>
    intro n first own _ h fs ms blocks hrest
    simp only [declareField, bind_eq_ok_iff, pure_eq_ok_iff] at h
    obtain ⟨m, hm, hr⟩ := h
    obtain ⟨rfl, rfl⟩ := Prod.mk.inj hr
    rw [declareWord_eq_ok hm]
    exact hleaf (.word w) hrest
  | blob b =>
    intro n first own _ h fs ms blocks hrest
    simp only [declareField, bind_eq_ok_iff, pure_eq_ok_iff] at h
    obtain ⟨m, hm, hr⟩ := h
    obtain ⟨rfl, rfl⟩ := Prod.mk.inj hr
    exact hleaf (declareBlob_eq_ok hm) hrest
  | bitfield b =>
    intro n first own hcounted h fs ms blocks hrest
    simp only [declareField, bind_eq_ok_iff, pure_eq_ok_iff] at h
    obtain ⟨name, hname, block, hblock, bits, hbits, hr⟩ := h
    obtain ⟨rfl, rfl⟩ := Prod.mk.inj hr
    obtain rfl := memberName_eq_ok hname
    rw [writable_eq_ok hbits, declareBitField_eq_ok (hcounted b List.mem_cons_self) hblock]
    exact hleaf (.bitfield b) hrest
  | union h members ih =>
    intro n first own hcounted hd fs ms blocks hrest
    simp only [declareField, bind_eq_ok_iff, Prod.exists, pure_eq_ok_iff] at hd
    obtain ⟨inner, innerBlocks, hinner, name, hname, hr⟩ := hd
    obtain ⟨rfl, rfl⟩ := Prod.mk.inj hr
    obtain rfl := optionMapM_eq_ok (fun _ _ => written_eq_ok) hname
    rw [List.append_assoc, List.singleton_append]
    exact .union (declares_of_forall ih hcounted hinner) hrest
  | struct h fields =>
    intro n first own _ hd
    cases hd
  | stray i =>
    intro n first own _ hd
    cases hd

/-- **What is declared for fields is what the relation says.** -/
theorem declares_of_declareFields {fs : List Field} (hcounted : ItemsCounted (bitFieldsOf fs))
    {n : UnnamedMembers} {ms : List Member} {blocks : List BitFieldBlock}
    (h : declareFields o structName n fs = .ok (ms, blocks)) :
    Declares o structName n fs ms blocks :=
  declares_of_forall (fun f _ => declaredBefore o structName f) hcounted h

end

/-- Trees that were placed. -/
def AllPlaced (fs : List Field) : Prop := ∀ f ∈ fs, ∃ path index, f.PlacedUnder path index

/-- Trees that were placed one after the other under one path. -/
def Siblings (fs : List Field) : Prop :=
  ∃ path, ∀ (k : Nat) (f : Field), fs[k]? = some f → f.PlacedUnder path k

theorem PlacedUnder.siblings {f : Field} {path : Path} {index : Nat}
    (h : f.PlacedUnder path index) : Siblings f.children := by
  obtain ⟨-, -, -, children⟩ := h
  exact ⟨_, children⟩

theorem Siblings.allPlaced {fs : List Field} (h : Siblings fs) : AllPlaced fs := by
  obtain ⟨path, h⟩ := h
  intro f hf
  obtain ⟨k, hk⟩ := List.mem_iff_getElem?.1 hf
  exact ⟨path, k, h k f hk⟩

theorem PlacedUnder.children {f : Field} {path : Path} {index : Nat}
    (h : f.PlacedUnder path index) : AllPlaced f.children :=
  h.siblings.allPlaced

theorem placed_of_mem_bitFieldsOf {fs : List Field} (h : AllPlaced fs) {b : BitField}
    (hb : b ∈ bitFieldsOf fs) : ∃ path index, (bitfield b).PlacedUnder path index := by
  obtain ⟨g, hg, hb⟩ := List.mem_filterMap.1 hb
  obtain ⟨f, hf, hg⟩ := mem_nodesOf.1 hg
  obtain ⟨path, index, hplaced⟩ := h f hf
  cases g with
  | bitfield b' =>
    obtain rfl := Option.some.inj hb
    exact hplaced.node_of_mem _ hg
  | _ => cases hb

theorem PlacedUnder.item {b : BitField} {path : Path} {index : Nat}
    (h : (bitfield b).PlacedUnder path index) {i : Item} (hi : i ∈ b.items) :
    ∃ path index, i.PlacedUnder path index := by
  obtain ⟨-, items, -, -⟩ := h
  obtain ⟨k, hk⟩ := List.mem_iff_getElem?.1 hi
  exact ⟨_, k, items b rfl k i hk⟩

/-- The bit fields of placed trees have items of at least one bit. -/
theorem itemsCounted_of_placed {fs : List Field} (h : AllPlaced fs) :
    ItemsCounted (bitFieldsOf fs) := by
  intro b hb i hi
  obtain ⟨_, _, hplaced⟩ := placed_of_mem_bitFieldsOf h hb
  obtain ⟨_, _, hitem⟩ := hplaced.item hi
  exact hitem.width

end Field

namespace Declares

variable {o : DeclarationOptions} {struct : Text} {n : UnnamedMembers} {fs : List Field}
  {ms : List Member} {blocks : List BitFieldBlock}

/-- The bit fields below named fields and blobs have names: a union has no other members. -/
theorem isNamed (h : Declares o struct n fs ms blocks) (hplaced : Field.AllPlaced fs)
    (hnamed : ∀ f ∈ fs, (∃ b, f = .blob b) ∨ f.header.IsNamed) :
    ∀ b ∈ Field.bitFieldsOf fs, b.header.IsNamed := by
  induction h with
  | nil => nofun
  | leaf first rest ih =>
    obtain ⟨hf, hnamed⟩ := List.forall_mem_cons.1 hnamed
    have hrest := ih (List.forall_mem_cons.1 hplaced).2 hnamed
    cases first with
    | bitfield b =>
      refine List.forall_mem_cons.2 ⟨?_, hrest⟩
      rcases hf with ⟨b', hb'⟩ | hf
      · cases hb'
      · exact hf
    | _ => exact hrest
  | union within rest ihWithin ihRest =>
    obtain ⟨⟨path, index, hunion⟩, hplaced⟩ := List.forall_mem_cons.1 hplaced
    obtain ⟨-, hnamed⟩ := List.forall_mem_cons.1 hnamed
    have hmembers := hunion.children
    obtain ⟨-, -, union, -⟩ := hunion
    rw [Field.bitFieldsOf_union_cons, List.forall_mem_append]
    exact ⟨ihWithin hmembers (union _ _ rfl).2, ihRest hplaced hnamed⟩

/-- The bit fields of a union have names. -/
theorem isNamed_of_union {h : Header} {members : List Field}
    (within : Declares o struct n members ms blocks)
    (hplaced : Field.AllPlaced [.union h members]) :
    ∀ b ∈ Field.bitFieldsOf members, b.header.IsNamed := by
  obtain ⟨path, index, hunion⟩ := hplaced _ List.mem_cons_self
  have hmembers := hunion.children
  obtain ⟨-, -, union, -⟩ := hunion
  exact within.isNamed hmembers (union h members rfl).2

/-- **Every bit field of the tree has its block, in the order of the nodes.** -/
theorem blocks_eq (h : Declares o struct n fs ms blocks) (hplaced : Field.AllPlaced fs) :
    blocks = (numberedBitFields n.bitFields (Field.bitFieldsOf fs)).map
      fun b => b.1.block o struct b.2 := by
  induction h with
  | nil => rfl
  | @leaf n f fs m ms own blocks first rest ih =>
    have hrest := ih (List.forall_mem_cons.1 hplaced).2
    rw [UnnamedMembers.after_bitFields] at hrest
    cases first with
    | bitfield b =>
      rw [hrest]
      rfl
    | _ => exact hrest
  | @union n h members fs inner ms own blocks within rest ihWithin ihRest =>
    obtain ⟨hunion, hplaced⟩ := List.forall_mem_cons.1 hplaced
    have hnamed := within.isNamed_of_union (List.forall_mem_singleton.2 hunion)
    obtain ⟨path, index, hunion⟩ := hunion
    rw [ihWithin hunion.children, ihRest hplaced, Field.bitFieldsOf_union_cons,
      numberedBitFields_append hnamed 0, List.map_append]

/-- An unnamed bit field is a member of the struct itself, of the bit field's width and with the
name that its block refers to. -/
theorem word_mem (h : Declares o struct n fs ms blocks) (hplaced : Field.AllPlaced fs) :
    ∀ b ∈ numberedBitFields n.bitFields (Field.bitFieldsOf fs), ¬b.1.header.IsNamed →
      .word (.plain false b.1.bits) b.2 ∈ ms := by
  induction h with
  | nil => nofun
  | @leaf n f fs m ms own blocks first rest ih =>
    have hrest := ih (List.forall_mem_cons.1 hplaced).2
    rw [UnnamedMembers.after_bitFields] at hrest
    intro b hb hunnamed
    cases first with
    | bitfield bf =>
      rcases List.mem_cons.1 hb with rfl | hb
      · exact List.mem_append_right _ List.mem_cons_self
      · exact List.mem_append_right _ (List.mem_cons_of_mem _ (hrest b hb hunnamed))
    | _ => exact List.mem_append_right _ (List.mem_cons_of_mem _ (hrest b hb hunnamed))
  | @union n h members fs inner ms own blocks within rest ihWithin ihRest =>
    obtain ⟨hunion, hplaced⟩ := List.forall_mem_cons.1 hplaced
    have hnamed := within.isNamed_of_union (List.forall_mem_singleton.2 hunion)
    intro b hb hunnamed
    rw [Field.bitFieldsOf_union_cons, numberedBitFields_append hnamed 0, List.mem_append] at hb
    rcases hb with hb | hb
    · -- The bit fields of the union have names.
      exact absurd (hnamed b.1 (mem_of_mem_numberedBitFields hb)) hunnamed
    · exact List.mem_append_right _ (List.mem_cons_of_mem _ (ihRest hplaced b hb hunnamed))

end Declares

namespace Field

/-- **A tree that is declared is a named struct, and its fields are declared in order.** -/
theorem declarations_eq_ok {root : Field} {o : DeclarationOptions} {d : Declarations}
    (hplaced : root.PlacedUnder [] 0) (h : root.declarations o = .ok d) :
    ∃ header fields, root = struct header fields ∧ header.givenName? = some (.str d.structName) ∧
      AllPlaced fields ∧ Declares o d.structName {} fields d.members d.blocks := by
  have hchildren := hplaced.children
  obtain ⟨hname, -, -, -⟩ := hplaced
  cases root with
  | struct header fields =>
    cases hgiven : header.givenName? with
    | none =>
      simp only [declarations, hgiven] at h
      exact absurd h throw_ne_ok
    | some given =>
      obtain ⟨s, rfl, -⟩ := hname.allowed.name given hgiven
      simp only [declarations, hgiven, refuse_eq_ok_iff, bind_eq_ok_iff, Prod.exists,
        pure_eq_ok_iff] at h
      obtain ⟨-, name, hname, members, blocks, hfields, rfl⟩ := h
      obtain rfl := written_eq_ok hname
      exact ⟨header, fields, rfl, hgiven, hchildren,
        declares_of_declareFields (itemsCounted_of_placed hchildren) hfields⟩
  | _ => exact absurd h throw_ne_ok

/-- The full names of the nodes of a tree are names of the tree. -/
theorem nodes_sublist_names (f : Field) : (f.nodes.map fullName).Sublist f.names := by
  have hnode : ∀ g : Field, [g.fullName].Sublist
      (g.ownSources.flatMap fun s => s.contributions.map Contribution.name) := by
    intro g
    cases g <;> exact (List.nil_sublist _).cons_cons _
  rw [List.map_eq_flatMap, names, contributions, sources, List.map_flatMap, List.flatMap_assoc]
  exact List.Sublist.flatMap_right f.nodes fun g _ => hnode g

/-- The items of a tree that have declarations. -/
def namedItems (f : Field) : List Item := f.bitFields.flatMap BitField.namedItems

/-- **The full names of named items and the constants of their enumerations are names of the
tree.** -/
theorem namedItems_sublist_names (f : Field) :
    (f.namedItems.flatMap fun i => i.fullName :: i.constants).Sublist f.names := by
  have hitem : ∀ i : Item, i.source.contributions.map Contribution.name
      = i.fullName :: i.constants := by
    intro i
    simp only [NameSource.contributions, List.map_cons, List.map_map, Item.source, Item.constants]
    rfl
  have hnode : ∀ g : Field, ((bitField? g).toList.flatMap fun b =>
        b.namedItems.flatMap fun i => i.fullName :: i.constants).Sublist
      (g.ownSources.flatMap fun s => s.contributions.map Contribution.name) := by
    intro g
    cases g with
    | bitfield b =>
      rw [ownSources, List.flatMap_cons, List.flatMap_map]
      refine List.Sublist.trans ?_ (List.sublist_append_right _ _)
      simp only [hitem, bitField?, Option.toList_some, List.flatMap_singleton]
      exact List.filter_sublist.flatMap _
    | _ => exact List.nil_sublist _
  have hitems : (f.namedItems.flatMap fun i => i.fullName :: i.constants)
      = f.nodes.flatMap fun g => (bitField? g).toList.flatMap fun b =>
          b.namedItems.flatMap fun i => i.fullName :: i.constants := by
    rw [namedItems, bitFields, List.filterMap_eq_flatMap_toList, List.flatMap_assoc,
      List.flatMap_assoc]
  have hnames : f.names
      = f.nodes.flatMap fun g => g.ownSources.flatMap fun s =>
          s.contributions.map Contribution.name := by
    rw [names, contributions, sources, List.map_flatMap, List.flatMap_assoc]
  rw [hitems, hnames]
  exact List.Sublist.flatMap_right f.nodes fun g _ => hnode g

end Field

end RegisterLayout
