import RegisterLayout.Declaration.OfField
import RegisterLayout.Proofs.Entry
import RegisterLayout.Proofs.FullName

/-!
# Declarations of bit fields

What is declared for a bit field, written down as a function of it: for each named item in order
one macro, its enumeration if it has entries, and a getter and a setter unless its access rules
one of them out.  Declaring a bit field can fail, but if it comes to declarations they are these.

Principal definitions: `Item.macroName`, `Item.functions`, `BitField.block`.
Principal results: `declareItem_eq_ok`, `declareBitField_eq_ok`.
-/

namespace RegisterLayout

/-! ## Comments -/

/-- The comment that a description becomes. -/
def DeclarationOptions.comment? (o : DeclarationOptions) (h : Header) : Option Text :=
  if o.docComments then (filled? h.desc).map Value.text else none

theorem docOf_eq_ok {o : DeclarationOptions} {h : Header} {doc : Option Text}
    (hdoc : docOf o h = .ok doc) : doc = o.comment? h := by
  unfold docOf at hdoc
  unfold DeclarationOptions.comment?
  split at hdoc
  · rename_i hcomments
    rw [if_pos hcomments]
    exact optionMapM_eq_ok (fun _ _ => written_eq_ok) hdoc
  · rename_i hcomments
    rw [if_neg hcomments]
    exact (Except.ok.inj hdoc).symm

/-! ## Items -/

namespace Item

/-- The full name of a placed item. -/
def fullName (i : Item) : Text := i.header.position.fullName.getD []

/-- The lowest bit of a placed item. -/
def low (i : Item) : Int := i.bitIndices.head?.getD 0

/-- An item of a single bit. -/
def IsFlag (i : Item) : Prop := i.bits.whole = 1

instance (i : Item) : Decidable i.IsFlag := inferInstanceAs (Decidable (_ = _))

def macroName (i : Item) : Text :=
  if i.IsFlag then Text.upper i.fullName else Text.upper i.fullName ++ "_MASK"

def mask (i : Item) : Mask := if i.IsFlag then .bit i.low else .span i.high i.low

def valueType (i : Item) : ValueType :=
  if i.IsFlag then .flag
  else if (entries? i.enumeration).isSome then .enum i.fullName
  else .unsigned (([8, 16, 32].find? fun width : Nat => decide (i.bits.whole ≤ width)).getD 64)

/-- The item within a member of a struct. -/
def target (i : Item) (place : Text × Text) : Target :=
  ⟨i.fullName, i.valueType, i.macroName, place.1, place.2⟩

theorem allowsOnly_iff {i : Item} {access : Text} :
    i.allowsOnly access = true ↔ i.only = some (.str access) := by
  unfold allowsOnly
  cases i.only with
  | none => simp
  | some v =>
    cases v with
    | str s =>
      simp only [Option.map_some, Option.getD_some, Value.same, beq_iff_eq, Option.some.injEq,
        Value.str.injEq]
      exact eq_comm
    | _ => simp [Value.same]

instance (i : Item) (access : Text) : Decidable (i.only = some (.str access)) :=
  decidable_of_iff _ allowsOnly_iff

/-- The functions for an item: a getter unless it may only be written, and a setter unless it may
only be read. -/
def functions (o : DeclarationOptions) (place : Text × Text) (i : Item) : List Accessor :=
  (if o.honorAccess ∧ i.only = some (.str "write") then [] else [.getter (i.target place)])
    ++ (if o.honorAccess ∧ i.only = some (.str "read") then [] else [.setter (i.target place)])

/-- The enumeration for an item that has entries. -/
def enum? (i : Item) : Option EnumDeclaration :=
  (entries? i.enumeration).map fun entries =>
    ⟨i.fullName, entries.map fun e => (constantName i.fullName e.1.text, e.2)⟩

/-- The constants of an item. -/
def constants (i : Item) : List Text :=
  (i.enumeration.getD []).map fun e => constantName i.fullName e.1.text

/-- All declarations for an item. -/
def declarations (o : DeclarationOptions) (place : Text × Text) (i : Item) : ItemDeclarations where
  enum := i.enum?
  define := ⟨i.macroName, i.mask⟩
  accessors := (o.comment? i.header).toList.map .doc ++ i.functions o place

end Item

theorem declareEnum_eq_ok {fullName : Text} {entries : Enumeration} {e : EnumDeclaration}
    (h : declareEnum fullName entries = .ok e) :
    e = ⟨fullName, entries.map fun e => (constantName fullName e.1.text, e.2)⟩ := by
  unfold declareEnum at h
  simp only [bind_eq_ok_iff, pure_eq_ok_iff] at h
  obtain ⟨constants, hconstants, rfl⟩ := h
  rw [mapM_eq_ok (g := fun e : Value × Value => (constantName fullName e.1.text, e.2)) ?_
    hconstants]
  rintro ⟨key, value⟩ - constant hconstant
  simp only [bind_eq_ok_iff, pure_eq_ok_iff] at hconstant
  obtain ⟨s, hs, v, hv, rfl⟩ := hconstant
  rw [written_eq_ok hs, writable_eq_ok hv]

theorem accessorsOf_eq_ok {o : DeclarationOptions} {i : Item} {place : Text × Text}
    {as : List Accessor} (h : accessorsOf o i (i.target place) = .ok as) :
    as = (o.comment? i.header).toList.map .doc ++ i.functions o place := by
  unfold accessorsOf at h
  simp only [bind_eq_ok_iff, pure_eq_ok_iff] at h
  obtain ⟨doc, hdoc, rfl⟩ := h
  rw [docOf_eq_ok hdoc, Item.functions, List.append_assoc]
  simp only [Bool.and_eq_true, Item.allowsOnly_iff]

theorem bounds_eq_ok {i : Item} {bounds : Int × Int} (h : i.bounds = .ok bounds) :
    bounds = (i.high, i.low) := by
  unfold Item.bounds at h
  unfold Item.high Item.low Item.bitIndices
  cases hrange : i.bitRange with
  | none =>
    rw [hrange] at h
    cases h
  | some range =>
    simp only [hrange] at h
    split at h
    · rename_i high low hhigh hlow
      rw [Option.getD_some, hhigh, hlow]
      exact (Except.ok.inj h).symm
    · cases h

theorem wordTypeBits_eq_ok {n : Int} {bits : Nat} (h : wordTypeBits (.int n) = .ok bits) :
    bits = ([8, 16, 32].find? fun width : Nat => decide (n ≤ width)).getD 64 := by
  unfold wordTypeBits at h
  split at h
  · cases h
  · exact (Except.ok.inj h).symm

theorem same_one_iff {i : Item} : (Number.int i.bits.whole).same 1 = true ↔ i.IsFlag :=
  beq_iff_eq

theorem chosenMacro_eq {i : Item} :
    (if (Number.int i.bits.whole).same 1 then (⟨Text.upper i.fullName, .bit i.low⟩ : Macro)
      else ⟨Text.upper i.fullName ++ "_MASK", .span i.high i.low⟩) = ⟨i.macroName, i.mask⟩ := by
  unfold Item.macroName Item.mask
  by_cases hflag : i.IsFlag
  · rw [if_pos (same_one_iff.2 hflag), if_pos hflag, if_pos hflag]
  · rw [if_neg (mt same_one_iff.1 hflag), if_neg hflag, if_neg hflag]

theorem chosenType_eq {i : Item} :
    (if (Number.int i.bits.whole).same 1 then ValueType.flag
      else if i.enum?.isSome then ValueType.enum i.fullName
      else ValueType.unsigned
        (([8, 16, 32].find? fun width : Nat => decide (i.bits.whole ≤ width)).getD 64))
      = i.valueType := by
  unfold Item.valueType Item.enum?
  rw [Option.isSome_map]
  by_cases hflag : i.IsFlag
  · rw [if_pos (same_one_iff.2 hflag), if_pos hflag]
  · rw [if_neg (mt same_one_iff.1 hflag), if_neg hflag]

/-- **An item has the declarations that its name, its width, its bits and its access call for.** -/
theorem declareItem_eq_ok {o : DeclarationOptions} {place : Text × Text} {i : Item}
    {r : ItemDeclarations} (hwidth : 1 ≤ i.bits.whole)
    (h : declareItem o place.1 place.2 i = .ok r) :
    r = i.declarations o place := by
  unfold declareItem at h
  rw [bind_eq_ok_iff] at h
  obtain ⟨enum, henum, h⟩ := h
  cases hname : i.header.position.fullName with
  | none =>
    simp only [hname] at h
    exact absurd h throw_ne_ok
  | some fullName =>
    obtain rfl : fullName = i.fullName := by
      rw [Item.fullName, hname]
      rfl
    rw [hname] at henum
    obtain rfl : enum = i.enum? := optionMapM_eq_ok (fun _ _ => declareEnum_eq_ok) henum
    simp only [hname, bind_eq_ok_iff, pure_eq_ok_iff, Prod.exists] at h
    obtain ⟨bits, hbits, typeBits, htype, high, low, hbounds, as, has, rfl⟩ := h
    obtain ⟨rfl, rfl⟩ := Prod.mk.inj (bounds_eq_ok hbounds)
    obtain rfl : bits = .int i.bits.whole := by
      rw [Value.eq_int_of_one_le_whole hwidth, Value.number_num] at hbits
      exact (Except.ok.inj hbits).symm
    obtain rfl := wordTypeBits_eq_ok htype
    rw [chosenType_eq] at has
    rw [chosenMacro_eq] at has ⊢
    rw [accessorsOf_eq_ok has]
    rfl

/-- The bits that a mask covers. -/
def Mask.Covers : Mask → Int → Prop
  | bit index, k => k = index
  | span high low, k => low ≤ k ∧ k ≤ high

namespace Item.PlacedUnder

variable {i : Item} {path : Path} {index : Nat}

/-- The bits of a placed item, its highest and its lowest. -/
theorem bounds (h : i.PlacedUnder path index) :
    ∃ endBit, i.bitIndices = bitsBelow endBit i.bits.whole ∧ i.high = endBit - 1 ∧
      i.low = endBit - i.bits.whole := by
  obtain ⟨endBit, hrange⟩ := h.bits
  have hindices : i.bitIndices = bitsBelow endBit i.bits.whole := by
    rw [bitIndices, hrange]
    rfl
  have hlow : i.low = endBit - i.bits.whole := by
    rw [low, hindices, head?_bitsBelow h.width]
    rfl
  exact ⟨endBit, hindices, Item.high_eq h.width hrange, hlow⟩

/-- The bits of a placed item are those from its lowest to its highest. -/
theorem mem_bitIndices_iff (h : i.PlacedUnder path index) {k : Int} :
    k ∈ i.bitIndices ↔ i.low ≤ k ∧ k ≤ i.high := by
  obtain ⟨endBit, hindices, hhigh, hlow⟩ := h.bounds
  rw [hindices, mem_bitsBelow]
  omega

theorem bitIndices_ne_nil (h : i.PlacedUnder path index) : i.bitIndices ≠ [] := by
  obtain ⟨endBit, -, hhigh, hlow⟩ := h.bounds
  have hwidth := h.width
  have hmem : i.low ∈ i.bitIndices := h.mem_bitIndices_iff.2 (by omega)
  exact List.ne_nil_of_mem hmem

/-- **The mask of a placed item covers the bits of the item and no other.** -/
theorem covers_mask_iff (h : i.PlacedUnder path index) (k : Int) :
    i.mask.Covers k ↔ k ∈ i.bitIndices := by
  obtain ⟨endBit, -, hhigh, hlow⟩ := h.bounds
  rw [h.mem_bitIndices_iff, mask]
  by_cases hflag : i.IsFlag
  · rw [if_pos hflag]
    unfold IsFlag at hflag
    simp only [Mask.Covers]
    omega
  · rw [if_neg hflag]
    rfl

end Item.PlacedUnder

/-! ## Bit fields -/

namespace BitField

/-- The items that have declarations are the named ones. -/
def namedItems (b : BitField) : List Item := b.items.filter (·.header.givenName?.isSome)

/-- Where the word of a bit field is that is a member of a struct. -/
def backing (struct member : Text) (b : BitField) : Backing :=
  match b.header.givenName? with
  | some name => .ownStruct name.text b.bits
  | none => .memberOf struct member

/-- All declarations for a bit field that is a member of a struct. -/
def block (o : DeclarationOptions) (struct member : Text) (b : BitField) : BitFieldBlock :=
  let items := b.namedItems.map (·.declarations o (b.backing struct member).place)
  { backing := b.backing struct member
    enums := items.filterMap (·.enum)
    macros := items.map (·.define)
    accessors := items.flatMap (·.accessors) }

end BitField

/-- **A bit field has the declarations of its named items.** -/
theorem declareBitField_eq_ok {o : DeclarationOptions} {struct member : Text} {b : BitField}
    {r : BitFieldBlock} (hwidth : ∀ i ∈ b.items, 1 ≤ i.bits.whole)
    (h : declareBitField o struct member b = .ok r) : r = b.block o struct member := by
  have hitems : ∀ {place : Text × Text} {items : List ItemDeclarations},
      b.namedItems.mapM (declareItem o place.1 place.2) = .ok items →
        items = b.namedItems.map (·.declarations o place) := by
    intro place items hmap
    refine mapM_eq_ok ?_ hmap
    intro i hi r hr
    exact declareItem_eq_ok (hwidth i (List.mem_of_mem_filter hi)) hr
  unfold declareBitField at h
  unfold BitField.block BitField.backing
  cases hname : b.header.givenName? with
  | some name =>
    simp only [hname, bind_eq_ok_iff, pure_eq_ok_iff] at h
    obtain ⟨s, hs, bits, hbits, backing, rfl, items, hmap, rfl⟩ := h
    obtain rfl := written_eq_ok hs
    obtain rfl := writable_eq_ok hbits
    rw [hitems hmap]
  | none =>
    simp only [hname, bind_eq_ok_iff, pure_eq_ok_iff] at h
    obtain ⟨backing, rfl, items, hmap, rfl⟩ := h
    rw [hitems hmap]

end RegisterLayout
