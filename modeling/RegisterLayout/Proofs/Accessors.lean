import RegisterLayout.Proofs.PrintedDeclarations

/-!
# Access to every item

The declarations for an accepted tree give a program access to all named items and to nothing
else: every bit field has a block, every named item of it a macro that covers just the item's bits
and the functions that its access admits, and every function goes to a word of the bit field's
width, in a struct of its own or in the struct of the tree.  All of this is said of the lines that
are printed, too.  No two functions share a name, since the full names of items are unique and what
stands before them tells the kinds of functions apart.

Principal definitions: `Declarations.GivesAccess`, `Declarations.GiveAccess`,
`Declarations.functionNames`.
Principal results: `PlacedUnder.givesAccess`, `functionNames_nodup`,
`Field.declarations_giveAccess`.
-/

namespace RegisterLayout

/-! ## Functions of an item -/

def Accessor.isFunction : Accessor → Bool
  | doc _ => false
  | _ => true

namespace Item

/-- Next to its functions an item has a comment at most. -/
theorem filter_isFunction (o : DeclarationOptions) (place : Text × Text) (i : Item) :
    (i.declarations o place).accessors.filter Accessor.isFunction = i.functions o place := by
  have hcomment : ((o.comment? i.header).toList.map Accessor.doc).filter Accessor.isFunction
      = [] := by
    cases o.comment? i.header <;> rfl
  have hfunctions : (i.functions o place).filter Accessor.isFunction = i.functions o place := by
    unfold functions
    rw [List.filter_append]
    split <;> split <;> rfl
  rw [declarations, List.filter_append, hcomment, hfunctions, List.nil_append]

theorem getterName_ne_setterName (i j : Item) : i.getterName ≠ j.setterName := by
  unfold getterName setterName
  split <;> simp [Text.ofString, Text.ofChars]

theorem getterName_ne {i j : Item} (h : i.fullName ≠ j.fullName) :
    i.getterName ≠ j.getterName := by
  unfold getterName
  split <;> split <;> simp [Text.ofString, Text.ofChars, h]

theorem setterName_ne {i j : Item} (h : i.fullName ≠ j.fullName) :
    i.setterName ≠ j.setterName := by
  unfold setterName
  rwa [Ne, List.append_cancel_left_eq]

/-- The functions of an item have the names that its access admits. -/
theorem filterMap_functionName? (o : DeclarationOptions) (place : Text × Text) (i : Item) :
    (i.declarations o place).accessors.filterMap Accessor.functionName? = i.functionNames o := by
  have hcomment : ((o.comment? i.header).toList.map Accessor.doc).filterMap Accessor.functionName?
      = [] := by
    cases o.comment? i.header <;> rfl
  have hkept : ∀ (a : Accessor) (name : Text) (p : Prop) [Decidable p],
      a.functionName? = some name →
        (if p then [a] else []).filterMap Accessor.functionName? = if p then [name] else [] := by
    intro a name p _ hname
    split <;> simp [hname]
  rw [declarations, functions_eq, List.filterMap_append, List.filterMap_append, hcomment,
    hkept _ _ _ (functionName?_getter place i), hkept _ i.setterName _ rfl]
  rfl

theorem functionNames_sublist (o : DeclarationOptions) (i : Item) :
    (i.functionNames o).Sublist [i.getterName, i.setterName] := by
  have hsublist : (i.functionNames o).Sublist ([i.getterName] ++ [i.setterName]) := by
    unfold functionNames
    refine List.Sublist.append ?_ ?_ <;> split <;> simp
  exact hsublist

end Item

/-! ## Functions of a tree -/

namespace Declarations

/-- The names of all declared functions. -/
def functionNames (d : Declarations) : List Text :=
  d.blocks.flatMap fun block => block.accessors.filterMap Accessor.functionName?

/-- A block for a bit field under a name: a macro and functions for each named item, with its
enumeration, and a word that the functions go to.  The lines are those that are written down for the
bit field: the text of each macro stands for the bits of its item, and the struct or the member that
holds the word is declared in one of the lines. -/
structure GivesAccess (d : Declarations) (o : DeclarationOptions) (b : BitField × Text)
    (block : BitFieldBlock) : Prop where
  macros : block.macros = b.1.namedItems.map fun i => ⟨i.macroName, i.mask⟩
  enums : block.enums = b.1.namedItems.filterMap Item.enum?
  covers : ∀ i ∈ b.1.namedItems, ∀ k, i.mask.Covers k ↔ k ∈ i.bitIndices
  functions : block.accessors.filter Accessor.isFunction
    = b.1.namedItems.flatMap (Item.functions o block.backing.place)
  word : (∃ name, b.1.header.givenName? = some (.str name) ∧
      block.backing = .ownStruct name b.1.bits) ∨
    (b.1.header.givenName? = none ∧ block.backing = .memberOf d.structName b.2 ∧
      .word (.plain false b.1.bits) b.2 ∈ d.members)
  lines : block.lines = b.1.printed o d.structName b.2
  denotes : ∀ i ∈ b.1.namedItems, ∀ bits,
    i.bitsText.DenotesBits bits ↔ bits = (· ∈ i.bitIndices)
  wordLine : (∃ name, b.1.header.givenName? = some (.str name) ∧
      b.1.place d.structName b.2 = (name, ("word" : Text)) ∧
      ("struct " ++ name ++ " \x7b u" ++ b.1.bits.text ++ " word; \x7d;" : Text) ∈ block.lines) ∨
    (b.1.header.givenName? = none ∧ b.1.place d.structName b.2 = (d.structName, b.2) ∧
      ("\tu" ++ b.1.bits.text ++ " " ++ b.2 ++ ";" : Text) ∈ d.memberLines)

/-- Declarations that give access to all named items of a tree and to nothing else, as they are
printed: the lines of the text that declare a struct are one for the tree and one for each bit field
with a name, those that define a macro are one for each named item, those that begin a function are
one for each function that the access of a named item admits, and no two functions have the same
name. -/
structure GiveAccess (d : Declarations) (o : DeclarationOptions) (root : Field) : Prop where
  text : d.text = Text.ofLines (Field.printed o d.structName root.children)
  blocks : List.Forall₂ (d.GivesAccess o) (numberedBitFields 0 root.bitFields) d.blocks
  structs : (Field.printed o d.structName root.children).filter (Text.beginsWith "struct ")
    = ("struct " ++ d.structName ++ " \x7b") :: root.bitFields.filterMap BitField.structLine?
  defines : (Field.printed o d.structName root.children).filter (Text.beginsWith "#define ")
    = root.namedItems.map Item.defineLine
  heads : (Field.printed o d.structName root.children).filter (Text.beginsWith "static inline ")
    = (numberedBitFields 0 root.bitFields).flatMap fun b =>
        b.1.namedItems.flatMap (Item.functionHeads o (b.1.place d.structName b.2))
  named : List.Forall₂ Text.BeginsFunction
    ((Field.printed o d.structName root.children).filter (Text.beginsWith "static inline "))
    d.functionNames
  distinct : d.functionNames.Nodup

end Declarations

namespace Field

variable {raw root : Field} {o : DeclarationOptions} {d : Declarations}

/-- The word of a bit field is in a struct of its own, or the struct has a member for it. -/
theorem PlacedUnder.named_or_member {b : BitField × Text} {path : Path} {index : Nat}
    (h : (bitfield b.1).PlacedUnder path index)
    (hword : ¬b.1.header.IsNamed → .word (.plain false b.1.bits) b.2 ∈ d.members) :
    (∃ name, b.1.header.givenName? = some (.str name)) ∨
      (b.1.header.givenName? = none ∧ .word (.plain false b.1.bits) b.2 ∈ d.members) := by
  obtain ⟨header, -, -, -⟩ := h
  cases hgiven : b.1.header.givenName? with
  | some given =>
    obtain ⟨name, rfl, -⟩ := header.allowed.name given hgiven
    exact .inl ⟨name, rfl⟩
  | none =>
    refine .inr ⟨rfl, hword ?_⟩
    rw [Header.IsNamed, hgiven]
    exact Bool.false_ne_true

/-- The block of a bit field gives access to its items if the struct has a member for its word. -/
theorem PlacedUnder.givesAccess {b : BitField × Text} {path : Path} {index : Nat}
    (h : (bitfield b.1).PlacedUnder path index)
    (hword : ¬b.1.header.IsNamed → .word (.plain false b.1.bits) b.2 ∈ d.members) :
    d.GivesAccess o b (b.1.block o d.structName b.2) := by
  have hlines := b.1.lines_block o d.structName b.2
  have hitem : ∀ i ∈ b.1.namedItems, ∃ path index, i.PlacedUnder path index :=
    fun i hi => h.item (List.mem_of_mem_filter hi)
  have hgiven := h.named_or_member hword
  constructor
  case macros =>
    rw [BitField.block, List.map_map]
    rfl
  case enums =>
    rw [BitField.block, List.filterMap_map]
    rfl
  case covers =>
    intro i hi
    obtain ⟨_, _, hplaced⟩ := hitem i hi
    exact hplaced.covers_mask_iff
  case functions =>
    rw [BitField.block, List.flatMap_map, List.filter_flatMap]
    exact List.flatMap_congr fun i _ => i.filter_isFunction o _
  case lines => exact hlines
  case denotes =>
    intro i hi bits
    obtain ⟨_, _, hplaced⟩ := hitem i hi
    exact hplaced.denotesBits_iff
  case word =>
    unfold BitField.block BitField.backing
    rcases hgiven with ⟨name, hname⟩ | ⟨hname, hmember⟩
    · rw [hname]
      exact .inl ⟨name, rfl, rfl⟩
    · rw [hname]
      exact .inr ⟨rfl, rfl, hmember⟩
  case wordLine =>
    rw [hlines]
    rcases hgiven with ⟨name, hname⟩ | ⟨hname, hmember⟩
    · refine .inl ⟨name, hname, b.1.place_of_named _ _ hname, ?_⟩
      rw [← b.1.headLine_of_named d.structName b.2 hname]
      exact List.mem_cons_self
    · refine .inr ⟨hname, by rw [BitField.place, hname], Member.mem_linesAll hmember ?_⟩
      simp [Member.lines, WordType.text, Text.ofString, Text.ofChars]

/-- What accepted trees have in common whose declarations were made. -/
theorem blocks_of_declarations (hroot : raw.resolve = .ok root)
    (hd : root.declarations o = .ok d) :
    d.blocks = (numberedBitFields 0 root.bitFields).map fun b => b.1.block o d.structName b.2 := by
  obtain ⟨hplaced, -⟩ := resolve_eq_ok hroot
  obtain ⟨h, fields, rfl, -, hfields, hdeclares⟩ := declarations_eq_ok hplaced hd
  exact hdeclares.blocks_eq hfields

theorem nodup_fullName_namedItems (hroot : raw.resolve = .ok root) :
    (root.namedItems.map Item.fullName).Nodup := by
  obtain ⟨-, hnames⟩ := names_nodup hroot
  refine (hnames.sublist root.namedItems_sublist_names).sublist ?_
  rw [List.map_eq_flatMap]
  refine List.Sublist.flatMap_right _ fun i _ => ?_
  exact (List.nil_sublist _).cons_cons i.fullName

/-- What the named items of a tree have is what those of its bit fields have in turn. -/
theorem flatMap_namedItems {α : Type} (g : Item → List α) :
    root.namedItems.flatMap g
      = (numberedBitFields 0 root.bitFields).flatMap fun b => b.1.namedItems.flatMap g := by
  rw [namedItems, List.flatMap_assoc]
  exact (flatMap_numberedBitFields 0 root.bitFields _).symm

theorem functionNames_eq (hroot : raw.resolve = .ok root) (hd : root.declarations o = .ok d) :
    d.functionNames = (numberedBitFields 0 root.bitFields).flatMap fun b =>
      b.1.namedItems.flatMap (Item.functionNames o) := by
  rw [Declarations.functionNames, blocks_of_declarations hroot hd, List.flatMap_map]
  refine List.flatMap_congr fun b _ => ?_
  rw [BitField.block, List.flatMap_map, List.filterMap_flatMap]
  exact List.flatMap_congr fun i _ => i.filterMap_functionName? o _

/-- **No two functions have the same name.** -/
theorem functionNames_nodup (hroot : raw.resolve = .ok root) (hd : root.declarations o = .ok d) :
    d.functionNames.Nodup := by
  have hnames : (root.namedItems.flatMap fun i => [i.getterName, i.setterName]).Nodup := by
    rw [List.nodup_flatMap]
    refine ⟨?_, (List.pairwise_map.1 (nodup_fullName_namedItems hroot)).imp ?_⟩
    · intro i _
      exact List.nodup_cons.2 ⟨by simpa using i.getterName_ne_setterName i, List.nodup_singleton _⟩
    · intro i j hij
      simp only [Function.onFun, List.disjoint_cons_left, List.mem_cons, List.not_mem_nil, or_false,
        not_or]
      exact ⟨⟨Item.getterName_ne hij, i.getterName_ne_setterName j⟩,
        ⟨(j.getterName_ne_setterName i).symm, Item.setterName_ne hij⟩, List.disjoint_nil_left _⟩
  rw [functionNames_eq hroot hd, ← flatMap_namedItems]
  exact hnames.sublist (List.Sublist.flatMap_right _ fun i _ => i.functionNames_sublist o)

/-- The functions of a bit field begin in lines with their names, one after the other. -/
theorem beginsFunction_namedItems (o : DeclarationOptions) (place : Text × Text) (is : List Item) :
    List.Forall₂ Text.BeginsFunction (is.flatMap (Item.functionHeads o place))
      (is.flatMap (Item.functionNames o)) := by
  induction is with
  | nil => exact .nil
  | cons i is ih => exact List.rel_append (i.beginsFunction_functionHeads o place) ih

theorem beginsFunction_bitFields (o : DeclarationOptions) (struct : Text)
    (bs : List (BitField × Text)) :
    List.Forall₂ Text.BeginsFunction
      (bs.flatMap fun b => b.1.namedItems.flatMap (Item.functionHeads o (b.1.place struct b.2)))
      (bs.flatMap fun b => b.1.namedItems.flatMap (Item.functionNames o)) := by
  induction bs with
  | nil => exact .nil
  | cons b bs ih => exact List.rel_append (beginsFunction_namedItems o _ b.1.namedItems) ih

/-- **The declarations for an accepted tree give access to every named item, with a block for each
bit field in order, and no two functions have the same name.** -/
theorem declarations_giveAccess (hroot : raw.resolve = .ok root)
    (hd : root.declarations o = .ok d) : d.GiveAccess o root := by
  obtain ⟨hplaced, -⟩ := resolve_eq_ok hroot
  have hblocks := blocks_of_declarations hroot hd
  have hnames := functionNames_eq hroot hd
  have hdistinct := functionNames_nodup hroot hd
  obtain ⟨h, fields, rfl, -, hfields, hdeclares⟩ := declarations_eq_ok hplaced hd
  have hheads := filter_function_printed o d.structName fields
  constructor
  case text => exact hdeclares.text_eq hblocks
  case blocks =>
    rw [hblocks, List.forall₂_map_right_iff, List.forall₂_same]
    intro b hb
    have hmem : b.1 ∈ bitFieldsOf fields := mem_of_mem_numberedBitFields hb
    obtain ⟨path, index, hb'⟩ := placed_of_mem_bitFieldsOf hfields hmem
    exact hb'.givesAccess (hdeclares.word_mem hfields b hb)
  case structs => exact filter_struct_printed o d.structName fields
  case defines => exact filter_define_printed o d.structName fields
  case heads => exact hheads
  case named =>
    rw [hnames, children, hheads]
    exact beginsFunction_bitFields o d.structName _
  case distinct => exact hdistinct

def controlItems : List Item :=
  [{ header := { name := some (.str "on") }, bits := 1 },
    { header := { name := some (.str "mode") }, bits := 3, only := some (.str "read") },
    { bits := 4 }]

/-- A named bit field in a union, and an unnamed one behind it. -/
def controlRoot : Field :=
  struct { name := some (.str "r") }
    [union { name := some (.str "u") }
        [bitfield { header := { name := some (.str "ctl") }, bits := 8, items := controlItems },
          word { header := { name := some (.str "raw") }, bits := 8 }],
      bitfield { bits := 8, items := [{ header := { name := some (.str "x") }, bits := 8 }] }]

/-- The text that is printed for it. -/
def controlText : Text :=
  Text.ofLines [
    "struct r \x7b", "\tunion \x7b", "\t\tu8 ctl;", "\t\tu8 raw;", "\t\x7d u;", "\tu8 bitfield_0;",
    "\x7d;", "", "struct ctl \x7b u8 word; \x7d;", "", "#define R_U_CTL_ON\t\t\t\t\tBIT(7)",
    "#define R_U_CTL_MODE_MASK\t\t\t\tGENMASK(6, 4)", "",
    "static inline bool is_r_u_ctl_on(struct ctl *x) \x7b",
    "\treturn FIELD_GET(R_U_CTL_ON, x->word);", "\x7d",
    "static inline void set_r_u_ctl_on(struct ctl *x, bool v) \x7b",
    "\tx->word = FIELD_SET(x->word, R_U_CTL_ON, v);", "\x7d",
    "static inline u8 get_r_u_ctl_mode(struct ctl *x) \x7b",
    "\treturn FIELD_GET(R_U_CTL_MODE_MASK, x->word);", "\x7d", "", "/* r bitfield_0 */", "",
    "#define R_X_MASK\t\t\t\t\tGENMASK(7, 0)", "", "static inline u8 get_r_x(struct r *x) \x7b",
    "\treturn FIELD_GET(R_X_MASK, x->bitfield_0);", "\x7d",
    "static inline void set_r_x(struct r *x, u8 v) \x7b",
    "\tx->bitfield_0 = FIELD_SET(x->bitfield_0, R_X_MASK, v);", "\x7d", ""]

theorem declarations_giveAccess_controlRoot :
    controlRoot.resolve = .ok (controlRoot.located [] 0 0) ∧
      ∃ d, (controlRoot.located [] 0 0).declarations {} = .ok d ∧ d.text = controlText ∧
        d.GiveAccess {} (controlRoot.located [] 0 0) := by
  have hresolve : controlRoot.resolve = .ok (controlRoot.located [] 0 0) := rfl
  obtain ⟨d, hd, htext⟩ := exists_of_any
    (show ((controlRoot.located [] 0 0).declarations {}).toOption.any
      (fun d => d.text == controlText) = true by decide +kernel)
  exact ⟨hresolve, d, hd, beq_iff_eq.1 htext, declarations_giveAccess hresolve hd⟩

end Field

end RegisterLayout
