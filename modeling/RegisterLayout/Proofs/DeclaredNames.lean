import RegisterLayout.Proofs.Accessors

/-!
# Names that are declared for a whole file

The declarations for a tree name structs, and they introduce macros and the constants of
enumerations.  The constants of an accepted tree are distinct.  The other names are made in ways
that the check for unique names does not follow: a struct has the bare name of its bit field, and a
macro the upper case of a full name, with a suffix if it stands for several bits.  So two of them
can be one, and the names are distinct exactly if the tree keeps them apart.

Principal definitions: `Declarations.structTags`, `Declarations.macroNames`,
`Declarations.enumerators`, `Declarations.NamedIn`; `Field.NamesApart`.
Principal results: `Field.exists_namedIn`, the declared names are those in the text;
`Field.declaredNames_nodup_iff`.
-/

namespace RegisterLayout

/-! ## The names -/

def Backing.tag? : Backing → Option Text
  | ownStruct name _ => some name
  | memberOf .. => none

namespace Declarations

/-- The tags of the structs that are defined. -/
def structTags (d : Declarations) : List Text :=
  d.structName :: d.blocks.filterMap fun block => block.backing.tag?

def macroNames (d : Declarations) : List Text :=
  d.blocks.flatMap fun block => block.macros.map Macro.name

def enumerators (d : Declarations) : List Text :=
  d.blocks.flatMap fun block => block.enums.flatMap fun e => e.constants.map Prod.fst

/-- Lines in which the names of declarations stand: a line for every struct and every macro and no
other such line, and one for every constant. -/
structure NamedIn (d : Declarations) (lines : List Text) : Prop where
  structs : List.Forall₂ (fun tag line => ∃ body : Text, line = "struct " ++ tag ++ " \x7b" ++ body)
    d.structTags (lines.filter (Text.beginsWith "struct "))
  macros : List.Forall₂ (fun name line => ∃ bits : Text, line = tabbed ("#define " ++ name) bits)
    d.macroNames (lines.filter (Text.beginsWith "#define "))
  constants : ∀ constant ∈ d.enumerators, ∃ value : Text,
    tabbed ("\t" ++ constant) ("= " ++ value ++ ",") ∈ lines

end Declarations

namespace Field

/-- The names of a tree's bit fields, behind its own. -/
def structNames (f : Field) : List Text :=
  (f.header :: f.bitFields.map BitField.header).filterMap Header.givenText?

/-- The constants of the named items of a tree. -/
def itemConstants (f : Field) : List Text := f.namedItems.flatMap Item.constants

/-- A tree whose declarations have distinct names. -/
structure NamesApart (f : Field) : Prop where
  structs : f.structNames.Nodup
  alike : f.namedItems.Pairwise fun i j =>
    (i.IsFlag ↔ j.IsFlag) → Text.upper i.fullName ≠ Text.upper j.fullName
  suffixed : ∀ i ∈ f.namedItems, ∀ j ∈ f.namedItems, i.IsFlag → ¬j.IsFlag →
    Text.upper i.fullName ≠ Text.upper j.fullName ++ "_MASK"
  constants : ∀ i ∈ f.namedItems, i.macroName ∉ f.itemConstants

instance (f : Field) : Decidable f.NamesApart :=
  decidable_of_iff
    (f.structNames.Nodup ∧
      (f.namedItems.Pairwise fun i j =>
        (i.IsFlag ↔ j.IsFlag) → Text.upper i.fullName ≠ Text.upper j.fullName) ∧
      (∀ i ∈ f.namedItems, ∀ j ∈ f.namedItems, i.IsFlag → ¬j.IsFlag →
        Text.upper i.fullName ≠ Text.upper j.fullName ++ "_MASK") ∧
      ∀ i ∈ f.namedItems, i.macroName ∉ f.itemConstants)
    ⟨fun ⟨hstructs, halike, hsuffixed, hconstants⟩ => ⟨hstructs, halike, hsuffixed, hconstants⟩,
      fun h => ⟨h.structs, h.alike, h.suffixed, h.constants⟩⟩

variable {raw root : Field} {o : DeclarationOptions} {d : Declarations}

theorem tag?_block (b : BitField) (struct member : Text) :
    (b.block o struct member).backing.tag? = b.header.givenText? := by
  unfold BitField.block BitField.backing Header.givenText?
  cases b.header.givenName? <;> rfl

theorem structTags_eq (hroot : raw.resolve = .ok root) (hd : root.declarations o = .ok d) :
    d.structTags = root.structNames := by
  have hblocks : (d.blocks.filterMap fun block => block.backing.tag?)
      = (root.bitFields.map BitField.header).filterMap Header.givenText? := by
    rw [blocks_of_declarations hroot hd, List.filterMap_map,
      ← map_fst_numberedBitFields 0 root.bitFields, List.map_map, List.filterMap_map,
      map_fst_numberedBitFields]
    exact List.filterMap_congr fun b _ => tag?_block b.1 _ _
  obtain ⟨hplaced, -⟩ := resolve_eq_ok hroot
  obtain ⟨h, fields, rfl, hname, -, -⟩ := declarations_eq_ok hplaced hd
  have hname : (struct h fields).header.givenText? = some d.structName := by
    rw [header, Header.givenText?, hname]
    rfl
  rw [Declarations.structTags, hblocks, structNames, List.filterMap_cons_some hname]

/-- What the blocks have together, if each has it for its named items in order. -/
theorem flatMap_blocks (hroot : raw.resolve = .ok root) (hd : root.declarations o = .ok d)
    {α : Type} {f : BitFieldBlock → List α} {g : Item → List α}
    (hfg : ∀ (b : BitField) (member : Text),
      f (b.block o d.structName member) = b.namedItems.flatMap g) :
    d.blocks.flatMap f = root.namedItems.flatMap g := by
  rw [blocks_of_declarations hroot hd, List.flatMap_map, namedItems, List.flatMap_assoc,
    ← flatMap_numberedBitFields 0]
  exact List.flatMap_congr fun b _ => hfg b.1 b.2

theorem macroNames_eq (hroot : raw.resolve = .ok root) (hd : root.declarations o = .ok d) :
    d.macroNames = root.namedItems.map Item.macroName := by
  rw [List.map_eq_flatMap]
  refine flatMap_blocks hroot hd fun b member => ?_
  rw [BitField.block, List.map_map, List.map_map, List.map_eq_flatMap]
  rfl

theorem constants_eq (i : Item) :
    (i.enum?.toList.flatMap fun e => e.constants.map Prod.fst) = i.constants := by
  unfold Item.enum? Item.constants
  cases he : i.enumeration with
  | none => rfl
  | some entries =>
    cases entries with
    | nil => rfl
    | cons e entries =>
      simp only [entries?, Option.filter, List.isEmpty_cons, Bool.not_false, if_true,
        Option.map_some, Option.toList_some, List.flatMap_singleton, List.map_map,
        Option.getD_some]
      rfl

theorem enumerators_eq (hroot : raw.resolve = .ok root) (hd : root.declarations o = .ok d) :
    d.enumerators = root.itemConstants := by
  refine flatMap_blocks hroot hd fun b member => ?_
  rw [BitField.block, List.filterMap_map, List.filterMap_eq_flatMap_toList, List.flatMap_assoc]
  exact List.flatMap_congr fun i _ => constants_eq i

/-! ## The names in the text -/

theorem forall₂_structLine? (bs : List BitField) :
    List.Forall₂ (fun tag line => ∃ body : Text, line = "struct " ++ tag ++ " \x7b" ++ body)
      ((bs.map BitField.header).filterMap Header.givenText?)
      (bs.filterMap BitField.structLine?) := by
  induction bs with
  | nil => exact .nil
  | cons b bs ih =>
    rw [List.map_cons, List.filterMap_cons, List.filterMap_cons, Header.givenText?,
      BitField.structLine?]
    cases b.header.givenName? with
    | none => exact ih
    | some name =>
      exact .cons ⟨" u" ++ b.bits.text ++ " word; \x7d;", by simp [Text.ofString, Text.ofChars]⟩ ih

/-- Every constant of an item has a line in the enumeration of the item. -/
theorem exists_mem_enumLines {i : Item} {constant : Text} (hconstant : constant ∈ i.constants) :
    ∃ value : Text, tabbed ("\t" ++ constant) ("= " ++ value ++ ",") ∈ i.enumLines := by
  obtain ⟨⟨key, value⟩, hentry, rfl⟩ := List.mem_map.1 hconstant
  refine ⟨value.text, ?_⟩
  cases henumeration : i.enumeration with
  | none =>
    rw [henumeration] at hentry
    cases hentry
  | some entries =>
    rw [henumeration, Option.getD_some] at hentry
    have hentries : entries? i.enumeration = some entries := by
      rw [henumeration, entries?, Option.filter_some, if_pos]
      simpa using List.ne_nil_of_mem hentry
    rw [Item.enumLines, hentries]
    exact List.mem_append_left _ (List.mem_cons_of_mem _ (List.mem_map_of_mem hentry))

/-- **The declared names are those in the text.** -/
theorem exists_namedIn (hroot : raw.resolve = .ok root) (hd : root.declarations o = .ok d) :
    ∃ lines, d.text = Text.ofLines lines ∧ d.NamedIn lines := by
  have htags := structTags_eq hroot hd
  have hmacros := macroNames_eq hroot hd
  have hconstants := enumerators_eq hroot hd
  have hblocks := blocks_of_declarations hroot hd
  obtain ⟨hplaced, -⟩ := resolve_eq_ok hroot
  obtain ⟨h, fields, rfl, hname, -, hdeclares⟩ := declarations_eq_ok hplaced hd
  refine ⟨_, hdeclares.text_eq hblocks, ?_⟩
  have hname : (struct h fields).header.givenText? = some d.structName := by
    rw [header, Header.givenText?, hname]
    rfl
  constructor
  case structs =>
    rw [htags, structNames, List.filterMap_cons_some hname, filter_struct_printed]
    exact .cons ⟨[], (List.append_nil _).symm⟩ (forall₂_structLine? _)
  case macros =>
    rw [hmacros, filter_define_printed]
    exact List.forall₂_map_left_iff.2 (List.forall₂_map_right_iff.2
      (List.forall₂_same.2 fun i _ => ⟨i.bitsText, rfl⟩))
  case constants =>
    rw [hconstants]
    intro constant hconstant
    obtain ⟨i, hi, hconstant⟩ := List.mem_flatMap.1 hconstant
    obtain ⟨value, hline⟩ := exists_mem_enumLines hconstant
    obtain ⟨b, hb, hi⟩ := List.mem_flatMap.1 hi
    refine ⟨value, mem_printed hb fun member => ?_⟩
    have henums := List.mem_flatMap.2 ⟨i, hi, hline⟩
    exact List.mem_append_left _ (List.mem_cons_of_mem _ (mem_grouped henums List.mem_cons_self))

/-! ## Distinct names -/

/-- The constants of an accepted tree are among its names. -/
theorem nodup_itemConstants (hroot : raw.resolve = .ok root) : root.itemConstants.Nodup := by
  obtain ⟨-, hnames⟩ := names_nodup hroot
  refine (hnames.sublist root.namedItems_sublist_names).sublist ?_
  exact List.Sublist.flatMap_right _ fun i _ => List.sublist_cons_self _ _

/-- Two macros have one name for one of three reasons. -/
theorem macroName_eq_iff {i j : Item} : i.macroName = j.macroName ↔
    ((i.IsFlag ↔ j.IsFlag) ∧ Text.upper i.fullName = Text.upper j.fullName) ∨
      (i.IsFlag ∧ ¬j.IsFlag ∧ Text.upper i.fullName = Text.upper j.fullName ++ "_MASK") ∨
      (¬i.IsFlag ∧ j.IsFlag ∧ Text.upper i.fullName ++ "_MASK" = Text.upper j.fullName) := by
  unfold Item.macroName
  by_cases hi : i.IsFlag <;> by_cases hj : j.IsFlag <;>
    simp [hi, hj]

theorem macroNames_nodup_iff (f : Field) : (f.namedItems.map Item.macroName).Nodup ↔
    (f.namedItems.Pairwise fun i j =>
      (i.IsFlag ↔ j.IsFlag) → Text.upper i.fullName ≠ Text.upper j.fullName) ∧
    ∀ i ∈ f.namedItems, ∀ j ∈ f.namedItems, i.IsFlag → ¬j.IsFlag →
      Text.upper i.fullName ≠ Text.upper j.fullName ++ "_MASK" := by
  constructor
  · intro h
    refine ⟨(List.pairwise_map.1 h).imp fun hij hflag hupper => ?_, ?_⟩
    · exact hij (macroName_eq_iff.2 (.inl ⟨hflag, hupper⟩))
    · intro i hi j hj hiflag hjflag hupper
      -- One item cannot be both of a single bit and wider.
      have hij : i = j := List.inj_on_of_nodup_map h hi hj
        (macroName_eq_iff.2 (.inr (.inl ⟨hiflag, hjflag, hupper⟩)))
      exact hjflag (hij ▸ hiflag)
  · rintro ⟨halike, hsuffixed⟩
    refine List.pairwise_map.2 (halike.imp_of_mem fun {i j} hi hj hij heq => ?_)
    rcases macroName_eq_iff.1 heq with ⟨hflag, hupper⟩ | ⟨hiflag, hjflag, hupper⟩ |
      ⟨hiflag, hjflag, hupper⟩
    · exact hij hflag hupper
    · exact hsuffixed i hi j hj hiflag hjflag hupper
    · exact hsuffixed j hj i hi hjflag hiflag hupper.symm

/-- **The declared constants are distinct; the tags of structs are, and the macros among themselves
and from the constants, exactly if the tree keeps them apart.** -/
theorem declaredNames_nodup_iff (hroot : raw.resolve = .ok root)
    (hd : root.declarations o = .ok d) :
    d.enumerators.Nodup ∧
      (d.structTags.Nodup ∧ (d.macroNames ++ d.enumerators).Nodup ↔ root.NamesApart) := by
  have henumerators := nodup_itemConstants hroot
  rw [structTags_eq hroot hd, macroNames_eq hroot hd, enumerators_eq hroot hd]
  refine ⟨henumerators, ?_⟩
  rw [List.nodup_append', macroNames_nodup_iff]
  constructor
  · rintro ⟨hstructs, ⟨halike, hsuffixed⟩, -, hdisjoint⟩
    exact ⟨hstructs, halike, hsuffixed, fun i hi => hdisjoint (List.mem_map_of_mem hi)⟩
  · rintro ⟨hstructs, halike, hsuffixed, hconstants⟩
    refine ⟨hstructs, ⟨halike, hsuffixed⟩, henumerators, ?_⟩
    intro name hname
    obtain ⟨i, hi, rfl⟩ := List.mem_map.1 hname
    exact hconstants i hi

theorem declaredNames_nodup_iff_controlRoot :
    controlRoot.resolve = .ok (controlRoot.located [] 0 0) ∧
      ∃ d, (controlRoot.located [] 0 0).declarations {} = .ok d ∧ d.enumerators.Nodup ∧
        (controlRoot.located [] 0 0).NamesApart ∧ d.structTags.Nodup ∧
        (d.macroNames ++ d.enumerators).Nodup := by
  have hresolve : controlRoot.resolve = .ok (controlRoot.located [] 0 0) := rfl
  obtain ⟨d, hd⟩ : ∃ d, (controlRoot.located [] 0 0).declarations {} = .ok d :=
    exists_of_isOk (by decide +kernel)
  obtain ⟨henumerators, hiff⟩ := declaredNames_nodup_iff hresolve hd
  have hapart : (controlRoot.located [] 0 0).NamesApart := by decide +kernel
  exact ⟨hresolve, d, hd, henumerators, hapart, hiff.2 hapart⟩

/-- A bit field with the name of its struct, and in it a single bit with the name of the macro of
the item before it. -/
def repeatingRoot : Field :=
  struct { name := some (.str "r") }
    [bitfield
      { header := { name := some (.str "r") }
        bits := 8
        items :=
          [{ header := { name := some (.str "a") }, bits := 2 },
            { header := { name := some (.str "a_mask") }, bits := 1 },
            { bits := 5 }] }]

/-- One struct tag and one macro are defined twice. -/
theorem declarations_repeatingRoot :
    repeatingRoot.resolve = .ok (repeatingRoot.located [] 0 0) ∧
      ∃ d, (repeatingRoot.located [] 0 0).declarations {} = .ok d ∧
        d.structTags = ["r", "r"] ∧ d.macroNames = ["R_R_A_MASK", "R_R_A_MASK"] ∧
        (∃ lines, d.text = Text.ofLines lines ∧ d.NamedIn lines) ∧
        ¬d.structTags.Nodup ∧ ¬(d.macroNames ++ d.enumerators).Nodup := by
  have hresolve : repeatingRoot.resolve = .ok (repeatingRoot.located [] 0 0) := rfl
  obtain ⟨d, hd⟩ : ∃ d, (repeatingRoot.located [] 0 0).declarations {} = .ok d :=
    exists_of_isOk (by decide +kernel)
  have htags : d.structTags = ["r", "r"] := by
    rw [structTags_eq hresolve hd]
    decide +kernel
  have hmacros : d.macroNames = ["R_R_A_MASK", "R_R_A_MASK"] := by
    rw [macroNames_eq hresolve hd]
    decide +kernel
  refine ⟨hresolve, d, hd, htags, hmacros, exists_namedIn hresolve hd, ?_, ?_⟩
  · rw [htags]
    decide
  · rw [hmacros]
    exact fun h => absurd (List.nodup_append'.1 h).1 (by decide)

end Field

end RegisterLayout
