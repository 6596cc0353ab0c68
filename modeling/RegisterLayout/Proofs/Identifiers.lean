import RegisterLayout.Proofs.DeclaredNames
import RegisterLayout.Proofs.MemberNames
import RegisterLayout.Proofs.Spelling
import RegisterLayout.Proofs.TableRows
import RegisterLayout.Proofs.Walk

/-!
# Identifiers in declarations

The names in the declarations for an accepted document are made of names that the schema has seen,
of prefixes and suffixes, of numbers, and of the keys of enumerations, which nothing has seen.  The
form that the schema asks of names passes a line feed at the end, and so a name with one becomes
part of what is declared.  All names that are declared are identifiers exactly if no name that is
used ends like that, and the upper case of every key that becomes part of a constant is made of
letters, digits and underscores.

Principal definitions: `Text.IsIdentifier`, `Declarations.identifiers`, `Field.CleanlyNamed`.
Principal result: `Field.declaredIdentifiers_iff`.
-/

namespace RegisterLayout

/-! ## Identifiers -/

/-- A letter, a digit or an underscore. -/
def CodePoint.isWord : CodePoint → Bool := holds fun c => c.isAlphanum || c == '_'

def lineFeed : CodePoint := .char '\n'

namespace Text

def IsWordy (s : Text) : Prop := ∀ c ∈ s, c.isWord = true

instance (s : Text) : Decidable s.IsWordy := inferInstanceAs (Decidable (∀ c ∈ s, _))

/-- A letter or an underscore, and letters, digits and underscores after it. -/
def IsIdentifier (s : Text) : Prop :=
  ∃ (c : Char) (rest : List Char), IsInitial c ∧ (∀ d ∈ rest, d.isAlphanum ∨ d = '_') ∧
    s = ofChars (c :: rest)

theorem isWord_char_iff {c : Char} :
    (CodePoint.char c).isWord = true ↔ c.isAlphanum ∨ c = '_' := by
  simp [CodePoint.isWord, CodePoint.holds]

theorem isWordy_append {s t : Text} : (s ++ t).IsWordy ↔ s.IsWordy ∧ t.IsWordy :=
  List.forall_mem_append

theorem isWordy_ofChars {cs : List Char} :
    (ofChars cs).IsWordy ↔ ∀ c ∈ cs, c.isAlphanum ∨ c = '_' := by
  rw [IsWordy, ofChars, List.forall_mem_map]
  exact forall₂_congr fun c _ => isWord_char_iff

/-- A text of letters, digits and underscores has characters only. -/
theorem IsWordy.exists_ofChars {s : Text} (h : s.IsWordy) : ∃ cs, s = ofChars cs := by
  induction s with
  | nil => exact ⟨[], rfl⟩
  | cons c s ih =>
    obtain ⟨hc, hs⟩ := List.forall_mem_cons.1 h
    obtain ⟨cs, rfl⟩ := ih hs
    cases c with
    | char c => exact ⟨c :: cs, rfl⟩
    | surrogate => cases hc

theorem isIdentifier_iff {s : Text} :
    s.IsIdentifier ↔ s.IsWordy ∧ ∃ c t, IsInitial c ∧ s = .char c :: t := by
  constructor
  · rintro ⟨c, rest, hc, hrest, rfl⟩
    refine ⟨isWordy_ofChars.2 (List.forall_mem_cons.2 ⟨?_, hrest⟩), c, ofChars rest, hc, rfl⟩
    exact hc.imp_left fun hc => by simp [Char.isAlphanum, hc]
  · rintro ⟨hwordy, c, t, hc, rfl⟩
    obtain ⟨-, ht⟩ := List.forall_mem_cons.1 hwordy
    obtain ⟨rest, rfl⟩ := IsWordy.exists_ofChars ht
    exact ⟨c, rest, hc, isWordy_ofChars.1 ht, rfl⟩

instance (s : Text) : Decidable s.IsIdentifier :=
  decidable_of_iff
    (s.IsWordy ∧ s.head?.any (CodePoint.holds fun c => c.isAlpha || c == '_') = true) (by
      rw [isIdentifier_iff]
      refine and_congr_right fun _ => ?_
      cases s with
      | nil => simp
      | cons a s => cases a <;> simp [CodePoint.holds, IsInitial])

/-- What follows an identifier is part of one if it is made of the same characters. -/
theorem IsIdentifier.append_iff {s t : Text} (h : s.IsIdentifier) :
    (s ++ t).IsIdentifier ↔ t.IsWordy := by
  obtain ⟨hwordy, c, u, hc, rfl⟩ := isIdentifier_iff.1 h
  rw [isIdentifier_iff, isWordy_append, and_iff_right hwordy]
  exact and_iff_left ⟨c, u ++ t, hc, rfl⟩

namespace IsNodeName

variable {s t : Text}

theorem begins (h : s.IsNodeName) : ∃ c t, IsInitial c ∧ s = .char c :: t := by
  obtain ⟨c, rest, hc, -, rfl⟩ := h
  exact ⟨c, ofChars rest, hc, rfl⟩

/-- Of what may follow in a full name only the line feed is not part of an identifier. -/
theorem isWordy_iff (h : s.IsNodeName) : s.IsWordy ↔ lineFeed ∉ s := by
  constructor
  · intro hwordy hfeed
    exact absurd (hwordy _ hfeed) (by decide)
  · intro hfeed c hc
    obtain ⟨d, rfl, hd⟩ := h.forall_mem c hc
    rcases hd with hd | rfl | rfl
    · exact isWord_char_iff.2 (.inl hd)
    · rfl
    · exact absurd hc hfeed

theorem isIdentifier_iff (h : s.IsNodeName) : s.IsIdentifier ↔ lineFeed ∉ s := by
  rw [Text.isIdentifier_iff, and_iff_left h.begins, h.isWordy_iff]

/-- What follows a name can be any text. -/
theorem isIdentifier_append_iff (h : s.IsNodeName) :
    (s ++ t).IsIdentifier ↔ lineFeed ∉ s ∧ t.IsWordy := by
  have hbegins : ∃ c u, IsInitial c ∧ s ++ t = .char c :: u := by
    obtain ⟨c, u, hc, rfl⟩ := h.begins
    exact ⟨c, u ++ t, hc, rfl⟩
  rw [Text.isIdentifier_iff, and_iff_left hbegins, isWordy_append, h.isWordy_iff]

end IsNodeName

/-! ## Upper case -/

theorem upper_append (s t : Text) : upper (s ++ t) = upper s ++ upper t := by
  induction s with
  | nil => rfl
  | cons c s ih =>
    cases c with
    | char c => exact (congrArg (ofChars (upperChar c) ++ ·) ih).trans (List.append_assoc ..).symm
    | surrogate i => exact congrArg (CodePoint.surrogate i :: ·) ih

/-- A character that a name may have is one in upper case too, and the line feed is its own. -/
theorem upperChar_of_further {c : Char} (h : IsFurther c) :
    upperChar c = [c.toUpper] ∧ IsFurther c.toUpper ∧ (c.toUpper = '\n' ↔ c = '\n') := by
  refine forall_ascii (P := fun c => IsFurther c →
    upperChar c = [c.toUpper] ∧ IsFurther c.toUpper ∧ (c.toUpper = '\n' ↔ c = '\n')) ?_ h.ascii h
  unfold IsFurther
  decide +kernel

theorem isInitial_toUpper {c : Char} (h : IsInitial c) : IsInitial c.toUpper := by
  refine forall_ascii (P := fun c => IsInitial c → IsInitial c.toUpper) ?_ h.ascii h
  unfold IsInitial
  decide +kernel

theorem upper_ofChars {cs : List Char} (h : ∀ c ∈ cs, IsFurther c) :
    upper (ofChars cs) = ofChars (cs.map Char.toUpper) := by
  induction cs with
  | nil => rfl
  | cons c cs ih =>
    obtain ⟨hc, hcs⟩ := List.forall_mem_cons.1 h
    have hcons : upper (ofChars (c :: cs)) = ofChars (upperChar c) ++ upper (ofChars cs) := rfl
    rw [hcons, (upperChar_of_further hc).1, ih hcs]
    rfl

namespace IsNodeName

variable {s : Text}

theorem upper (h : s.IsNodeName) : (Text.upper s).IsNodeName := by
  obtain ⟨c, rest, hc, hrest, rfl⟩ := h
  refine ⟨c.toUpper, rest.map Char.toUpper, isInitial_toUpper hc, ?_,
    upper_ofChars (List.forall_mem_cons.2 ⟨hc.further, hrest⟩)⟩
  exact List.forall_mem_map.2 fun d hd => (upperChar_of_further (hrest d hd)).2.1

theorem feed_mem_upper_iff (h : s.IsNodeName) : lineFeed ∈ Text.upper s ↔ lineFeed ∈ s := by
  obtain ⟨c, rest, hc, hrest, rfl⟩ := h
  have hall : ∀ d ∈ c :: rest, IsFurther d := List.forall_mem_cons.2 ⟨hc.further, hrest⟩
  have hmem : ∀ cs : List Char, lineFeed ∈ ofChars cs ↔ '\n' ∈ cs := fun cs =>
    List.mem_map_of_injective fun _ _ => CodePoint.char.inj
  rw [upper_ofChars hall, hmem, hmem, List.mem_map]
  constructor
  · rintro ⟨d, hd, hfeed⟩
    rwa [← (upperChar_of_further (hall d hd)).2.2.1 hfeed]
  · intro hfeed
    exact ⟨'\n', hfeed, rfl⟩

end IsNodeName

end Text

/-! ## Made-up names -/

theorem isWordy_toString (n : Nat) : (Text.ofString (toString n)).IsWordy := by
  refine Text.isWordy_ofChars.2 fun d hd => .inl ?_
  rw [Nat.toString_eq_repr, Nat.toList_repr] at hd
  have hdigit : d.isDigit = true := Nat.isDigit_of_mem_toDigits (by decide) (by decide) hd
  simp [Char.isAlphanum, hdigit]

theorem isIdentifier_numberedName {stem : String} (hstem : (Text.ofString stem).IsIdentifier)
    (n : Nat) : (numberedName stem n).IsIdentifier := by
  have hname : numberedName stem n = Text.ofString stem ++ Text.ofString (toString n) := by
    rw [numberedName, Text.ofString, String.toList_append, Text.ofChars_append]
    rfl
  rw [hname, hstem.append_iff]
  exact isWordy_toString n

/-! ## The identifiers of declarations -/

/-- The names in the declarations for a bit field: the struct that its functions take with the
member of it that they go to, and those that are declared. -/
def BitFieldBlock.identifiers (b : BitFieldBlock) : List Text :=
  [b.backing.place.1, b.backing.place.2]
    ++ b.enums.flatMap (fun e => e.tag :: e.constants.map Prod.fst)
    ++ b.macros.map Macro.name ++ b.accessors.filterMap Accessor.functionName?

/-- All names in declarations but those that an author gave as declarations or types. -/
def Declarations.identifiers (d : Declarations) : List Text :=
  d.structName :: d.bodies.flatMap Member.declaredNames
    ++ d.blocks.flatMap BitFieldBlock.identifiers

namespace Item

/-- An item the full name of which has no line feed, with keys that can be parts of constants. -/
structure CleanlyNamed (i : Item) : Prop where
  fullName : lineFeed ∉ i.fullName
  keys : ∀ entry ∈ i.enumeration.getD [], (Text.upper entry.1.text).IsWordy

instance (i : Item) : Decidable i.CleanlyNamed :=
  decidable_of_iff (lineFeed ∉ i.fullName ∧
      ∀ entry ∈ i.enumeration.getD [], (Text.upper entry.1.text).IsWordy)
    ⟨fun ⟨hname, hkeys⟩ => ⟨hname, hkeys⟩, fun h => ⟨h.fullName, h.keys⟩⟩

variable {i : Item}

theorem isIdentifier_macroName_iff (h : i.fullName.IsNodeName) :
    i.macroName.IsIdentifier ↔ lineFeed ∉ i.fullName := by
  unfold macroName
  split
  · rw [h.upper.isIdentifier_iff, h.feed_mem_upper_iff]
  · rw [h.upper.isIdentifier_append_iff, h.feed_mem_upper_iff, and_iff_left (by decide)]

theorem isIdentifier_constant_iff (h : i.fullName.IsNodeName) (key : Text) :
    (constantName i.fullName key).IsIdentifier ↔
      lineFeed ∉ i.fullName ∧ (Text.upper key).IsWordy := by
  have hname : constantName i.fullName key
      = Text.upper i.fullName ++ ("_" ++ Text.upper key) := by
    rw [constantName, List.append_assoc, Text.upper_append, Text.upper_append]
    rfl
  have hmark : (Text.ofString "_").IsWordy := by decide
  rw [hname, h.upper.isIdentifier_append_iff, h.feed_mem_upper_iff, Text.isWordy_append,
    and_iff_right hmark]

/-- Nothing looks at the keys, and one of two words is as good as any. -/
example : ¬(constantName "tank_mode" "half full").IsIdentifier := by decide +kernel

/-- The tag and the constants of the enumeration of an item, if it has one. -/
def enumNames (i : Item) : List Text :=
  i.enum?.toList.flatMap fun e => e.tag :: e.constants.map Prod.fst

theorem mem_enumNames {name : Text} (h : name ∈ i.enumNames) :
    name = i.fullName ∨ name ∈ i.constants := by
  obtain ⟨e, he, hname⟩ := List.mem_flatMap.1 h
  rcases List.mem_cons.1 hname with rfl | hname
  · obtain ⟨entries, -, rfl⟩ := Option.map_eq_some_iff.1 (Option.mem_toList.1 he)
    exact .inl rfl
  · rw [← Field.constants_eq]
    exact .inr (List.mem_flatMap.2 ⟨e, he, hname⟩)

theorem mem_enumNames_of_constants {name : Text} (h : name ∈ i.constants) :
    name ∈ i.enumNames := by
  rw [← Field.constants_eq] at h
  obtain ⟨e, he, hname⟩ := List.mem_flatMap.1 h
  exact List.mem_flatMap.2 ⟨e, he, List.mem_cons_of_mem _ hname⟩

/-- **The names for an item are identifiers exactly if it is cleanly named.** -/
theorem cleanlyNamed_iff (h : i.fullName.IsNodeName) (o : DeclarationOptions) :
    ((∀ name ∈ i.enumNames, name.IsIdentifier) ∧ i.macroName.IsIdentifier ∧
        ∀ name ∈ i.functionNames o, name.IsIdentifier) ↔ i.CleanlyNamed := by
  rw [isIdentifier_macroName_iff h]
  constructor
  · rintro ⟨henum, hname, -⟩
    refine ⟨hname, fun entry hentry => ?_⟩
    have hconstant := henum _ (mem_enumNames_of_constants (List.mem_map_of_mem hentry))
    exact ((isIdentifier_constant_iff h _).1 hconstant).2
  · rintro ⟨hname, hkeys⟩
    refine ⟨fun name henum => ?_, hname, fun name hfunction => ?_⟩
    · rcases mem_enumNames henum with rfl | hconstant
      · exact h.isIdentifier_iff.2 hname
      · obtain ⟨entry, hentry, rfl⟩ := List.mem_map.1 hconstant
        exact (isIdentifier_constant_iff h _).2 ⟨hname, hkeys entry hentry⟩
    · have hprefixed : ∀ {stem : Text}, stem.IsIdentifier → (stem ++ i.fullName).IsIdentifier :=
        fun hstem => hstem.append_iff.2 (h.isWordy_iff.2 hname)
      have hmem := (i.functionNames_sublist o).subset hfunction
      simp only [List.mem_cons, List.not_mem_nil, or_false] at hmem
      rcases hmem with rfl | rfl
      · unfold getterName
        split
        · exact hprefixed (by decide)
        · exact hprefixed (by decide)
      · exact hprefixed (by decide)

end Item

/-! ## Blocks -/

theorem BitField.forall_mem_identifiers {P : Text → Prop} {b : BitField} {o : DeclarationOptions}
    {struct member : Text} :
    (∀ name ∈ (b.block o struct member).identifiers, P name) ↔
      (P (b.backing struct member).place.1 ∧ P (b.backing struct member).place.2) ∧
        ∀ i ∈ b.namedItems, (∀ name ∈ i.enumNames, P name) ∧ P i.macroName ∧
          ∀ name ∈ i.functionNames o, P name := by
  have henums : (b.block o struct member).enums.flatMap
        (fun e => e.tag :: e.constants.map Prod.fst) = b.namedItems.flatMap Item.enumNames := by
    rw [BitField.block, List.filterMap_map, List.filterMap_eq_flatMap_toList, List.flatMap_assoc]
    rfl
  have hmacros : (b.block o struct member).macros.map Macro.name
      = b.namedItems.map Item.macroName := by
    rw [BitField.block, List.map_map, List.map_map]
    rfl
  have hfunctions : (b.block o struct member).accessors.filterMap Accessor.functionName?
      = b.namedItems.flatMap (Item.functionNames o) := by
    rw [BitField.block, List.flatMap_map, List.filterMap_flatMap]
    exact List.flatMap_congr fun i _ => i.filterMap_functionName? o _
  rw [BitFieldBlock.identifiers, henums, hmacros, hfunctions]
  simp only [List.forall_mem_append, List.forall_mem_cons, List.forall_mem_map,
    List.forall_mem_flatMap, forall_and, and_assoc, List.not_mem_nil, false_imp_iff,
    implies_true, true_and]
  rfl

namespace Field

/-- The functions of a bit field go to a word in a struct of the same name, or to a member of the
struct of the tree under a name that is made up. -/
theorem forall_place_iff {P : Text → Prop} {b : BitField} {struct member : Text} (hword : P "word")
    (hstruct : P struct) (hmember : b.header.givenText? = none → P member) :
    P (b.backing struct member).place.1 ∧ P (b.backing struct member).place.2 ↔
      ∀ s, b.header.givenText? = some s → P s := by
  unfold BitField.backing
  unfold Header.givenText? at hmember ⊢
  cases hgiven : b.header.givenName? with
  | some given => simp [Backing.place, hword]
  | none =>
    rw [hgiven] at hmember
    simpa [Backing.place, hstruct] using hmember rfl

/-- The name of the member for a bit field is given or made up. -/
theorem exists_number_of_mem {number : Nat} {bs : List BitField} {b : BitField × Text}
    (hb : b ∈ numberedBitFields number bs) : ∃ k, b.2 = b.1.header.nameOr "bitfield_" k := by
  induction bs generalizing number with
  | nil => cases hb
  | cons c bs ih =>
    rcases List.mem_cons.1 hb with rfl | hb
    · exact ⟨number, rfl⟩
    · exact ih hb

end Field

/-! ## Bodies -/

section

variable {P : Text → Prop} (hunused : ∀ k, P (numberedName "unused_" k))
  (hbitField : ∀ k, P (numberedName "bitfield_" k))

include hunused hbitField

theorem Field.forall_mem_bodyNames_iff {n : UnnamedMembers} {f : Field} :
    (∀ name ∈ bodyNames n [f], P name) ↔ ∀ s, f.memberName? = some s → P s := by
  have hnumbered : ∀ {stem : String} {start count : Nat}, (∀ k, P (numberedName stem k)) →
      ∀ name ∈ numberedNames stem start count, P name := by
    intro stem start count hstem name hname
    obtain ⟨k, -, rfl⟩ := List.mem_map.1 hname
    exact hstem k
  rw [bodyNames_singleton, List.forall_mem_append, List.forall_mem_append,
    and_iff_left ⟨hnumbered hunused, hnumbered hbitField⟩]
  simp only [Option.mem_toList]

/-- **If the names that are made up are of some form, all names in the bodies are exactly if those
that are given are.** -/
theorem Declares.forall_names_iff {o : DeclarationOptions} {struct : Text} {n : UnnamedMembers}
    {fs : List Field} {ms : List Member} {blocks : List BitFieldBlock}
    (h : Declares o struct n fs ms blocks) (hplaced : Field.AllPlaced fs) :
    (∀ body ∈ ms :: Member.innerBodiesOf ms, ∀ name ∈ Member.declaredNames body, P name) ↔
      ∀ g ∈ Field.nodesOf fs, ∀ s, g.memberName? = some s → P s := by
  rw [List.forall_mem_cons]
  induction h with
  | nil => simp [Member.innerBodiesOf, Member.declaredNames, Field.nodesOf]
  | @leaf n f fs m ms own blocks first rest ih =>
    have hrest := ih (List.forall_mem_cons.1 hplaced).2
    have hleaf : m.innerBodies = [] ∧ f.nodes = [f] := by cases first <;> exact ⟨rfl, rfl⟩
    obtain ⟨hbodies, hnodes⟩ := hleaf
    rw [Member.innerBodiesOf_doc, Member.innerBodiesOf, hbodies, List.nil_append,
      Member.declaredNames_doc, List.forall_mem_append, first.declaredName_eq,
      Field.forall_mem_bodyNames_iff hunused hbitField, and_assoc, hrest, Field.nodesOf, hnodes,
      List.singleton_append, List.forall_mem_cons]
  | @union n h members fs inner ms own blocks within rest ihWithin ihRest =>
    obtain ⟨⟨path, index, hunion⟩, hplaced⟩ := List.forall_mem_cons.1 hplaced
    have hwithin := ihWithin hunion.children
    have hrest := ihRest hplaced
    rw [Member.innerBodiesOf_union, Member.declaredNames_doc, hunion.declaredName_eq n,
      List.forall_mem_append, Field.forall_mem_bodyNames_iff hunused hbitField,
      List.forall_mem_cons, List.forall_mem_append, Field.nodesOf, Field.nodes,
      List.cons_append, List.forall_mem_cons, List.forall_mem_append, ← hwithin, ← hrest]
    constructor
    · rintro ⟨⟨hown, hnames⟩, hinner, hbelow, hbehind⟩
      exact ⟨hown, ⟨hinner, hbelow⟩, hnames, hbehind⟩
    · rintro ⟨hown, ⟨hinner, hbelow⟩, hnames, hbehind⟩
      exact ⟨⟨hown, hnames⟩, hinner, hbelow, hbehind⟩

end

/-! ## Full names of items -/

/-- The label of a spelled node that was placed begins like a name. -/
theorem Header.Spelled.isNodeName_labelText {h : Header} {path : Path} {index : Nat}
    (hs : h.Spelled) (hplaced : h.NamedUnder path index) (hnamed : h.IsNamed) :
    h.labelText.IsNodeName :=
  .isName (hs.labelText hplaced.allowed hnamed)

namespace Field

/-- Nodes of a spelled tree stand under paths that are made of names. -/
theorem PlacedUnder.named_of_mem {f : Field} {path : Path} {index : Nat}
    (h : f.PlacedUnder path index) (hs : f.Spelled) (hpath : path.IsNamed) :
    ∀ g ∈ f.nodes, ∃ path index, Path.IsNamed path ∧ g.PlacedUnder path index := by
  induction h with
  | @node path index f header items union children ih =>
    obtain ⟨hown, hbelow⟩ := spelled_iff.1 hs
    have hinner := Header.isNamed_pathUnder
      ((ownSpelled_iff.1 hown).1.isNodeName_labelText header) hpath index
    refine forall_mem_nodes.2 ⟨⟨path, index, hpath, .node header items union children⟩, ?_⟩
    intro c hc
    obtain ⟨k, hk⟩ := List.mem_iff_getElem?.1 hc
    exact ih k c hk (hbelow c hc) hinner

/-- **The full name of every named item of a spelled tree begins like a name.** -/
theorem isNodeName_of_mem_namedItems {root : Field} (hplaced : root.PlacedUnder [] 0)
    (hs : root.Spelled) : ∀ i ∈ root.namedItems, i.fullName.IsNodeName := by
  intro i hi
  obtain ⟨b, hb, hi⟩ := List.mem_flatMap.1 hi
  have hnode : bitfield b ∈ root.nodes := mem_bitFields.1 hb
  obtain ⟨path, index, hpath, hbitfield⟩ :=
    hplaced.named_of_mem hs (List.forall_mem_nil _) _ hnode
  have hmem : i ∈ b.items := List.mem_of_mem_filter hi
  have hown := ownSpelled_iff.1 (hs _ hnode)
  obtain ⟨header, items, -, -⟩ := hbitfield
  have hinner := Header.isNamed_pathUnder (hown.1.isNodeName_labelText header) hpath index
  obtain ⟨k, hk⟩ := List.mem_iff_getElem?.1 hmem
  have hitem := (items b rfl k i hk).header
  rw [Item.fullName, hitem.fullName, Option.getD_some]
  exact Header.isNodeName_nameUnder ((hown.2 b rfl i hmem).isNodeName_labelText hitem) hinner k

/-! ## Whole trees -/

/-- A tree whose names have no line feeds where they are declared: its own name and those of its
members, and the full names of items.  The keys of items can be parts of constants. -/
structure CleanlyNamed (f : Field) : Prop where
  name : ∀ s, f.header.givenText? = some s → lineFeed ∉ s
  members : ∀ g ∈ f.nodes, ∀ s, g.memberName? = some s → lineFeed ∉ s
  items : ∀ i ∈ f.namedItems, i.CleanlyNamed

instance (f : Field) : Decidable f.CleanlyNamed :=
  decidable_of_iff ((∀ s ∈ f.header.givenText?, lineFeed ∉ s) ∧
      (∀ g ∈ f.nodes, ∀ s ∈ g.memberName?, lineFeed ∉ s) ∧ ∀ i ∈ f.namedItems, i.CleanlyNamed)
    ⟨fun ⟨hname, hmembers, hitems⟩ => ⟨hname, hmembers, hitems⟩,
      fun h => ⟨h.name, h.members, h.items⟩⟩

section

variable {root : Field} {o : DeclarationOptions} {d : Declarations}
  (hplaced : root.PlacedUnder [] 0) (hs : root.Spelled)

include hplaced hs

/-- A given name in a spelled tree is an identifier unless it has a line feed. -/
theorem isIdentifier_givenText_iff {g : Field} (hg : g ∈ root.nodes) {s : Text}
    (hname : g.header.givenText? = some s) : s.IsIdentifier ↔ lineFeed ∉ s := by
  obtain ⟨path, index, hnode⟩ := hplaced.node_of_mem g hg
  obtain ⟨header, -, -, -⟩ := hnode
  have hspelled := (ownSpelled_iff.1 (hs g hg)).1.givenText header.allowed hname
  exact (Text.IsNodeName.isName hspelled).isIdentifier_iff

theorem forall_mem_bodies_iff (hd : root.declarations o = .ok d) :
    (∀ name ∈ d.bodies.flatMap Member.declaredNames, name.IsIdentifier) ↔
      ∀ g ∈ root.nodes, ∀ s, g.memberName? = some s → lineFeed ∉ s := by
  have hgiven : ∀ g ∈ root.nodes, ∀ s, g.memberName? = some s → (s.IsIdentifier ↔ lineFeed ∉ s) :=
    fun g hg s hname => isIdentifier_givenText_iff hplaced hs hg (givenText_of_memberName hname)
  obtain ⟨h, fields, rfl, -, hfields, hdeclares⟩ := declarations_eq_ok hplaced hd
  have hmembers := hdeclares.forall_names_iff (isIdentifier_numberedName (by decide))
    (isIdentifier_numberedName (by decide)) hfields
  -- The struct itself is not a member.
  have hroot : ∀ s, (struct h fields).memberName? = some s → lineFeed ∉ s := nofun
  rw [List.forall_mem_flatMap, Declarations.bodies, hmembers, nodes, List.forall_mem_cons,
    and_iff_right hroot]
  exact forall₂_congr fun g hg => forall₂_congr fun s hname =>
    hgiven g (List.mem_cons_of_mem _ hg) s hname

/-- The names for a bit field are identifiers, if that of the struct is, exactly if its own name
has no line feed and its items are cleanly named. -/
theorem forall_mem_block_iff {struct : Text} (hstruct : struct.IsIdentifier) {b : BitField × Text}
    (hb : b ∈ numberedBitFields 0 root.bitFields) :
    (∀ name ∈ (b.1.block o struct b.2).identifiers, name.IsIdentifier) ↔
      (∀ s, b.1.header.givenText? = some s → lineFeed ∉ s) ∧
        ∀ i ∈ b.1.namedItems, i.CleanlyNamed := by
  have hmem := mem_of_mem_numberedBitFields hb
  have hmember : b.1.header.givenText? = none → b.2.IsIdentifier := by
    obtain ⟨k, hk⟩ := exists_number_of_mem hb
    intro hnone
    rw [hk, Header.nameOr, Option.map_eq_none_iff.1 hnone]
    exact isIdentifier_numberedName (by decide) k
  rw [BitField.forall_mem_identifiers, forall_place_iff (by decide) hstruct hmember]
  refine and_congr (forall₂_congr fun s hname => ?_) (forall₂_congr fun i hi => ?_)
  · exact isIdentifier_givenText_iff hplaced hs (mem_bitFields.1 hmem) hname
  · have hname := isNodeName_of_mem_namedItems hplaced hs i (List.mem_flatMap.2 ⟨b.1, hmem, hi⟩)
    exact Item.cleanlyNamed_iff hname o

end

theorem forall_mem_namedItems_iff {P : Item → Prop} {f : Field} : (∀ i ∈ f.namedItems, P i) ↔
    ∀ b ∈ numberedBitFields 0 f.bitFields, ∀ i ∈ b.1.namedItems, P i := by
  rw [namedItems, ← flatMap_numberedBitFields 0, List.forall_mem_flatMap]

/-- **The names that are declared for an accepted document are identifiers exactly if the tree is
cleanly named.** -/
theorem declaredIdentifiers_iff {text : Text} {raw root : Field} {o : DeclarationOptions}
    {d : Declarations} (hread : ofText text = .ok raw) (hroot : raw.resolve = .ok root)
    (hd : root.declarations o = .ok d) :
    (∀ name ∈ d.identifiers, name.IsIdentifier) ↔ root.CleanlyNamed := by
  have hs := (spelled_of_ofText hread).resolve hroot
  obtain ⟨hplaced, -⟩ := resolve_eq_ok hroot
  have hname : root.header.givenText? = some d.structName := by
    obtain ⟨h, fields, rfl, hgiven, -, -⟩ := declarations_eq_ok hplaced hd
    rw [header, Header.givenText?, hgiven]
    rfl
  have hown := isIdentifier_givenText_iff hplaced hs root.mem_nodes_self hname
  have hblock := fun hstruct b hb =>
    @forall_mem_block_iff root o hplaced hs d.structName hstruct b hb
  rw [Declarations.identifiers, List.forall_mem_append, List.forall_mem_cons,
    forall_mem_bodies_iff hplaced hs hd, List.forall_mem_flatMap, blocks_of_declarations hroot hd,
    List.forall_mem_map]
  constructor
  · rintro ⟨⟨hstruct, hmembers⟩, hblocks⟩
    refine ⟨fun s hs => ?_, hmembers, forall_mem_namedItems_iff.2 fun b hb => ?_⟩
    · obtain rfl := Option.some.inj (hname.symm.trans hs)
      exact hown.1 hstruct
    · exact ((hblock hstruct b hb).1 (hblocks b hb)).2
  · rintro ⟨hroot, hmembers, hitems⟩
    have hstruct := hown.2 (hroot _ hname)
    refine ⟨⟨hstruct, hmembers⟩, fun b hb => (hblock hstruct b hb).2 ⟨?_, ?_⟩⟩
    · exact hmembers _ (mem_bitFields.1 (mem_of_mem_numberedBitFields hb))
    · exact forall_mem_namedItems_iff.1 hitems b hb

/-- A struct with a bit field in which one item has constants. -/
def tankText : Text :=
  "type: struct\nname: tank\nfields:\n- type: bitfield\n  bits: 8\n  fields:\n  - name: mode\n"
    ++ "    bits: 3\n    enum:\n      idle: 0\n      fill: 1\n  - bits: 5\n"

theorem declaredIdentifiers_iff_tankText :
    ∃ (raw root : Field) (d : Declarations), ofText tankText = .ok raw ∧
      raw.resolve = .ok root ∧ root.declarations {} = .ok d ∧ root.CleanlyNamed ∧
      d.macroNames = (["TANK_MODE_MASK"] : List Text) ∧
      d.enumerators = (["TANK_MODE_IDLE", "TANK_MODE_FILL"] : List Text) ∧
      ∀ name ∈ d.identifiers, name.IsIdentifier := by
  have hall : (ofText tankText).toOption.any (fun raw : Field =>
      raw.resolve.toOption.any fun root => (root.declarations {}).toOption.any
        fun d : Declarations => decide (root.CleanlyNamed ∧
          d.macroNames = (["TANK_MODE_MASK"] : List Text) ∧
          d.enumerators = (["TANK_MODE_IDLE", "TANK_MODE_FILL"] : List Text))) = true := by
    decide +kernel
  obtain ⟨raw, hread, hall⟩ := exists_of_any hall
  obtain ⟨root, hroot, hall⟩ := exists_of_any hall
  obtain ⟨d, hd, hall⟩ := exists_of_any hall
  obtain ⟨hclean, hmacros, henumerators⟩ := of_decide_eq_true hall
  exact ⟨raw, root, d, hread, hroot, hd, hclean, hmacros, henumerators,
    (declaredIdentifiers_iff hread hroot hd).2 hclean⟩

/-- A struct whose name ends with a line feed. -/
def brokenNameText : Text := "type: struct\nname: \"r\\n\"\nfields: []\n"

/-- The document is accepted, and the tag of its struct is no identifier. -/
theorem declarations_brokenNameText :
    ∃ (raw root : Field) (d : Declarations), ofText brokenNameText = .ok raw ∧
      raw.resolve = .ok root ∧ root.declarations {} = .ok d ∧ d.structName = "r\n" ∧
      ¬∀ name ∈ d.identifiers, name.IsIdentifier := by
  have hall : (ofText brokenNameText).toOption.any (fun raw : Field =>
      raw.resolve.toOption.any fun root => (root.declarations {}).toOption.any
        fun d : Declarations => decide (d.structName = "r\n")) = true := by
    decide +kernel
  obtain ⟨raw, hread, hall⟩ := exists_of_any hall
  obtain ⟨root, hroot, hall⟩ := exists_of_any hall
  obtain ⟨d, hd, hall⟩ := exists_of_any hall
  have hname : d.structName = "r\n" := of_decide_eq_true hall
  refine ⟨raw, root, d, hread, hroot, hd, hname, fun h => ?_⟩
  have hstruct := h d.structName (List.mem_append_left _ List.mem_cons_self)
  rw [hname] at hstruct
  exact absurd hstruct (by decide)

end Field

end RegisterLayout
