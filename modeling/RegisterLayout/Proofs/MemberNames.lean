import RegisterLayout.Proofs.Accessors

/-!
# Names of members

The members of the declared struct, and of each union in it, have the names that their authors gave
them, not the short names that count for the check for unique names, and made-up names where there
is none.  A given name can be that of another member if one of the two has a short name, and it can
be one that is made up for another member.  The names of a body are distinct exactly if neither
happens.

Principal definitions: `Declarations.bodies`, `Member.declaredNames`; `Field.bodyNames`,
`Field.MembersApart`.
Principal results: `Declares.names_perm`, `Field.memberNames_nodup_iff`.
-/

namespace RegisterLayout

/-! ## Bodies and their names -/

namespace Member

def declaredName? : Member → Option Text
  | word _ name => some name
  | bytes name _ => some name
  | union name _ => some (Cause.nameText name)
  | _ => none

/-- The names that a body declares; the declarations that an author gave are not read. -/
def declaredNames (ms : List Member) : List Text := ms.filterMap declaredName?

mutual

/-- The bodies in a member. -/
def innerBodies : Member → List (List Member)
  | union _ members => members :: innerBodiesOf members
  | _ => []
termination_by structural m => m

def innerBodiesOf : List Member → List (List Member)
  | [] => []
  | m :: ms => innerBodies m ++ innerBodiesOf ms
termination_by structural ms => ms

end

theorem innerBodiesOf_doc (doc : Option Text) (ms : List Member) :
    innerBodiesOf (doc.toList.map Member.doc ++ ms) = innerBodiesOf ms := by
  cases doc <;> rfl

theorem innerBodiesOf_union (doc name : Option Text) (inner ms : List Member) :
    innerBodiesOf (doc.toList.map Member.doc ++ union name inner :: ms)
      = inner :: (innerBodiesOf inner ++ innerBodiesOf ms) := by
  rw [innerBodiesOf_doc]
  rfl

theorem declaredNames_doc (doc : Option Text) (m : Member) (ms : List Member) :
    declaredNames (doc.toList.map Member.doc ++ m :: ms)
      = m.declaredName?.toList ++ declaredNames ms := by
  have hcons : declaredNames (m :: ms) = m.declaredName?.toList ++ declaredNames ms := by
    unfold declaredNames
    rw [List.filterMap_cons]
    cases m.declaredName? <;> rfl
  cases doc <;> exact hcons

end Member

/-- The body of the struct and those of the unions in it. -/
def Declarations.bodies (d : Declarations) : List (List Member) :=
  d.members :: Member.innerBodiesOf d.members

/-! ## Made-up names -/

theorem numberedName_injective (stem : String) : Function.Injective (numberedName stem) := by
  intro a b h
  have hchars : (stem ++ toString a).toList = (stem ++ toString b).toList :=
    List.map_injective_iff.2 (fun _ _ => CodePoint.char.inj) h
  have hdigits : Nat.toDigits 10 a = Nat.toDigits 10 b := by
    rw [String.toList_inj, String.append_right_inj, ← String.toList_inj] at hchars
    simpa only [Nat.toString_eq_repr, Nat.toList_repr] using hchars
  calc
    a = Nat.ofDigitChars 10 (Nat.toDigits 10 a) 0 := Nat.ofDigitChars_ten_toDigits.symm
    _ = Nat.ofDigitChars 10 (Nat.toDigits 10 b) 0 := by rw [hdigits]
    _ = b := Nat.ofDigitChars_ten_toDigits

theorem unused_ne_bitfield (j k : Nat) :
    numberedName "unused_" j ≠ numberedName "bitfield_" k := by
  intro h
  have hhead := congrArg List.head? h
  simp [numberedName, Text.ofString, Text.ofChars, String.toList_append] at hhead

/-- Names that are made up one after the other. -/
def numberedNames (stem : String) (start count : Nat) : List Text :=
  (List.range' start count).map (numberedName stem)

theorem numberedNames_append (stem : String) (start m n : Nat) :
    numberedNames stem start m ++ numberedNames stem (start + m) n
      = numberedNames stem start (m + n) := by
  rw [numberedNames, numberedNames, numberedNames, ← List.map_append, List.range'_append_1]

theorem nodup_numberedNames (stem : String) (start count : Nat) :
    (numberedNames stem start count).Nodup :=
  (List.nodup_range' _).map (numberedName_injective stem)

theorem mem_numberedNames {stem : String} {count : Nat} {name : Text} :
    name ∈ numberedNames stem 0 count ↔ ∃ k < count, name = numberedName stem k := by
  simp [numberedNames, eq_comm]

/-- Next to others a node has its own name or the next that is made up. -/
theorem nameOr_eq (h : Header) (stem : String) (number : Nat) :
    [h.nameOr stem number] = h.givenText?.toList ++ numberedNames stem number h.unnamed := by
  cases hname : h.givenName? <;>
    simp [Header.nameOr, Header.givenText?, Header.unnamed, numberedNames, hname]

/-! ## Members of a body -/

namespace Field

/-- The name that an author gave a member.  A blob is not declared by its name. -/
def memberName? : Field → Option Text
  | word w => w.header.givenText?
  | bitfield b => b.header.givenText?
  | union h _ => h.givenText?
  | _ => none

/-- How many members take made-up names that words and blobs share. -/
def spareNames (fs : List Field) : Nat := (fs.map plainSpare).sum

/-- How many bit fields take made-up names. -/
def spareBitFields (fs : List Field) : Nat := (fs.map bitFieldSpare).sum

/-- The given names of members, and those that are made up behind some unnamed ones. -/
def bodyNames (n : UnnamedMembers) (fs : List Field) : List Text :=
  fs.filterMap memberName? ++ (numberedNames "unused_" n.plain (spareNames fs)
    ++ numberedNames "bitfield_" n.bitFields (spareBitFields fs))

theorem bodyNames_singleton (n : UnnamedMembers) (f : Field) :
    bodyNames n [f] = f.memberName?.toList ++ (numberedNames "unused_" n.plain f.plainSpare
      ++ numberedNames "bitfield_" n.bitFields f.bitFieldSpare) := by
  have hgiven : [f].filterMap memberName? = f.memberName?.toList := by
    cases hname : f.memberName? <;> simp [hname]
  rw [bodyNames, hgiven]
  rfl

/-- Two lists of three parts each, put together part by part. -/
theorem perm_append_parts {α : Type} (as bs cs as' bs' cs' : List α) :
    ((as ++ (bs ++ cs)) ++ (as' ++ (bs' ++ cs'))).Perm
      ((as ++ as') ++ ((bs ++ bs') ++ (cs ++ cs'))) := by
  classical
  rw [List.perm_iff_count]
  intro a
  simp only [List.count_append]
  omega

theorem bodyNames_cons (n : UnnamedMembers) (f : Field) (fs : List Field) :
    (bodyNames n [f] ++ bodyNames (n.after f) fs).Perm (bodyNames n (f :: fs)) := by
  have hgiven : (f :: fs).filterMap memberName?
      = f.memberName?.toList ++ fs.filterMap memberName? := by
    rw [List.filterMap_cons]
    cases f.memberName? <;> rfl
  have hplain : spareNames (f :: fs) = f.plainSpare + spareNames fs := rfl
  have hbitFields : spareBitFields (f :: fs) = f.bitFieldSpare + spareBitFields fs := rfl
  rw [bodyNames_singleton, bodyNames, bodyNames, hgiven, hplain, hbitFields,
    UnnamedMembers.after_plain, UnnamedMembers.after_bitFields, ← numberedNames_append,
    ← numberedNames_append]
  exact perm_append_parts _ _ _ _ _ _

end Field

theorem DeclaredLeaf.declaredName_eq {o : DeclarationOptions} {struct : Text} {n : UnnamedMembers}
    {f : Field} {m : Member} {own : List BitFieldBlock} (h : DeclaredLeaf o struct n f m own) :
    m.declaredName?.toList = Field.bodyNames n [f] := by
  rw [Field.bodyNames_singleton]
  cases h with
  | word w =>
    have hname := nameOr_eq w.header "unused_" n.plain
    rw [← List.append_nil (numberedNames ..)] at hname
    exact hname
  | verbatim b decl hdecl =>
    have hspare : (Field.blob b).plainSpare = 0 := by simp [Field.plainSpare, hdecl]
    rw [hspare]
    rfl
  | bytes b hdecl =>
    have hspare : (Field.blob b).plainSpare = 1 := by simp [Field.plainSpare, hdecl]
    rw [hspare]
    rfl
  | bitfield b => exact nameOr_eq b.header "bitfield_" n.bitFields

/-- A placed union has a name, by which it is declared. -/
theorem Field.PlacedUnder.declaredName_eq {h : Header} {members : List Field} {path : Path}
    {index : Nat} (hunion : (Field.union h members).PlacedUnder path index) (n : UnnamedMembers)
    (inner : List Member) :
    (Member.union (h.name.map Value.text) inner).declaredName?.toList
      = Field.bodyNames n [.union h members] := by
  obtain ⟨-, -, hnamed, -⟩ := hunion
  obtain ⟨given, hgiven⟩ := Option.isSome_iff_exists.1 (hnamed h members rfl).1
  have hname : h.name = some given := (Option.filter_eq_some_iff.1 hgiven).1
  rw [Field.bodyNames_singleton]
  simp only [Member.declaredName?, Field.memberName?, Header.givenText?, hgiven, hname,
    Option.map_some]
  rfl

/-- **The names of a body are the given ones and as many made-up ones as are needed.** -/
theorem Declares.names_perm {o : DeclarationOptions} {struct : Text} {n : UnnamedMembers}
    {fs : List Field} {ms : List Member} {blocks : List BitFieldBlock}
    (h : Declares o struct n fs ms blocks) (hplaced : Field.AllPlaced fs) :
    (Member.declaredNames ms).Perm (Field.bodyNames n fs) := by
  induction h with
  | nil => exact List.Perm.refl _
  | @leaf n f fs m ms own blocks first rest ih =>
    have hrest := ih (List.forall_mem_cons.1 hplaced).2
    rw [Member.declaredNames_doc, first.declaredName_eq]
    exact (hrest.append_left _).trans (Field.bodyNames_cons n f fs)
  | @union n h members fs inner ms own blocks within rest ihWithin ihRest =>
    obtain ⟨⟨path, index, hunion⟩, hplaced⟩ := List.forall_mem_cons.1 hplaced
    rw [Member.declaredNames_doc, hunion.declaredName_eq]
    exact ((ihRest hplaced).append_left _).trans (Field.bodyNames_cons n (.union h members) fs)

/-! ## Distinct names -/

namespace Field

def HasShortName (f : Field) : Prop := (filled? f.header.shortName).isSome

instance (f : Field) : Decidable f.HasShortName := inferInstanceAs (Decidable (_ = true))

/-- Members whose names stay apart: none with a short name has the name of another, and none has a
name that is made up for another. -/
structure MembersApart (fs : List Field) : Prop where
  given : fs.Pairwise fun f g => f.HasShortName ∨ g.HasShortName →
    ∀ s, f.memberName? = some s → g.memberName? ≠ some s
  unused : ∀ k < spareNames fs, ∀ f ∈ fs, f.memberName? ≠ some (numberedName "unused_" k)
  bitFields : ∀ k < spareBitFields fs, ∀ f ∈ fs, f.memberName? ≠ some (numberedName "bitfield_" k)

instance (fs : List Field) : Decidable (MembersApart fs) :=
  decidable_of_iff
    ((fs.Pairwise fun f g => f.HasShortName ∨ g.HasShortName →
        ∀ s ∈ f.memberName?, g.memberName? ≠ some s) ∧
      (∀ k < spareNames fs, ∀ f ∈ fs, f.memberName? ≠ some (numberedName "unused_" k)) ∧
      ∀ k < spareBitFields fs, ∀ f ∈ fs, f.memberName? ≠ some (numberedName "bitfield_" k))
    ⟨fun ⟨hgiven, hunused, hbitFields⟩ => ⟨hgiven, hunused, hbitFields⟩,
      fun h => ⟨h.given, h.unused, h.bitFields⟩⟩

theorem givenText_of_memberName {f : Field} {s : Text} (h : f.memberName? = some s) :
    f.header.givenText? = some s := by
  cases f with
  | word w => exact h
  | bitfield b => exact h
  | union header members => exact h
  | _ => cases h

/-- Without a short name a member is known under its path by the name that it is declared by. -/
theorem PlacedUnder.fullName_eq {f : Field} {path : Path} {index : Nat}
    (h : f.PlacedUnder path index) (hshort : ¬f.HasShortName) {s : Text}
    (hname : f.memberName? = some s) : f.fullName = Path.joined (path.labels ++ [s]) := by
  obtain ⟨header, -, -, -⟩ := h
  obtain ⟨given, hgiven, rfl⟩ := Option.map_eq_some_iff.1 (givenText_of_memberName hname)
  have hnamed : f.header.IsNamed := by
    rw [Header.IsNamed, hgiven]
    rfl
  have hnone : filled? f.header.shortName = none := Option.not_isSome_iff_eq_none.1 hshort
  have hlabel : f.header.labelText = given.text := by
    have hname' : f.header.name = some given := (Option.filter_eq_some_iff.1 hgiven).1
    simp [Header.labelText, Header.label?, hnone, hname']
  rw [fullName, header.fullName, Option.getD_some, Header.nameUnder, if_pos hnamed, hlabel]

/-- The given names of siblings are distinct if those with short names keep to themselves: the
others are distinct as full names. -/
theorem nodup_memberNames_iff {fs : List Field} (hsiblings : Siblings fs)
    (hnames : (fs.map fullName).Nodup) : (fs.filterMap memberName?).Nodup ↔
      fs.Pairwise fun f g => f.HasShortName ∨ g.HasShortName →
        ∀ s, f.memberName? = some s → g.memberName? ≠ some s := by
  obtain ⟨path, hplaced⟩ := hsiblings
  rw [List.Nodup, List.pairwise_filterMap]
  constructor
  · intro h
    refine h.imp fun {f g} hfg _ s hf hg => ?_
    exact hfg s hf s hg rfl
  · intro h
    refine (h.and (List.pairwise_map.1 hnames)).imp_of_mem fun {f g} hfm hgm hfg => ?_
    rintro s hf _ hg rfl
    obtain ⟨happart, hne⟩ := hfg
    by_cases hshort : f.HasShortName ∨ g.HasShortName
    · exact happart hshort s hf hg
    · obtain ⟨hfshort, hgshort⟩ := not_or.1 hshort
      obtain ⟨j, hj⟩ := List.mem_iff_getElem?.1 hfm
      obtain ⟨k, hk⟩ := List.mem_iff_getElem?.1 hgm
      exact hne (((hplaced j f hj).fullName_eq hfshort hf).trans
        ((hplaced k g hk).fullName_eq hgshort hg).symm)

end Field

namespace Declares

variable {o : DeclarationOptions} {struct : Text} {n : UnnamedMembers} {fs : List Field}
  {ms : List Member} {blocks : List BitFieldBlock}

/-- **The names of a body are distinct exactly if its members stay apart.** -/
theorem names_nodup_iff (h : Declares o struct {} fs ms blocks) (hsiblings : Field.Siblings fs)
    (hnames : (fs.map Field.fullName).Nodup) :
    (Member.declaredNames ms).Nodup ↔ Field.MembersApart fs := by
  have hmadeUp : (numberedNames "unused_" 0 (Field.spareNames fs)
      ++ numberedNames "bitfield_" 0 (Field.spareBitFields fs)).Nodup := by
    refine List.nodup_append'.2 ⟨nodup_numberedNames _ _ _, nodup_numberedNames _ _ _, ?_⟩
    intro name hunused hbitField
    obtain ⟨j, -, rfl⟩ := mem_numberedNames.1 hunused
    obtain ⟨k, -, heq⟩ := mem_numberedNames.1 hbitField
    exact unused_ne_bitfield j k heq
  rw [(h.names_perm hsiblings.allPlaced).nodup_iff, Field.bodyNames, List.nodup_append',
    Field.nodup_memberNames_iff hsiblings hnames]
  constructor
  · rintro ⟨hgiven, -, hdisjoint⟩
    refine ⟨hgiven, ?_, ?_⟩
    · intro k hk f hf hname
      exact hdisjoint (List.mem_filterMap.2 ⟨f, hf, hname⟩)
        (List.mem_append_left _ (mem_numberedNames.2 ⟨k, hk, rfl⟩))
    · intro k hk f hf hname
      exact hdisjoint (List.mem_filterMap.2 ⟨f, hf, hname⟩)
        (List.mem_append_right _ (mem_numberedNames.2 ⟨k, hk, rfl⟩))
  · rintro ⟨hgiven, hunused, hbitFields⟩
    refine ⟨hgiven, hmadeUp, ?_⟩
    intro name hname hmade
    obtain ⟨f, hf, hname⟩ := List.mem_filterMap.1 hname
    rcases List.mem_append.1 hmade with hmade | hmade
    · obtain ⟨k, hk, rfl⟩ := mem_numberedNames.1 hmade
      exact hunused k hk f hf hname
    · obtain ⟨k, hk, rfl⟩ := mem_numberedNames.1 hmade
      exact hbitFields k hk f hf hname

/-- The bodies in some members have distinct names exactly if the members of the unions among the
nodes stay apart. -/
theorem innerBodies_nodup_iff (h : Declares o struct n fs ms blocks)
    (hplaced : Field.AllPlaced fs) (hnames : ((Field.nodesOf fs).map Field.fullName).Nodup) :
    (∀ body ∈ Member.innerBodiesOf ms, (Member.declaredNames body).Nodup) ↔
      ∀ g ∈ Field.nodesOf fs, Field.MembersApart g.children := by
  induction h with
  | nil => simp [Member.innerBodiesOf, Field.nodesOf]
  | @leaf n f fs m ms own blocks first rest ih =>
    rw [Field.nodesOf, List.map_append] at hnames
    have hrest := ih (List.forall_mem_cons.1 hplaced).2 (List.nodup_append'.1 hnames).2.1
    have hnone : Field.MembersApart [] :=
      ⟨.nil, fun _ _ => List.forall_mem_nil _, fun _ _ => List.forall_mem_nil _⟩
    have hleaf : m.innerBodies = [] ∧ f.nodes = [f] ∧ f.children = [] := by
      cases first <;> exact ⟨rfl, rfl, rfl⟩
    obtain ⟨hbodies, hnodes, hchildren⟩ := hleaf
    rw [Member.innerBodiesOf_doc, Member.innerBodiesOf, hbodies, List.nil_append, hrest,
      Field.nodesOf, hnodes, List.singleton_append, List.forall_mem_cons, hchildren,
      and_iff_right hnone]
  | @union n h members fs inner ms own blocks within rest ihWithin ihRest =>
    obtain ⟨⟨path, index, hunion⟩, hplaced⟩ := List.forall_mem_cons.1 hplaced
    rw [Field.nodesOf, Field.nodes, List.cons_append, List.map_cons, List.map_append] at hnames
    obtain ⟨hwithin, hrest, -⟩ := List.nodup_append'.1 (List.nodup_cons.1 hnames).2
    have hbody := within.names_nodup_iff hunion.siblings
      (hwithin.sublist ((Field.sublist_nodesOf members).map Field.fullName))
    rw [Member.innerBodiesOf_union, List.forall_mem_cons, List.forall_mem_append, hbody,
      ihWithin hunion.children hwithin, ihRest hplaced hrest, Field.nodesOf, Field.nodes,
      List.cons_append, List.forall_mem_cons, List.forall_mem_append]
    rfl

end Declares

namespace Field

variable {raw root : Field} {o : DeclarationOptions} {d : Declarations}

/-- **No body declares a name twice exactly if the members of every node stay apart.** -/
theorem memberNames_nodup_iff (hroot : raw.resolve = .ok root)
    (hd : root.declarations o = .ok d) :
    (∀ body ∈ d.bodies, (Member.declaredNames body).Nodup) ↔
      ∀ f ∈ root.nodes, MembersApart f.children := by
  obtain ⟨hplaced, -⟩ := resolve_eq_ok hroot
  obtain ⟨-, hnames⟩ := names_nodup hroot
  have hnodes := hnames.sublist root.nodes_sublist_names
  obtain ⟨h, fields, rfl, -, hfields, hdeclares⟩ := declarations_eq_ok hplaced hd
  rw [nodes, List.map_cons] at hnodes
  have hbelow := (List.nodup_cons.1 hnodes).2
  have hbody := hdeclares.names_nodup_iff hplaced.siblings
    (hbelow.sublist ((sublist_nodesOf fields).map fullName))
  rw [Declarations.bodies, List.forall_mem_cons, hbody,
    hdeclares.innerBodies_nodup_iff hfields hbelow, nodes, List.forall_mem_cons]
  rfl

theorem memberNames_nodup_iff_controlRoot :
    controlRoot.resolve = .ok (controlRoot.located [] 0 0) ∧
      ∃ d, (controlRoot.located [] 0 0).declarations {} = .ok d ∧
        (∀ f ∈ (controlRoot.located [] 0 0).nodes, MembersApart f.children) ∧
        ∀ body ∈ d.bodies, (Member.declaredNames body).Nodup := by
  have hresolve : controlRoot.resolve = .ok (controlRoot.located [] 0 0) := rfl
  obtain ⟨d, hd⟩ : ∃ d, (controlRoot.located [] 0 0).declarations {} = .ok d :=
    exists_of_isOk (by decide +kernel)
  have hapart : ∀ f ∈ (controlRoot.located [] 0 0).nodes, MembersApart f.children := by decide
  exact ⟨hresolve, d, hd, hapart, (memberNames_nodup_iff hresolve hd).2 hapart⟩

/-- A word with a name that is made up for another, and two of one name with short names. -/
def doublingRoot : Field :=
  struct { name := some (.str "r") }
    [word { header := { name := some (.str "unused_0") }, bits := 8 },
      word { bits := 8 },
      word { header := { name := some (.str "a"), shortName := some (.str "b") }, bits := 8 },
      word { header := { name := some (.str "a"), shortName := some (.str "c") }, bits := 8 }]

/-- Two names are declared twice in the struct. -/
theorem declarations_doublingRoot :
    doublingRoot.resolve = .ok (doublingRoot.located [] 0 0) ∧
      ∃ d, (doublingRoot.located [] 0 0).declarations {} = .ok d ∧
        Member.declaredNames d.members = ["unused_0", "unused_0", "a", "a"] ∧
        ¬∀ body ∈ d.bodies, (Member.declaredNames body).Nodup := by
  have hresolve : doublingRoot.resolve = .ok (doublingRoot.located [] 0 0) := rfl
  have hmembers : ((doublingRoot.located [] 0 0).declarations {}).toOption.map
      (fun d => Member.declaredNames d.members)
        = some (["unused_0", "unused_0", "a", "a"] : List Text) := by
    decide +kernel
  obtain ⟨d, hd⟩ : ∃ d, (doublingRoot.located [] 0 0).declarations {} = .ok d :=
    exists_of_isOk (by decide +kernel)
  rw [hd] at hmembers
  have hnames : Member.declaredNames d.members = ["unused_0", "unused_0", "a", "a"] :=
    Option.some.inj hmembers
  refine ⟨hresolve, d, hd, hnames, fun hall => ?_⟩
  have hbody := hall d.members List.mem_cons_self
  rw [hnames] at hbody
  exact absurd hbody (by decide)

end Field

end RegisterLayout
