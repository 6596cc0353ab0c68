import RegisterLayout.Declaration.OfField
import RegisterLayout.Proofs.FieldType

/-!
# The layout of the declared struct

The struct that is declared for a layout has no attributes that would keep a compiler from laying
it out naturally.  Its members have the types that stand for the fields, one member for each field
in their order, and a compiler puts them where the fields are exactly for layouts in which all bit
fields are aligned like words and no union ends between two multiples of its alignment.

Principal definitions: `Member.typeFor?` — the type of a declared member; `Field.NoTypedef`.
Principal results: `typesFor?_declareFields`, `Field.declared_laidOutNaturally_iff`.
-/

namespace RegisterLayout

/-! ## Types of declared members -/

namespace Member

def isDoc : Member → Bool
  | doc _ => true
  | _ => false

mutual

/-- The type of a member that was declared for a field.  The declaration that an author gives for
a blob stands for its bytes. -/
def typeFor? (f : Field) : Member → Option CType
  | word (.plain _ bits) _ => bits.int?.map .word
  | bytes _ count => count.int?.map .bytes
  | verbatim _ =>
    match f with
    | .blob b => b.bytes.int?.map .bytes
    | _ => none
  | union _ members => (typesFor? f.children members).map .union
  | _ => none
termination_by structural m => m

/-- The types of members that were declared for some fields, one for each field. -/
def typesFor? (fs : List Field) : List Member → Option (List CType)
  | [] => if fs.isEmpty then some [] else none
  | m :: ms =>
    if m.isDoc then typesFor? fs ms
    else match fs with
      | [] => none
      | f :: fs => do return (← typeFor? f m) :: (← typesFor? fs ms)
termination_by structural ms => ms

end

theorem typesFor?_doc (fs : List Field) (doc : Option Text) (ms : List Member) :
    typesFor? fs (doc.toList.map Member.doc ++ ms) = typesFor? fs ms := by
  cases doc with
  | none => rfl
  | some text => rfl

end Member

/-- The type that an author gave for a word. -/
def Field.typedef? : Field → Option Value
  | word w => filled? w.typedef
  | _ => none

/-- A tree in which no word has a type of its own. -/
def Field.NoTypedef (f : Field) : Prop := ∀ g ∈ f.nodes, g.typedef?.isNone

instance (f : Field) : Decidable f.NoTypedef := inferInstanceAs (Decidable (∀ g ∈ f.nodes, _))

theorem Field.NoTypedef.child {f c : Field} (hf : f.NoTypedef) (hc : c ∈ f.children) :
    c.NoTypedef :=
  (forall_mem_nodes.1 hf).2 c hc

/-! ## Declaring fields -/

namespace Field

/-- A tree that was located somewhere. -/
def IsLocated (g f : Field) : Prop := ∃ path index start, g = f.located path index start

/-- One member is declared for a field, and it has the type that stands for the field. -/
def DeclaredAsType (f : Field) : Prop :=
  ∀ (o : DeclarationOptions) (struct : Text) (n : UnnamedMembers) (g : Field)
    (ms : List Member) (blocks : List BitFieldBlock),
    g.IsLocated f → declareField o struct n g = .ok (ms, blocks) →
      f.Flat ∧ ∃ m, ms = [m] ∧ m.isDoc = false ∧ m.typeFor? g = some f.cType

/-- **The members declared for some fields have the types that stand for the fields.** -/
theorem typesFor?_declareFields {fs gs : List Field} (hlocated : List.Forall₂ IsLocated gs fs)
    (hfs : ∀ f ∈ fs, f.DeclaredAsType) {o : DeclarationOptions} {struct : Text}
    {n : UnnamedMembers} {ms : List Member} {blocks : List BitFieldBlock}
    (h : declareFields o struct n gs = .ok (ms, blocks)) :
    (∀ f ∈ fs, f.Flat) ∧ Member.typesFor? gs ms = some (cTypes fs) := by
  induction hlocated generalizing n ms blocks with
  | nil =>
    rw [declareFields, Except.ok.injEq] at h
    obtain ⟨rfl, rfl⟩ := Prod.mk.inj h
    refine ⟨?_, rfl⟩
    intro f hf
    cases hf
  | @cons g f gs fs hg _ ih =>
    obtain ⟨hf, hfs⟩ := List.forall_mem_cons.1 hfs
    simp only [declareFields, bind_eq_ok_iff, Prod.exists, pure_eq_ok_iff] at h
    obtain ⟨doc, -, members, block, hmember, more, moreBlocks, hmore, hr⟩ := h
    obtain ⟨rfl, rfl⟩ := Prod.mk.inj hr
    obtain ⟨hflat, m, rfl, hdoc, htype⟩ := hf o struct n g members block hg hmember
    obtain ⟨hsflat, htypes⟩ := ih hfs hmore
    refine ⟨List.forall_mem_cons.2 ⟨hflat, hsflat⟩, ?_⟩
    rw [List.append_assoc, Member.typesFor?_doc, List.singleton_append, Member.typesFor?, hdoc,
      htypes, htype]
    rfl

theorem isLocated_locatedFields (path : Path) (index : Nat) (start : Int) (fs : List Field) :
    List.Forall₂ IsLocated (locatedFields path index start fs) fs :=
  forall₂_locatedFields fun _ _ index start => ⟨path, index, start, rfl⟩

theorem isLocated_locatedMembers (path : Path) (index : Nat) (start : Int) (fs : List Field) :
    List.Forall₂ IsLocated (locatedMembers path index start fs) fs :=
  forall₂_locatedMembers fun _ _ index => ⟨path, index, start, rfl⟩

theorem flat_leaf {f : Field} (hleaf : f.nodes = [f]) (hstruct : ∀ h fields, f ≠ struct h fields) :
    f.Flat := by
  intro g hg
  rw [hleaf, List.mem_singleton] at hg
  exact hg ▸ hstruct

theorem declaredAsType {f : Field} (hf : f.SizesWhole) (htypedef : f.NoTypedef) :
    f.DeclaredAsType := by
  induction f using inductionOn with
  | word w =>
    rintro o name n _ ms blocks ⟨path, index, start, rfl⟩ h
    obtain ⟨bits, hbits⟩ := hf.own
    have hplain : filled? w.typedef = none :=
      Option.isNone_iff_eq_none.1 (htypedef _ (mem_nodes_self (word w)))
    refine ⟨flat_leaf rfl (by simp), ?_⟩
    simp only [located, declareField, declareWord, hplain, bind_eq_ok_iff, pure_eq_ok_iff] at h
    obtain ⟨m, ⟨v, hv, type, rfl, label, -, rfl⟩, hr⟩ := h
    obtain ⟨rfl, rfl⟩ := Prod.mk.inj hr
    obtain rfl := writable_eq_ok hv
    exact ⟨_, rfl, rfl, by simp [Member.typeFor?, hbits, cType]⟩
  | bitfield b =>
    rintro o name n _ ms blocks ⟨path, index, start, rfl⟩ h
    obtain ⟨⟨bits, hbits⟩, -⟩ := hf.own
    refine ⟨flat_leaf rfl (by simp), ?_⟩
    simp only [located, declareField, bind_eq_ok_iff, pure_eq_ok_iff] at h
    obtain ⟨label, -, block, -, v, hv, hr⟩ := h
    obtain ⟨rfl, rfl⟩ := Prod.mk.inj hr
    obtain rfl := writable_eq_ok hv
    exact ⟨_, rfl, rfl, by simp [Member.typeFor?, BitField.located, hbits, cType]⟩
  | blob b =>
    rintro o name n _ ms blocks ⟨path, index, start, rfl⟩ h
    obtain ⟨bytes, hbytes⟩ := hf.own
    refine ⟨flat_leaf rfl (by simp), ?_⟩
    simp only [located, declareField, declareBlob, bind_eq_ok_iff, pure_eq_ok_iff] at h
    obtain ⟨m, hm, hr⟩ := h
    obtain ⟨rfl, rfl⟩ := Prod.mk.inj hr
    refine ⟨m, rfl, ?_⟩
    split at hm
    · obtain rfl := pure_eq_ok_iff.1 hm
      exact ⟨rfl, by simp [Member.typeFor?, located, hbytes, cType]⟩
    · exact absurd hm throw_ne_ok
    · obtain ⟨v, hv, hm⟩ := bind_eq_ok_iff.1 hm
      obtain rfl := pure_eq_ok_iff.1 hm
      obtain rfl := writable_eq_ok hv
      exact ⟨rfl, by simp [Member.typeFor?, hbytes, cType]⟩
  | struct h fields =>
    rintro o name n _ ms blocks ⟨path, index, start, rfl⟩ h
    cases h
  | union h members ih =>
    rintro o name n _ ms blocks ⟨path, index, start, rfl⟩ h
    simp only [located, declareField, bind_eq_ok_iff, Prod.exists, pure_eq_ok_iff] at h
    obtain ⟨inner, more, hinner, label, -, hr⟩ := h
    obtain ⟨rfl, rfl⟩ := Prod.mk.inj hr
    obtain ⟨hflat, htypes⟩ := typesFor?_declareFields (isLocated_locatedMembers _ 0 start members)
      (fun f hm => ih f hm (hf.child hm) (htypedef.child hm)) hinner
    refine ⟨forall_mem_nodes.2 ⟨by simp, fun c hc => hflat c hc⟩, _, rfl, rfl, ?_⟩
    rw [located, Member.typeFor?, children, htypes]
    rfl
  | stray i =>
    rintro o name n _ ms blocks ⟨path, index, start, rfl⟩ h
    cases h

/-! ## The whole struct -/

theorem byteOffset_locatedFields (path : Path) (index : Nat) (start : Int) (fs : List Field) :
    (locatedFields path index start fs).map (·.header.position.byteOffset)
      = (offsetsFrom start fs).map fun n => some (.int n) := by
  induction fs generalizing index start with
  | nil => rfl
  | cons f fs ih =>
    rw [locatedFields, List.map_cons, ih, header_located, offsetsFrom, List.map_cons]
    rfl

theorem typesFor?_declarations {h : Header} {fields : List Field} {o : DeclarationOptions}
    {d : Declarations} (hsizes : (struct h fields).SizesWhole)
    (htypedef : (struct h fields).NoTypedef)
    (hd : ((struct h fields).located [] 0 0).declarations o = .ok d) :
    (∀ f ∈ fields, f.Flat) ∧
      Member.typesFor? ((struct h fields).located [] 0 0).children d.members
        = some (cTypes fields) := by
  simp only [located, declarations] at hd
  split at hd
  · replace hd := (refuse_eq_ok_iff.1 hd).2
    simp only [bind_eq_ok_iff, Prod.exists, pure_eq_ok_iff] at hd
    obtain ⟨name, -, members, blocks, hmembers, rfl⟩ := hd
    exact typesFor?_declareFields (isLocated_locatedFields _ 0 0 fields)
      (fun f hm => declaredAsType (hsizes.child hm) (htypedef.child hm)) hmembers
  · exact absurd hd throw_ne_ok

/-- Fields whose sizes are multiples of their alignments: it is enough to look at the unions. -/
theorem forall_union_align_dvd_iff {fields : List Field} (hwhole : ∀ f ∈ fields, f.SizesWhole) :
    (∀ h ms, union h ms ∈ fields → (union h ms).cType.align ∣ (union h ms).byteCount) ↔
      ∀ f ∈ fields, f.cType.align ∣ f.byteCount := by
  refine ⟨fun hall f hm => ?_, fun hall h ms hm => hall _ hm⟩
  by_cases hunion : ∃ h ms, f = union h ms
  · obtain ⟨h, ms, rfl⟩ := hunion
    exact hall h ms hm
  · push Not at hunion
    exact align_dvd_byteCount (hwhole f hm) hunion

theorem map_byteOffset_eq_iff {offsets : List Int} {spans : List CType.Span} :
    (offsets.map fun n => some (Value.int n)) = spans.map (fun s => some (.int s.start)) ↔
      spans.map CType.Span.start = offsets := by
  have hinjective : Function.Injective fun n : Int => some (Value.int n) := by
    intro m n hmn
    simpa using hmn
  have hstarts : spans.map (fun s => some (Value.int s.start))
      = (spans.map CType.Span.start).map fun n => some (Value.int n) := by
    rw [List.map_map]
    rfl
  rw [hstarts, (List.map_injective_iff.2 hinjective).eq_iff, eq_comm]

/-- **A compiler puts the members of the declared struct at the offsets of the fields, with nothing
free in between, exactly if all bit fields stand at multiples of their sizes and every union but
a last one has a size that is a multiple of its alignment.** -/
theorem declared_laidOutNaturally_iff {h : Header} {fields : List Field} {root : Field}
    {o : DeclarationOptions} {d : Declarations} (hsizes : (struct h fields).SizesWhole)
    (htypedef : (struct h fields).NoTypedef) (hroot : (struct h fields).resolve = .ok root)
    (hd : root.declarations o = .ok d) :
    ∃ types, Member.typesFor? root.children d.members = some types ∧
      ((root.children.map (·.header.position.byteOffset)
            = (CType.spans 0 types).map (fun s => some (.int s.start)) ∧
          CType.Gapless (CType.spans 0 types)) ↔
        (∀ s ∈ (struct h fields).spots, s.BitFieldAligned) ∧
          ∀ h' ms, union h' ms ∈ fields.dropLast →
            (union h' ms).cType.align ∣ (union h' ms).byteCount) := by
  obtain ⟨hspots, -, rfl⟩ := (resolve_eq_ok_iff hsizes).1 hroot
  obtain ⟨hflat, htypes⟩ := typesFor?_declarations hsizes htypedef hd
  have hfieldSpots : ∀ s ∈ fieldSpots 0 fields, s.Allowed := (List.forall_mem_cons.1 hspots).2
  have hwhole : ∀ f ∈ fields, f.SizesWhole := fun f hm => hsizes.child hm
  have hoffsets : ((struct h fields).located [] 0 0).children.map (·.header.position.byteOffset)
      = (offsetsFrom 0 fields).map fun n => some (.int n) := byteOffset_locatedFields _ 0 0 fields
  have hstruct : Spot.BitFieldAligned ⟨.root, 0, struct h fields⟩ := fun _ => nofun
  refine ⟨cTypes fields, htypes, ?_⟩
  rw [hoffsets, map_byteOffset_eq_iff, spots, List.forall_mem_cons, and_iff_right hstruct,
    forall_union_align_dvd_iff fun f hm => hwhole f (List.dropLast_subset fields hm)]
  exact laidOutNaturally_iff hfieldSpots hwhole hflat

def packedHeader : Header := { name := some (.str "r") }

/-- Fields that a compiler lays out as they are placed. -/
def packedFields : List Field :=
  [bitfield { bits := 16, items := [{ bits := 16 }] },
    union { name := some (.str "u") }
      [word { header := { name := some (.str "a") }, bits := 16 },
        blob { bytes := 2, decl := some (.str "T t;") }],
    word { header := { name := some (.str "c") }, bits := 32 }]

def packedRoot : Field := struct packedHeader packedFields

theorem declared_laidOutNaturally_iff_packedRoot :
    packedRoot.SizesWhole ∧ packedRoot.NoTypedef ∧
      packedRoot.resolve = .ok (packedRoot.located [] 0 0) ∧
      ∃ d types, (packedRoot.located [] 0 0).declarations {} = .ok d ∧
        Member.typesFor? (packedRoot.located [] 0 0).children d.members = some types ∧
        CType.Gapless (CType.spans 0 types) := by
  obtain ⟨d, hd⟩ : ∃ d, (packedRoot.located [] 0 0).declarations {} = .ok d :=
    exists_of_isOk (by decide +kernel)
  obtain ⟨types, htypes, hlaidOut⟩ := @declared_laidOutNaturally_iff packedHeader packedFields _ _ d
    (by decide) (by decide) rfl hd
  refine ⟨by decide, by decide, rfl, d, types, hd, htypes, (hlaidOut.2 ⟨?_, ?_⟩).2⟩
  · simp [packedFields, spots, spotsBelow, fieldSpots, memberSpots, Spot.BitFieldAligned]
  · intro h ms hm
    simp only [packedFields, List.dropLast, List.mem_cons, List.not_mem_nil, or_false,
      reduceCtorEq, false_or] at hm
    rw [hm]
    decide

/-- A bit field of two bytes behind a single byte. -/
def shiftedRoot : Field :=
  struct { name := some (.str "r") }
    [word { header := { name := some (.str "a") }, bits := 8 },
      bitfield { bits := 16, items := [{ bits := 16 }] }]

/-- A compiler leaves a byte free before a bit field that is not aligned. -/
theorem declared_shiftedRoot :
    shiftedRoot.SizesWhole ∧ shiftedRoot.NoTypedef ∧
      shiftedRoot.resolve = .ok (shiftedRoot.located [] 0 0) ∧
      ∃ d types, (shiftedRoot.located [] 0 0).declarations {} = .ok d ∧
        Member.typesFor? (shiftedRoot.located [] 0 0).children d.members = some types ∧
        (shiftedRoot.located [] 0 0).children.map (·.header.position.byteOffset)
          = [some 0, some 1] ∧
        (CType.spans 0 types).map CType.Span.start = [0, 2] := by
  obtain ⟨d, hd⟩ : ∃ d, (shiftedRoot.located [] 0 0).declarations {} = .ok d :=
    exists_of_isOk (by decide +kernel)
  obtain ⟨-, htypes⟩ := typesFor?_declarations (by decide) (by decide) hd
  exact ⟨by decide, by decide, rfl, d, _, hd, htypes, rfl, by decide⟩

end Field

end RegisterLayout
