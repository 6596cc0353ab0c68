import RegisterLayout.Proofs.Declared

/-!
# Where declarations fail

What can go wrong with the declarations of a tree goes wrong at one of its nodes, whatever surrounds
it: neither the struct around a node nor the numbers of the unnamed members before it make a
difference.  The members are declared in the order of their nodes, so that the first node with a
fault is the one that a failure is about.

Principal definition: `Field.fault?`.
Principal results: `Field.failure?_declareFields`, `Field.failure?_declarations`.
-/

namespace RegisterLayout

/-! ## Values that cannot be written -/

theorem failure?_writable (v : Value) :
    failure? v.writable = if v.isWritable then none else some .longNumber := by
  unfold Value.writable
  split <;> rfl

theorem failure?_written (v : Value) : failure? v.written = failure? v.writable := by
  unfold Value.written
  cases v.writable <;> rfl

theorem failure?_written_eq_none_iff {v : Value} :
    failure? v.written = none ↔ v.isWritable = true := by
  rw [failure?_written, failure?_writable]
  cases v.isWritable <;> simp

/-- A description that becomes a comment and cannot be written. -/
def Header.Unprintable (o : DeclarationOptions) (h : Header) : Prop :=
  o.docComments = true ∧ ∃ desc, filled? h.desc = some desc ∧ desc.isWritable = false

theorem failure?_docOf_eq_none_iff {o : DeclarationOptions} {h : Header} :
    failure? (docOf o h) = none ↔ ¬h.Unprintable o := by
  unfold docOf Header.Unprintable
  by_cases hcomments : o.docComments = true
  · rw [if_pos hcomments]
    cases hdesc : filled? h.desc with
    | none => exact iff_of_true rfl (by simp)
    | some desc =>
      have hwritten := @failure?_written_eq_none_iff desc
      rw [Option.mapM_some, map_eq_pure_bind, failure?_bind_pure, hwritten]
      simp [hcomments]
  · rw [if_neg hcomments]
    simp [hcomments]

/-! ## What is around a node makes no difference -/

section

variable {o : DeclarationOptions}

theorem failure?_memberName (h : Header) (unnamed unnamed' : Text) :
    failure? (memberName h unnamed) = failure? (memberName h unnamed') := by
  unfold memberName
  cases h.givenName? <;> rfl

/-- What is wrong with the declaration of a word. -/
def Word.fault? (w : Word) : Option Failure :=
  (match filled? w.typedef with
    | some name => failure? name.written
    | none => failure? w.bits.writable).or (failure? (memberName w.header []))

/-- What is wrong with the declaration of a blob. -/
def Blob.fault? (b : Blob) : Option Failure :=
  match filled? b.decl with
  | some (.str _) => none
  | some _ => some .wrongType
  | none => failure? b.bytes.writable

theorem failure?_declareWord (n : UnnamedMembers) (w : Word) :
    failure? (declareWord n w) = w.fault? := by
  have hmember : ∀ type : WordType,
      failure? (memberName w.header (numberedName "unused_" n.plain) >>= fun name =>
          pure (Member.word type name))
        = failure? (memberName w.header []) := by
    intro type
    rw [failure?_bind_pure]
    exact failure?_memberName w.header _ _
  unfold declareWord Word.fault?
  cases filled? w.typedef with
  | none => exact failure?_bind fun _ _ => hmember _
  | some given => exact failure?_bind fun _ _ => hmember _

theorem failure?_declareBlob (n : UnnamedMembers) (b : Blob) :
    failure? (declareBlob n b) = b.fault? := by
  unfold declareBlob Blob.fault?
  cases filled? b.decl with
  | none => exact failure?_bind_pure _ _
  | some decl => cases decl <;> rfl

theorem failure?_accessorsOf (i : Item) (target : Target) :
    failure? (accessorsOf o i target) = failure? (docOf o i.header) :=
  failure?_bind_pure (docOf o i.header) _

/-- An item fails for something else first, and otherwise for its description. -/
theorem failure?_declareItem (struct member : Text) (i : Item) :
    failure? (declareItem o struct member i)
      = (failure? (declareItem {} [] [] i)).or (failure? (docOf o i.header)) := by
  unfold declareItem
  refine failure?_bind_or fun enum => ?_
  cases i.header.position.fullName with
  | none => rfl
  | some fullName =>
    refine failure?_bind_or fun bits => failure?_bind_or fun type => ?_
    refine failure?_bind_or fun bounds => ?_
    rw [failure?_bind_pure, failure?_bind_pure, failure?_accessorsOf, failure?_accessorsOf]
    rfl

theorem failure?_declareItem_congr (struct struct' member member' : Text) (i : Item) :
    failure? (declareItem o struct member i) = failure? (declareItem o struct' member' i) := by
  rw [failure?_declareItem, failure?_declareItem struct' member']

end

/-! ## Faults of nodes -/

/-- What is wrong with the struct of its own that a named bit field has. -/
def BitField.backingFault? (b : BitField) : Option Failure :=
  b.header.givenName?.bind fun name => (failure? name.written).or (failure? b.bits.writable)

/-- What is wrong with the declarations for an item, wherever it is. -/
def Item.fault? (o : DeclarationOptions) (i : Item) : Option Failure :=
  failure? (declareItem o [] [] i)

/-- What is wrong with the declarations for a node itself, wherever it is. -/
def Field.ownFault? (o : DeclarationOptions) : Field → Option Failure
  | word w => w.fault?
  | blob b => b.fault?
  | bitfield b =>
    (failure? (memberName b.header [])).or
      ((b.backingFault?.or (b.namedItems.findSome? (Item.fault? o))).or (failure? b.bits.writable))
  | union _ _ => none
  | struct h _ => some (.ofNode h.position.fullName .structMember)
  | stray _ => some .strayItem

/-- What is wrong with the comment before a node, or with its declarations; what is below a union
is declared on its own. -/
def Field.fault? (o : DeclarationOptions) (f : Field) : Option Failure :=
  (failure? (docOf o f.header)).or (f.ownFault? o)

/-- The headers whose descriptions become comments in the declarations for a node. -/
def Field.printedHeaders : Field → List Header
  | bitfield b => b.header :: b.namedItems.map (·.header)
  | f => [f.header]

/-- A union has a name that can be written. -/
def Field.UnionWritten (f : Field) : Prop :=
  ∀ h members, f = union h members → failure? (h.name.mapM Value.written) = none

section

variable {o : DeclarationOptions} {struct : Text} {n : UnnamedMembers}

theorem failure?_declareBitField (member : Text) (b : BitField) :
    failure? (declareBitField o struct member b)
      = b.backingFault?.or (b.namedItems.findSome? (Item.fault? o)) := by
  have hitems : ∀ (struct member : Text) (finish : List ItemDeclarations → BitFieldBlock),
      failure? (b.namedItems.mapM (declareItem o struct member) >>= fun items =>
          pure (finish items))
        = b.namedItems.findSome? (Item.fault? o) := by
    intro struct member finish
    rw [failure?_bind_pure, failure?_mapM]
    simp only [failure?_declareItem_congr struct [] member []]
    rfl
  unfold declareBitField BitField.backingFault?
  cases b.header.givenName? with
  | none => exact hitems struct member _
  | some name =>
    rw [Option.bind_some, Option.or_assoc]
    refine failure?_bind fun s _ => failure?_bind fun bits _ => ?_
    exact hitems _ _ _

namespace Field

theorem findSome?_nodes (f : Field) :
    f.nodes.findSome? (fault? o) = (f.fault? o).or ((nodesOf f.children).findSome? (fault? o)) := by
  rw [nodes_eq, List.findSome?_cons]
  cases f.fault? o <;> rfl

/-- The declarations for a field fail at the first of its nodes that has a fault. -/
def FailsAtFault (o : DeclarationOptions) (f : Field) : Prop :=
  ∀ struct n, (failure? (docOf o f.header)).or (failure? (declareField o struct n f))
    = f.nodes.findSome? (fault? o)

theorem failure?_declareFields_of_forall {fs : List Field} (h : ∀ f ∈ fs, f.FailsAtFault o) :
    failure? (declareFields o struct n fs) = (nodesOf fs).findSome? (fault? o) := by
  induction fs generalizing n with
  | nil => rfl
  | cons f fs ih =>
    obtain ⟨hf, hfs⟩ := List.forall_mem_cons.1 h
    rw [nodesOf, List.findSome?_append, ← hf struct n, Option.or_assoc, declareFields]
    refine failure?_bind fun doc _ => failure?_bind fun first _ => ?_
    rw [← @ih (n.after f) hfs]
    exact failure?_bind_pure _ _

theorem failsAtFault {f : Field} (h : ∀ g ∈ f.nodes, g.UnionWritten) : f.FailsAtFault o := by
  induction f using inductionOn with
  | word w =>
    intro struct n
    rw [findSome?_nodes, declareField, failure?_bind_pure, failure?_declareWord]
    exact (Option.or_none ..).symm
  | blob b =>
    intro struct n
    rw [findSome?_nodes, declareField, failure?_bind_pure, failure?_declareBlob]
    exact (Option.or_none ..).symm
  | bitfield b =>
    intro struct n
    rw [findSome?_nodes, declareField]
    refine Eq.trans (congrArg _ ?_) (Option.or_none ..).symm
    rw [ownFault?, failure?_memberName b.header [] (numberedName "bitfield_" n.bitFields)]
    refine failure?_bind fun name _ => ?_
    rw [← @failure?_declareBitField o struct name b]
    exact failure?_bind fun block _ => failure?_bind_pure _ _
  | union header members ih =>
    intro struct n
    obtain ⟨hown, hbelow⟩ := forall_mem_nodes.1 h
    have hmembers : ∀ f ∈ members, f.FailsAtFault o := fun f hf => ih f hf (hbelow f hf)
    rw [findSome?_nodes, fault?, ownFault?, Option.or_none, declareField, children,
      ← @failure?_declareFields_of_forall o struct {} _ hmembers]
    congr 1
    refine (failure?_bind fun r _ => ?_).trans (Option.or_none ..)
    rw [failure?_bind_pure, hown header members rfl]
  | struct header fields ih =>
    intro struct n
    rw [findSome?_nodes, declareField, fault?]
    cases failure? (docOf o (Field.struct header fields).header) <;> rfl
  | stray i =>
    intro struct n
    rw [findSome?_nodes, declareField, fault?]
    cases failure? (docOf o (stray i).header) <;> rfl

theorem failure?_declareFields {fs : List Field} (h : ∀ g ∈ nodesOf fs, g.UnionWritten) :
    failure? (declareFields o struct n fs) = (nodesOf fs).findSome? (fault? o) :=
  failure?_declareFields_of_forall fun f hf =>
    failsAtFault fun g hg => h g (mem_nodesOf.2 ⟨f, hf, hg⟩)

/-- **Comments add nothing that can go wrong but descriptions that cannot be written.** -/
theorem fault?_eq_none_iff_printed {f : Field} :
    f.fault? o = none ↔ f.fault? {} = none ∧ ∀ h ∈ f.printedHeaders, ¬h.Unprintable o := by
  have hplain : ∀ h : Header, failure? (docOf {} h) = none := fun _ => rfl
  have hitem : ∀ i : Item, i.fault? o = none ↔ i.fault? {} = none ∧ ¬i.header.Unprintable o := by
    intro i
    rw [Item.fault?, failure?_declareItem, Option.or_eq_none_iff, failure?_docOf_eq_none_iff]
    rfl
  rw [fault?, fault?, hplain, Option.none_or, Option.or_eq_none_iff, failure?_docOf_eq_none_iff]
  cases f with
  | bitfield b =>
    have hitems : b.namedItems.findSome? (Item.fault? o) = none ↔
        b.namedItems.findSome? (Item.fault? {}) = none ∧
          ∀ i ∈ b.namedItems, ¬i.header.Unprintable o := by
      simp only [List.findSome?_eq_none_iff, hitem, imp_and, forall_and]
    rw [printedHeaders, List.forall_mem_cons, List.forall_mem_map]
    simp only [ownFault?, header, Option.or_eq_none_iff, hitems]
    tauto
  | _ =>
    rw [printedHeaders, List.forall_mem_singleton]
    · exact and_comm
    · simp

/-- The name of a placed union is a text. -/
theorem PlacedUnder.unionWritten {f : Field} {path : Path} {index : Nat}
    (h : f.PlacedUnder path index) : f.UnionWritten := by
  rintro header members rfl
  obtain ⟨hname, -, hunion, -⟩ := h
  obtain ⟨given, hgiven⟩ := Option.isSome_iff_exists.1 (hunion header members rfl).1
  obtain ⟨s, rfl, -⟩ := hname.allowed.name given hgiven
  rw [(Option.filter_eq_some_iff.1 hgiven).1]
  rfl

variable {raw : Field} {header : Header} {fields : List Field}

/-- **The declarations for an accepted tree fail at the first node below its root that has a
fault**, whatever the widths are. -/
theorem failure?_declarations (hroot : raw.resolve = .ok (.struct header fields))
    (hnamed : header.IsNamed) :
    failure? ((Field.struct header fields).declarations o)
      = (nodesOf fields).findSome? (fault? o) := by
  obtain ⟨hplaced, -⟩ := resolve_eq_ok hroot
  have hnodes := hplaced.node_of_mem
  obtain ⟨hname, -, -, -⟩ := hplaced
  obtain ⟨given, hgiven⟩ := Option.isSome_iff_exists.1 hnamed
  obtain ⟨s, rfl, -⟩ := hname.allowed.name given hgiven
  have hisPlaced : (Field.struct header fields).isPlaced = true := by
    rw [isPlaced, hname.fullName]
    rfl
  have hunions : ∀ g ∈ nodesOf fields, g.UnionWritten := by
    intro g hg
    obtain ⟨path, index, hg'⟩ := hnodes g (mem_nodes_of_below hg)
    exact hg'.unionWritten
  rw [declarations]
  simp only [hgiven, hisPlaced, Bool.not_true, Bool.false_eq_true, if_false]
  rw [← @failure?_declareFields o s {} _ hunions]
  exact failure?_bind_pure _ _

end Field

end

end RegisterLayout
