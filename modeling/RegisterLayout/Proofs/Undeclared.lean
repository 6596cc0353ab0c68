import RegisterLayout.Proofs.DeclarationFailures
import RegisterLayout.Proofs.DeclarationFaults
import RegisterLayout.Proofs.ModelRuns
import RegisterLayout.Proofs.ShownBits

/-!
# Trees without declarations

An accepted tree of whole widths has no declarations if a union of it, however deep, has a struct as
a member, and then the first such struct is the one that is refused.  The widths, the bits and the
names of its items are never in the way, since they were checked when the tree was placed.

What is in the way otherwise is a value that cannot be printed: a number of more digits than are
written, as the count of bytes of a blob can be, or the declaration of a blob that is no text.

Principal definitions: `Field.NestsStruct`, `Field.Unprintable`, `Field.DeclaredUnlessNested`.
Principal result: `Field.declaredUnlessNested_of_resolve`.
-/

namespace RegisterLayout

/-! ## What cannot be printed -/

/-- The declarations for a node itself show a value that cannot be printed. -/
def Field.OwnUnprintable (o : DeclarationOptions) : Field → Prop
  | word w => ∃ name, filled? w.typedef = some name ∧ name.isWritable = false
  | blob b =>
    match filled? b.decl with
    | some decl => ¬decl.IsText
    | none => b.bytes.isWritable = false
  | bitfield b => ∃ i ∈ b.namedItems, i.header.Unprintable o
  | _ => False

/-- A node that shows a value that cannot be printed, before its declarations or in them. -/
def Field.Unprintable (o : DeclarationOptions) (f : Field) : Prop :=
  f.header.Unprintable o ∨ f.OwnUnprintable o

/-- A struct is a member of a union. -/
def Field.NestsStruct (f : Field) : Prop :=
  ∃ h members, union h members ∈ f.nodes ∧ ∃ h' fields, struct h' fields ∈ members

theorem failure?_writable_wordWidth {n : Int} (hn : n ∈ wordWidths) :
    failure? (Value.int n).writable = none := by
  rw [failure?_writable, if_pos (isWritable_wordWidth hn)]

/-- The given name of a placed node is a text. -/
theorem Header.NamedUnder.failure?_memberName {h : Header} {path : Path} {index : Nat}
    (hname : h.NamedUnder path index) (unnamed : Text) :
    failure? (memberName h unnamed) = none := by
  unfold memberName
  cases hgiven : h.givenName? with
  | none => rfl
  | some given =>
    obtain ⟨s, rfl, -⟩ := hname.allowed.name given hgiven
    rfl

/-! ## What is checked when a tree is placed -/

/-- An item that was checked and has its bits. -/
structure Item.Checked (i : Item) : Prop where
  width : ∃ n, i.bits = .int n ∧ 1 ≤ n ∧ n ≤ 64
  values : ∀ e ∈ i.enumeration.getD [], e.2.isWritable = true

/-- A node that was checked. -/
structure Field.Checked (f : Field) : Prop where
  word : ∀ w, f = word w → ∃ n ∈ wordWidths, w.bits = .int n
  bitfield : ∀ b, f = bitfield b →
    (∃ n ∈ wordWidths, b.bits = .int n) ∧ ∀ i ∈ b.items, i.Checked
  noItem : ∀ i, f ≠ stray i
  fields : ∀ h fields, f = struct h fields → ∀ c ∈ fields, ∀ h' inner, c ≠ struct h' inner

/-- An enumeration whose keys and values can be written can be declared. -/
theorem failure?_declareEnum {fullName : Text} {entries : Enumeration}
    (h : ∀ e ∈ entries, e.1.isWritable = true ∧ e.2.isWritable = true) :
    failure? (declareEnum fullName entries) = none := by
  rw [declareEnum, failure?_bind_pure, failure?_mapM, List.findSome?_eq_none_iff]
  rintro ⟨key, value⟩ he
  obtain ⟨hkey, hvalue⟩ := h _ he
  obtain ⟨name, hname⟩ := failure?_eq_none_iff.1 (failure?_written_eq_none_iff.2 hkey)
  dsimp only
  rw [hname, ok_bind, failure?_bind_pure, failure?_writable, if_pos hvalue]

/-- A number between bounds of few digits can be written. -/
theorem isWritable_of_between {v : Value} {n : Int} (hn : n ≤ 64)
    (h : v.Between 0 (2 ^ n.toNat - 1)) : v.isWritable = true := by
  obtain ⟨number, hnumber, hlow, hhigh⟩ := h
  cases v with
  | num m =>
    obtain rfl := Option.some.inj hnumber
    cases m with
    | int m =>
      have hpow : (2 : Int) ^ n.toNat ≤ 2 ^ 64 := pow_le_pow_right₀ (by decide) (by omega)
      have hone : (0 : Int) < 2 ^ n.toNat := pow_pos (by decide) _
      have hbetween : (Value.int m).Between 0 (2 ^ n.toNat - 1) := ⟨_, rfl, hlow, hhigh⟩
      rw [Value.between_int] at hbetween
      rw [Value.isWritable_num]
      exact isWritable_of_natAbs_le (by omega)
    | real x => rfl
  | bool b => rfl
  | _ => cases hnumber

namespace Field

theorem Placeable.checked {f : Field} {start : Int} (h : f.Placeable start) (hf : f.SizesWhole)
    (path : Path) (index : Nat) : (f.located path index start).Checked := by
  cases f with
  | word w =>
    obtain ⟨n, hn⟩ := hf.own
    have hw : w.Admissible start := h.kind
    have hwidth : n ∈ wordWidths := by simpa [hn] using hw.width
    rw [located]
    refine ⟨?_, by simp, by simp, by simp⟩
    intro w' hw'
    obtain rfl := word.inj hw'
    exact ⟨n, hwidth, hn⟩
  | bitfield b =>
    obtain ⟨⟨n, hn⟩, hitems⟩ := hf.own
    have hb : b.Admissible := h.kind
    have hwidth : n ∈ wordWidths := by simpa [hn] using hb.width
    rw [located]
    refine ⟨by simp, ?_, by simp, by simp⟩
    intro b' hb'
    obtain rfl := bitfield.inj hb'
    refine ⟨⟨n, hwidth, hn⟩, fun p hp => ?_⟩
    obtain ⟨i, hi, _, _, rfl⟩ := exists_of_mem_locatedItems hp
    obtain ⟨m, hm⟩ := hitems i hi
    have hadmissible := hb.items i hi
    have hpos := hadmissible.width
    have hle := BitField.le_itemBits hb.items hi
    rw [hb.filled, hn, Value.whole_int] at hle
    have hsmall := (mem_wordWidths_bounds hwidth).2
    have hwhole : i.bits.whole = m := by rw [hm, Value.whole_int]
    refine ⟨⟨m, hm, by omega, by omega⟩, fun e he => ?_⟩
    cases hentries : i.enumeration with
    | none =>
      simp only [Item.namedAt, hentries, Option.getD_none] at he
      cases he
    | some entries =>
      simp only [Item.namedAt, hentries, Option.getD_some] at he
      exact isWritable_of_between (by omega) (hadmissible.enumeration entries hentries e he)
  | struct header fields =>
    rw [located]
    refine ⟨by simp, by simp, by simp, ?_⟩
    rintro h' inner hinner c hc header' fields' rfl
    obtain ⟨-, rfl⟩ := struct.inj hinner
    obtain ⟨k, hk⟩ := List.mem_iff_getElem?.1 hc
    obtain ⟨g, hg, hlocated⟩ := Option.map_eq_some_iff.1 (getElem?_locatedFields fields k ▸ hk)
    have hadmits : Surrounding.struct.Admits _ g := (of_mem_fieldSpots h.below hg).1.surrounding
    cases g with
    | struct => exact hadmits.1 _ _ rfl
    | _ => cases hlocated
  | stray i => exact h.kind.elim
  | _ =>
    rw [located]
    exact ⟨by simp, by simp, by simp, by simp⟩

section

variable {raw root : Field}

theorem checked_of_resolve (hwhole : raw.SizesWhole) (h : raw.resolve = .ok root) :
    ∀ g ∈ root.nodes, g.Checked :=
  forall_mem_nodes_of_resolve (fun _ path index _ h hf => h.checked hf path index) hwhole h

/-- The keys of an accepted tree were written when its names were compared. -/
theorem keysWritable_of_resolve (h : raw.resolve = .ok root) : root.KeysWritable := by
  obtain ⟨-, hnames⟩ := resolve_eq_ok h
  rw [checkUniqueNames_eq] at hnames
  obtain ⟨hwritable, -⟩ := checkIntroduced_eq_ok_iff.1 hnames
  intro s hs key hkey
  refine hwritable (.constant s.header.position.fullName key) ?_
  rw [introduced_eq_flatMap]
  exact List.mem_flatMap.2 ⟨s, hs, List.mem_cons_of_mem _ (List.mem_map_of_mem hkey)⟩

/-- **The items of an accepted tree of whole widths can be declared.** -/
theorem item_declarable_of_resolve (hwhole : raw.SizesWhole) (h : raw.resolve = .ok root)
    {b : BitField} (hb : b ∈ root.bitFields) {i : Item} (hi : i ∈ b.items) :
    (∃ n width, i.bits = .int n ∧ wordTypeBits (.int n) = .ok width) ∧
      (∃ bounds, i.bounds = .ok bounds) ∧
      ∀ o, i.fault? o = failure? (docOf o i.header) := by
  have hmem := mem_bitFields.1 hb
  obtain ⟨⟨n, hbits, hpos, hle⟩, hvalues⟩ :=
    ((checked_of_resolve hwhole h _ hmem).bitfield b rfl).2 i hi
  obtain ⟨_, _, hplaced⟩ := (resolve_eq_ok h).1.node_of_mem _ hmem
  obtain ⟨_, _, hitem⟩ := hplaced.item hi
  obtain ⟨width, hwidth⟩ := wordTypeBits_of_bounds ⟨hpos, hle⟩
  obtain ⟨bounds, hbounds⟩ := exists_bounds hitem.bitIndices_ne_nil
  refine ⟨⟨n, width, hbits, hwidth⟩, ⟨bounds, hbounds⟩, fun o => ?_⟩
  have hsource : i.source ∈ root.sources :=
    List.mem_flatMap.2 ⟨_, hmem, List.mem_cons_of_mem _ (List.mem_map_of_mem hi)⟩
  have hkeys := keysWritable_of_resolve h _ hsource
  have henum : ∀ fullName,
      failure? ((entries? i.enumeration).mapM (declareEnum fullName)) = none := by
    intro fullName
    cases hentries : entries? i.enumeration with
    | none => rfl
    | some entries =>
      have hgiven := (Option.filter_eq_some_iff.1 hentries).1
      rw [hgiven, Option.getD_some] at hvalues
      rw [Option.mapM_some, map_eq_pure_bind, failure?_bind_pure]
      refine failure?_declareEnum fun e he => ⟨hkeys e.1 ?_, hvalues e he⟩
      rw [Item.source, hgiven]
      exact List.mem_map_of_mem he
  have hplain : failure? (declareItem {} [] [] i) = none := by
    obtain ⟨enum, henum⟩ :=
      failure?_eq_none_iff.1 (henum (Cause.nameText i.header.position.fullName))
    rw [declareItem, henum, ok_bind]
    simp only [hitem.header.fullName, hbits, Value.number_num, ok_bind, hwidth, hbounds]
    exact failure?_bind_pure _ _
  rw [Item.fault?, failure?_declareItem, hplain, Option.none_or]

/-! ## Faults of accepted trees -/

variable {o : DeclarationOptions}

/-- A node of an accepted tree that is no struct is at fault exactly if it shows what cannot be
printed. -/
theorem fault?_eq_none_iff (hwhole : raw.SizesWhole) (h : raw.resolve = .ok root) {g : Field}
    (hg : g ∈ root.nodes) (hstruct : ∀ h fields, g ≠ struct h fields) :
    g.fault? o = none ↔ ¬g.Unprintable o := by
  have hchecked := checked_of_resolve hwhole h g hg
  obtain ⟨path, index, hplaced⟩ := (resolve_eq_ok h).1.node_of_mem g hg
  obtain ⟨hname, -, -, -⟩ := hplaced
  rw [fault?, Option.or_eq_none_iff, failure?_docOf_eq_none_iff, Unprintable, not_or]
  refine and_congr_right fun _ => ?_
  cases g with
  | word w =>
    obtain ⟨n, hn, hbits⟩ := hchecked.word w rfl
    have hmember : failure? (memberName w.header []) = none := hname.failure?_memberName []
    rw [ownFault?, OwnUnprintable, Word.fault?, hmember, Option.or_none, hbits,
      failure?_writable_wordWidth hn]
    cases filled? w.typedef with
    | none => simp
    | some name => simp [failure?_written_eq_none_iff]
  | blob b =>
    rw [ownFault?, OwnUnprintable, Blob.fault?]
    cases filled? b.decl with
    | none => simp [failure?_writable]
    | some decl => cases decl <;> simp [Value.IsText]
  | bitfield b =>
    obtain ⟨⟨n, hn, hbits⟩, -⟩ := hchecked.bitfield b rfl
    have hmember : failure? (memberName b.header []) = none := hname.failure?_memberName []
    have hwidth := failure?_writable_wordWidth hn
    have hbacking : b.backingFault? = none := by
      rw [BitField.backingFault?, hbits, hwidth]
      cases hgiven : b.header.givenName? with
      | none => rfl
      | some given =>
        obtain ⟨s, rfl, -⟩ := hname.allowed.name given hgiven
        rfl
    rw [ownFault?, hmember, hbacking, hbits, hwidth, Option.none_or, Option.none_or,
      Option.or_none, OwnUnprintable, List.findSome?_eq_none_iff, not_exists]
    refine forall_congr' fun i => ?_
    rw [not_and]
    refine forall_congr' fun hi => ?_
    have hitem := (item_declarable_of_resolve hwhole h (mem_bitFields.2 hg)
      (List.mem_of_mem_filter hi)).2.2 o
    rw [hitem, failure?_docOf_eq_none_iff]
  | union header members => simp [ownFault?, OwnUnprintable]
  | struct header fields => exact absurd rfl (hstruct header fields)
  | stray i => exact absurd rfl (hchecked.noItem i)

/-- A struct that shows nothing which cannot be printed is refused. -/
theorem fault?_struct {h : Header} {fields : List Field} {path : Path} {index : Nat}
    (hplaced : (struct h fields).PlacedUnder path index)
    (hprinted : ¬(struct h fields).Unprintable o) :
    (struct h fields).fault? o
      = some (.layout ⟨.str (struct h fields).fullName, .structMember⟩) := by
  obtain ⟨hname, -, -, -⟩ := hplaced
  have hdoc : failure? (docOf o h) = none :=
    failure?_docOf_eq_none_iff.2 fun hdesc => hprinted (.inl hdesc)
  have hfullName : h.position.fullName = some (struct h fields).fullName := by
    rw [fullName, header, show h.position.fullName = _ from hname.fullName]
    rfl
  rw [fault?, header, hdoc, Option.none_or, ownFault?, hfullName]
  rfl

theorem fault?_struct_ne_none (h : Header) (fields : List Field) :
    (struct h fields).fault? o ≠ none := by
  rw [fault?, ownFault?, Ne, Option.or_eq_none_iff]
  simp

/-- What is below a node is a child of it or of a node below it. -/
theorem mem_nodesOf_children {f g : Field} :
    g ∈ nodesOf f.children ↔ ∃ p ∈ f.nodes, g ∈ p.children := by
  induction f using inductionOnChildren with
  | node f ih =>
    rw [exists_mem_nodes, mem_nodesOf]
    constructor
    · rintro ⟨c, hc, hg⟩
      rw [nodes_eq, List.mem_cons] at hg
      rcases hg with rfl | hg
      · exact .inl hc
      · exact .inr ⟨c, hc, (ih c hc).1 hg⟩
    · rintro (hg | ⟨c, hc, hp⟩)
      · exact ⟨g, hg, mem_nodes_self g⟩
      · rw [← ih c hc] at hp
        exact ⟨c, hc, mem_nodes_of_below hp⟩

/-- A struct below the root of an accepted tree is a member of a union. -/
theorem nestsStruct_iff (hwhole : raw.SizesWhole) (h : raw.resolve = .ok root) :
    root.NestsStruct ↔ ∃ g ∈ nodesOf root.children, ∃ h fields, g = struct h fields := by
  constructor
  · rintro ⟨h, members, hunion, h', fields, hstruct⟩
    exact ⟨_, mem_nodesOf_children.2 ⟨_, hunion, hstruct⟩, h', fields, rfl⟩
  · rintro ⟨_, hg, h', inner, rfl⟩
    obtain ⟨p, hp, hg⟩ := mem_nodesOf_children.1 hg
    cases p with
    | union header members => exact ⟨header, members, hp, h', inner, hg⟩
    | struct header fields =>
      have hchecked := checked_of_resolve hwhole h _ hp
      exact absurd rfl (hchecked.fields header fields rfl _ hg h' inner)
    | _ => cases hg

/-- Below the root of an accepted tree a node is at fault exactly if it is a struct or shows what
cannot be printed. -/
theorem exists_fault_iff (hwhole : raw.SizesWhole) (h : raw.resolve = .ok root) :
    (∃ g ∈ nodesOf root.children, g.fault? o ≠ none) ↔
      root.NestsStruct ∨ ∃ g ∈ nodesOf root.children, g.Unprintable o := by
  rw [nestsStruct_iff hwhole h, ← exists_or]
  refine exists_congr fun g => ?_
  rw [← and_or_left]
  refine and_congr_right fun hg => ?_
  by_cases hstruct : ∃ h fields, g = struct h fields
  · obtain ⟨h', inner, rfl⟩ := hstruct
    exact iff_of_true (fault?_struct_ne_none h' inner) (.inl ⟨h', inner, rfl⟩)
  · have hne : ∀ h fields, g ≠ struct h fields := fun h fields heq => hstruct ⟨h, fields, heq⟩
    rw [or_iff_right hstruct, Ne, fault?_eq_none_iff hwhole h (mem_nodes_of_below hg) hne, not_not]

/-- The first fault below the root of an accepted tree is its first struct, if all before it can be
printed. -/
theorem findSome?_fault_of_first (hwhole : raw.SizesWhole) (h : raw.resolve = .ok root)
    {before after inner : List Field} {h' : Header}
    (hsplit : nodesOf root.children = before ++ struct h' inner :: after)
    (hfirst : ∀ g ∈ before, ∀ h fields, g ≠ struct h fields)
    (hprinted : ∀ g ∈ before ++ [struct h' inner], ¬g.Unprintable o) :
    (nodesOf root.children).findSome? (fault? o)
      = some (.layout ⟨.str (struct h' inner).fullName, .structMember⟩) := by
  rw [List.forall_mem_append, List.forall_mem_singleton] at hprinted
  have hmem : ∀ g ∈ before ++ struct h' inner :: after, g ∈ root.nodes :=
    fun g hg => mem_nodes_of_below (hsplit ▸ hg)
  obtain ⟨path, index, hplaced⟩ := (resolve_eq_ok h).1.node_of_mem _
    (hmem _ (List.mem_append_right _ List.mem_cons_self))
  have hbefore : before.findSome? (fault? o) = none := by
    rw [List.findSome?_eq_none_iff]
    intro g hg
    exact (fault?_eq_none_iff hwhole h (hmem g (List.mem_append_left _ hg)) (hfirst g hg)).2
      (hprinted.1 g hg)
  rw [hsplit, List.findSome?_append, hbefore, Option.none_or, List.findSome?_cons,
    fault?_struct hplaced hprinted.2]

/-! ## When there are no declarations -/

/-- A tree whose declarations are refused for structs in its unions, and fail otherwise for what
cannot be printed. -/
structure DeclaredUnlessNested (root : Field) (o : DeclarationOptions) : Prop where
  fails : (∃ e, root.declarations o = .error e) ↔
    root.NestsStruct ∨ ∃ g ∈ nodesOf root.children, g.Unprintable o
  /-- The first struct in the order of the nodes is the one that is refused. -/
  first : ∀ before h inner after, nodesOf root.children = before ++ struct h inner :: after →
    (∀ g ∈ before, ∀ h fields, g ≠ struct h fields) →
    (∀ g ∈ before ++ [struct h inner], ¬g.Unprintable o) →
      root.declarations o = .error (.layout ⟨.str (struct h inner).fullName, .structMember⟩)
  /-- Every item has a type for its width and a highest and a lowest bit. -/
  items : ∀ b ∈ root.bitFields, ∀ i ∈ b.items,
    (∃ n width, i.bits = .int n ∧ wordTypeBits (.int n) = .ok width) ∧
      ∃ bounds, i.bounds = .ok bounds
  /-- A run that comes to the tree and wants its declarations has printed nothing of it. -/
  unprinted : ∀ (options : Options) (files : FileTree) (sink : Sink) (path : String)
    (rest : List String), options.declarations = true → options.declarationOptions = o →
      sourceText (sink.filesBefore files) path >>= placedTree = .ok root →
      (∃ e, root.declarations o = .error e) →
        (runModels options files sink (path :: rest)).sink = sink

/-- A view that fails leaves a model without output. -/
theorem fullOutput_eq_error {options : Options} {files : FileTree} {path : String}
    (htree : sourceText files path >>= placedTree = .ok root) {view : Except Failure Text}
    (hview : view ∈ options.views root) (hfails : ∃ e, view = .error e) :
    ∃ e, fullOutput options files path = .error e := by
  obtain ⟨e, rfl⟩ := hfails
  have hviews : failure? ((options.views root).mapM id) ≠ none := by
    rw [failure?_mapM, Ne, List.findSome?_eq_none_iff]
    exact fun hall => absurd (hall _ hview) (by simp)
  cases hmade : (options.views root).mapM id with
  | ok texts => exact absurd (by rw [hmade]; rfl) hviews
  | error e' =>
    refine ⟨e', ?_⟩
    have houtput : fullOutput options files path = (sourceText files path >>= placedTree) >>=
        fun root => (options.views root).mapM id >>= fun texts =>
          pure (Text.joined "\n" texts) := by
      rw [bind_assoc]
      rfl
    rw [houtput, htree, ok_bind, hmade, error_bind]

/-- A run that comes to a model without declarations prints nothing of it. -/
theorem runModels_of_error_declarations {options : Options} {files : FileTree} {sink : Sink}
    {path : String} (rest : List String) (hchosen : options.declarations = true)
    (htree : sourceText (sink.filesBefore files) path >>= placedTree = .ok root)
    (hfails : ∃ e, root.declarations options.declarationOptions = .error e) :
    (runModels options files sink (path :: rest)).sink = sink := by
  obtain ⟨e, he⟩ := hfails
  have hview : (root.declarations options.declarationOptions >>= fun d => pure d.text) ∈
      options.views root := by
    rw [Options.views, hchosen]
    exact List.mem_append_right _ List.mem_cons_self
  obtain ⟨e', houtput⟩ := fullOutput_eq_error htree hview ⟨e, by rw [he, error_bind]⟩
  have hmodel : fullOutput options (sink.filesBefore files) path >>= sink.receive
      = .error e' := by
    rw [houtput, error_bind]
  rw [runModels_cons_of_error hmodel]

/-- **An accepted tree of whole widths has declarations unless a union has a struct as a member or
a value cannot be printed.** -/
theorem declaredUnlessNested_of_resolve (hwidths : raw.WidthsWhole) (h : raw.resolve = .ok root)
    (hstruct : ∃ header fields, root = struct header fields ∧ header.IsNamed)
    (o : DeclarationOptions) : root.DeclaredUnlessNested o := by
  have hwhole := sizesWhole_of_resolve hwidths h
  have hfailure : failure? (root.declarations o)
      = (nodesOf root.children).findSome? (fault? o) := by
    obtain ⟨header, fields, rfl, hnamed⟩ := hstruct
    exact failure?_declarations h hnamed
  constructor
  case fails =>
    rw [← failure?_ne_none_iff, hfailure, Ne, List.findSome?_eq_none_iff,
      ← exists_fault_iff hwhole h]
    push Not
    rfl
  case first =>
    intro before h' inner after hsplit hfirst hprinted
    rw [← failure?_eq_some_iff, hfailure, findSome?_fault_of_first hwhole h hsplit hfirst hprinted]
  case items =>
    intro b hb i hi
    obtain ⟨hwidth, hbounds, -⟩ := item_declarable_of_resolve hwhole h hb hi
    exact ⟨hwidth, hbounds⟩
  case unprinted =>
    rintro options files sink path rest hchosen rfl htree hfails
    exact runModels_of_error_declarations rest hchosen htree hfails

end

/-! ## A nested struct and a long run of bytes -/

/-- A struct in a union of a union, behind a word. -/
def nestedRoot : Field :=
  struct { name := some (.str "r") }
    [word { header := { name := some (.str "a") }, bits := 8 },
      union { name := some (.str "u") }
        [union { name := some (.str "v") }
          [struct { name := some (.str "s") }
            [word { header := { name := some (.str "b") }, bits := 8 }]]]]

theorem declaredUnlessNested_of_resolve_nestedRoot :
    nestedRoot.WidthsWhole ∧ nestedRoot.resolve = .ok (nestedRoot.located [] 0 0) ∧
      (∃ header fields, nestedRoot.located [] 0 0 = struct header fields ∧ header.IsNamed) ∧
      (nestedRoot.located [] 0 0).DeclaredUnlessNested {} := by
  have hwidths : nestedRoot.WidthsWhole := by decide
  have hstruct : ∃ header fields,
      nestedRoot.located [] 0 0 = struct header fields ∧ header.IsNamed := ⟨_, _, rfl, by decide⟩
  exact ⟨hwidths, rfl, hstruct, declaredUnlessNested_of_resolve hwidths rfl hstruct {}⟩

/-- A struct of one run of bytes. -/
def byteRun (count : Nat) : Field :=
  struct { name := some (.str "r") } [blob { bytes := .int count }]

theorem sizesWhole_byteRun (count : Nat) : (byteRun count).SizesWhole :=
  forall_mem_nodes.2 ⟨trivial, List.forall_mem_singleton.2 (List.forall_mem_singleton.2 ⟨_, rfl⟩)⟩

theorem resolve_byteRun {count : Nat} (h : 1 ≤ count) :
    (byteRun count).resolve = .ok ((byteRun count).located [] 0 0) := by
  refine (resolve_eq_ok_iff (sizesWhole_byteRun count)).2 ⟨?_, rfl, rfl⟩
  have hroot : ({ name := some (.str "r") } : Header).NameAllowed := by decide
  have hblob : ({} : Header).NameAllowed := by decide
  have hadmits : Surrounding.root.Admits 0 (byteRun count) := by
    simp [Surrounding.Admits, byteRun, header]
  refine List.forall_mem_cons.2 ⟨⟨hadmits, hroot, trivial⟩, ?_⟩
  refine List.forall_mem_singleton.2 ⟨⟨by simp, by simp [header]⟩, hblob, ?_⟩
  show (1 : Int) ≤ count
  omega

/-- A count of bytes that is not written. -/
theorem not_isWritable_of_le {count : Nat} (h : Nat.pow 10 Number.maxDigits ≤ count) :
    (Value.int count).isWritable = false := by
  rw [Value.isWritable_num, Number.isWritable, decide_eq_false_iff_not, Int.natAbs_natCast]
  exact Nat.not_lt.2 h

/-- **A struct of bytes alone can be without declarations**: the count of the bytes is too long for
its member. -/
theorem declarations_byteRun :
    ∃ raw root : Field, raw.WidthsWhole ∧ raw.resolve = .ok root ∧
      (∃ header fields, root = struct header fields ∧ header.IsNamed) ∧
      ¬root.NestsStruct ∧ root.declarations {} = .error .longNumber := by
  have hpow : ∀ digits, 1 ≤ Nat.pow 10 digits := fun digits => Nat.pow_pos (by decide)
  have hpos := hpow Number.maxDigits
  -- The count is too large to be computed.
  generalize hcount : Nat.pow 10 Number.maxDigits = count at hpos
  have hresolve := resolve_byteRun hpos
  have hbytes : (Value.int count).isWritable = false := not_isWritable_of_le (Nat.le_of_eq hcount)
  refine ⟨byteRun count, _, ?_, hresolve, ⟨_, _, rfl, rfl⟩, ?_, ?_⟩
  · exact forall_mem_nodes.2
      ⟨trivial, List.forall_mem_singleton.2 (List.forall_mem_singleton.2 trivial)⟩
  · rw [nestsStruct_iff (sizesWhole_byteRun count) hresolve]
    rintro ⟨g, hg, h, fields, rfl⟩
    obtain hg := List.mem_singleton.1 hg
    cases hg
  · have hfailure := failure?_declarations (o := {}) hresolve rfl
    have hfault : ∀ h : Header, (blob { header := h, bytes := .int count }).fault? {}
        = some .longNumber := by
      intro h
      rw [fault?, ownFault?, Blob.fault?, failure?_writable, hbytes]
      rfl
    rw [← failure?_eq_some_iff]
    refine hfailure.trans ?_
    rw [locatedFields, nodesOf, nodes_eq, List.cons_append, List.findSome?_cons, located, hfault]

end Field

end RegisterLayout
