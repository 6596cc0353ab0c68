import RegisterLayout.Proofs.Accessors
import RegisterLayout.Proofs.DeclarationFaults

/-!
# What the options of declarations change

Both options of declarations add or leave out whole pieces of text: a comment before a member or
before the functions of an item, and a getter or a setter.  Without comments there is everything
else that there is with them, and where the access of items is honoured there is everything but
the functions that it bars.  No empty line comes or goes, since an item keeps at least one function.

Principal definitions: `Piece`, `Declarations.memberPieces`, `Declarations.blockPieces`,
`Field.barredFunctions`, `Field.OptionsAddPieces`.
Principal results: `Field.exists_declarations_iff`, `Field.optionsAddPieces_of_resolve`.
-/

namespace RegisterLayout

/-! ## Pieces of declarations -/

/-- Lines that are printed or left out together. -/
inductive Piece where
  | plain (lines : List Text)
  | comment (indent text : Text)
  | getter (target : Target)
  | setter (target : Target)

namespace Piece

def lines : Piece → List Text
  | plain lines => lines
  | comment indent text => [indent ++ "/** " ++ text ++ " */"]
  | getter t => (Accessor.getter t).lines
  | setter t => (Accessor.setter t).lines

/-- The text of a comment. -/
def comment? : Piece → Option Text
  | comment _ text => some text
  | _ => none

def isComment (p : Piece) : Bool := p.comment?.isSome

/-- The name of the function that a piece declares. -/
def functionName? : Piece → Option Text
  | getter t => (Accessor.getter t).functionName?
  | setter t => (Accessor.setter t).functionName?
  | _ => none

end Piece

namespace Member

mutual

/-- The pieces of a member behind an indent. -/
def pieces (indent : Text) : Member → List Piece
  | doc text => [.comment indent text]
  | union name members =>
    .plain [indent ++ "union \x7b"] :: piecesAll (indent ++ "\t") members
      ++ [.plain [indent ++ "\x7d " ++ Cause.nameText name ++ ";"]]
  | m => [.plain (lines indent m)]
termination_by structural m => m

def piecesAll (indent : Text) : List Member → List Piece
  | [] => []
  | m :: ms => pieces indent m ++ piecesAll indent ms
termination_by structural ms => ms

end

/-- What holds of the members that have none below them, and of a union if it holds of its members,
holds of every member. -/
@[elab_as_elim]
theorem inductionOn {P : Member → Prop} (leaf : ∀ m, (∀ name members, m ≠ union name members) → P m)
    (union : ∀ name members, (∀ m ∈ members, P m) → P (union name members)) (m : Member) : P m :=
  @Member.rec P (fun ms => ∀ m ∈ ms, P m) (fun _ => leaf _ (by simp)) (fun _ _ => leaf _ (by simp))
    (fun _ => leaf _ (by simp)) (fun _ _ => leaf _ (by simp)) union (List.forall_mem_nil P)
    (fun _ _ hd tl => List.forall_mem_cons.2 ⟨hd, tl⟩) m

theorem flatMap_lines_of_forall {ms : List Member} {indent : Text}
    (h : ∀ m ∈ ms, (m.pieces indent).flatMap Piece.lines = m.lines indent) :
    (piecesAll indent ms).flatMap Piece.lines = linesAll indent ms := by
  induction ms with
  | nil => rfl
  | cons m ms ih =>
    obtain ⟨hm, hms⟩ := List.forall_mem_cons.1 h
    rw [piecesAll, linesAll, List.flatMap_append, hm, ih hms]

theorem flatMap_lines_pieces (m : Member) (indent : Text) :
    (m.pieces indent).flatMap Piece.lines = m.lines indent := by
  induction m using inductionOn generalizing indent with
  | leaf m hm =>
    cases m with
    | union name members => exact absurd rfl (hm name members)
    | doc text => rfl
    | _ => exact List.append_nil _
  | union name members ih =>
    have hmembers := flatMap_lines_of_forall fun m hm => ih m hm (indent ++ "\t")
    rw [pieces, lines, List.cons_append, List.flatMap_cons, List.flatMap_append, hmembers]
    rfl

end Member

/-- The piece of an accessor. -/
def Accessor.piece : Accessor → Piece
  | doc text => .comment [] text
  | getter t => .getter t
  | setter t => .setter t

/-- Pieces below an empty line; no piece, no line. -/
def pieceParagraph (ps : List Piece) : List Piece := if ps.isEmpty then [] else .plain [[]] :: ps

def BitFieldBlock.pieces (b : BitFieldBlock) : List Piece :=
  .plain (b.backing.line :: paragraph (b.enums.flatMap EnumDeclaration.lines)
      ++ paragraph (b.macros.map Macro.line))
    :: pieceParagraph (b.accessors.map Accessor.piece) ++ [.plain [[]]]

theorem Accessor.lines_piece (a : Accessor) : a.piece.lines = a.lines := by
  cases a <;> rfl

theorem flatMap_lines_pieceParagraph (as : List Accessor) :
    (pieceParagraph (as.map Accessor.piece)).flatMap Piece.lines
      = paragraph (as.flatMap Accessor.lines) := by
  cases as with
  | nil => rfl
  | cons a as =>
    have hlines : (a :: as).flatMap Accessor.lines ≠ [] := by
      rw [List.flatMap_cons]
      cases a <;> simp [Accessor.lines]
    have hpieces : ((a :: as).map Accessor.piece).flatMap Piece.lines
        = (a :: as).flatMap Accessor.lines := by
      rw [List.flatMap_map]
      exact List.flatMap_congr fun a _ => a.lines_piece
    rw [pieceParagraph, paragraph, if_neg (by simp), if_neg (by simpa using hlines),
      List.flatMap_cons, hpieces]
    rfl

theorem BitFieldBlock.flatMap_lines_pieces (b : BitFieldBlock) :
    b.pieces.flatMap Piece.lines = b.lines := by
  rw [pieces, lines, List.cons_append, List.flatMap_cons, List.flatMap_append,
    flatMap_lines_pieceParagraph]
  simp [Piece.lines]

namespace Declarations

def memberPieces (d : Declarations) : List Piece := Member.piecesAll "\t" d.members

def blockPieces (d : Declarations) : List Piece := d.blocks.flatMap BitFieldBlock.pieces

/-- **The lines of declarations are those of their pieces.** -/
theorem lines_eq (d : Declarations) :
    d.memberLines = d.memberPieces.flatMap Piece.lines ∧
      d.blockLines = d.blockPieces.flatMap Piece.lines := by
  refine ⟨(Member.flatMap_lines_of_forall fun m _ => m.flatMap_lines_pieces _).symm, ?_⟩
  rw [blockLines, blockPieces, List.flatMap_assoc]
  exact List.flatMap_congr fun b _ => b.flatMap_lines_pieces.symm

end Declarations

/-! ## Comments among the members -/

/-- The text of the comment that a description becomes. -/
def Header.docText? (h : Header) : Option Text := (filled? h.desc).map Value.text

section

variable {o o' : DeclarationOptions} {struct struct' : Text} {n : UnnamedMembers} {fs : List Field}

/-- Without comments there are those pieces that are none. -/
def DeclarationOptions.keepsComment (o : DeclarationOptions) (p : Piece) : Bool :=
  o.docComments || !p.isComment

theorem filter_comment (hless : o'.docComments = true → o.docComments = true) (h : Header)
    (indent : Text) :
    ((o.comment? h).toList.map (Piece.comment indent)).filter o'.keepsComment
      = (o'.comment? h).toList.map (Piece.comment indent) := by
  cases hcomments : o'.docComments with
  | true =>
    have hsame : o.comment? h = o'.comment? h := by
      rw [DeclarationOptions.comment?, DeclarationOptions.comment?, hcomments, hless hcomments]
    rw [hsame, List.filter_eq_self]
    intro p _
    rw [DeclarationOptions.keepsComment, hcomments, Bool.true_or]
  | false =>
    have hnone : o'.comment? h = none := by
      rw [DeclarationOptions.comment?, hcomments, if_neg Bool.false_ne_true]
    rw [hnone, Option.toList_none, List.map_nil, List.filter_eq_nil_iff]
    intro p hp
    obtain ⟨text, -, rfl⟩ := List.mem_map.1 hp
    simp [DeclarationOptions.keepsComment, hcomments, Piece.isComment, Piece.comment?]

theorem Member.piecesAll_comment (indent : Text) (comment : Option Text) (m : Member)
    (ms : List Member) :
    piecesAll indent (comment.toList.map .doc ++ m :: ms)
      = comment.toList.map (.comment indent) ++ (pieces indent m ++ piecesAll indent ms) := by
  cases comment <;> rfl

/-- A field without members has one member, whatever the options are. -/
theorem DeclaredLeaf.member_eq {f : Field} {m m' : Member} {own own' : List BitFieldBlock}
    (h : DeclaredLeaf o struct n f m own) (h' : DeclaredLeaf o' struct' n f m' own') : m' = m := by
  cases h with
  | word w => cases h'; rfl
  | verbatim b decl hdecl =>
    cases h' with
    | verbatim b decl' hdecl' =>
      obtain rfl := Value.str.inj (Option.some.inj (hdecl.symm.trans hdecl'))
      rfl
    | bytes b hdecl' => exact absurd (hdecl.symm.trans hdecl') (by simp)
  | bytes b hdecl =>
    cases h' with
    | verbatim b decl hdecl' => exact absurd (hdecl.symm.trans hdecl') (by simp)
    | bytes b hdecl' => rfl
  | bitfield b => cases h'; rfl

theorem DeclaredLeaf.pieces {f : Field} {m : Member} {own : List BitFieldBlock}
    (h : DeclaredLeaf o struct n f m own) (indent : Text) :
    m.pieces indent = [.plain (m.lines indent)] := by
  cases h <;> rfl

/-- **Fewer comments leave the members as they are otherwise.** -/
theorem Declares.members_filter (hless : o'.docComments = true → o.docComments = true)
    {ms ms' : List Member} {blocks blocks' : List BitFieldBlock}
    (h : Declares o struct n fs ms blocks) (h' : Declares o' struct' n fs ms' blocks') :
    (o'.docComments = o.docComments → ms' = ms) ∧
      ∀ indent, Member.piecesAll indent ms'
        = (Member.piecesAll indent ms).filter o'.keepsComment := by
  have hsame : ∀ header : Header, o'.docComments = o.docComments →
      o'.comment? header = o.comment? header := by
    intro header hcomments
    rw [DeclarationOptions.comment?, DeclarationOptions.comment?, hcomments]
  have hplain : ∀ lines, o'.keepsComment (.plain lines) = true := fun _ => Bool.or_true _
  induction h generalizing ms' blocks' with
  | nil =>
    cases h'
    exact ⟨fun _ => rfl, fun _ => rfl⟩
  | @leaf n f fs m ms own blocks first rest ih =>
    cases h' with
    | leaf first' rest' =>
      obtain rfl := first.member_eq first'
      obtain ⟨hequal, hpieces⟩ := ih rest'
      refine ⟨fun hcomments => by rw [hequal hcomments, hsame _ hcomments], fun indent => ?_⟩
      rw [Member.piecesAll_comment, Member.piecesAll_comment, List.filter_append,
        filter_comment hless, List.filter_append, hpieces, first.pieces,
        List.filter_cons_of_pos (hplain _), List.filter_nil]
    | union within' rest' => cases first
  | @union n header members fs inner ms own blocks within rest ihwithin ih =>
    cases h' with
    | leaf first' rest' => cases first'
    | union within' rest' =>
      obtain ⟨hequal, hpieces⟩ := ih rest'
      obtain ⟨hinner, hinnerPieces⟩ := ihwithin within'
      refine ⟨fun hcomments => ?_, fun indent => ?_⟩
      · rw [hequal hcomments, hinner hcomments, hsame _ hcomments]
      · rw [Member.piecesAll_comment, Member.piecesAll_comment, List.filter_append,
          filter_comment hless, List.filter_append, hpieces, Member.pieces, Member.pieces,
          List.filter_append, List.filter_cons_of_pos (hplain _), hinnerPieces,
          List.filter_cons_of_pos (hplain _), List.filter_nil]

theorem filterMap_comment? (comment : Option Text) (indent : Text) :
    (comment.toList.map (Piece.comment indent)).filterMap Piece.comment? = comment.toList := by
  cases comment <;> rfl

theorem filterMap_cons_toList {α β : Type} (f : α → Option β) (a : α) (as : List α) :
    (a :: as).filterMap f = (f a).toList ++ as.filterMap f := by
  rw [List.filterMap_cons]
  cases f a <;> rfl

/-- **The comments among the members are those of the described nodes, in their order.** -/
theorem Declares.comments (hcomments : o.docComments = true) {ms : List Member}
    {blocks : List BitFieldBlock} (h : Declares o struct n fs ms blocks) (indent : Text) :
    (Member.piecesAll indent ms).filterMap Piece.comment?
      = (Field.nodesOf fs).filterMap fun f => f.header.docText? := by
  have hcomment : ∀ header : Header, o.comment? header = header.docText? :=
    fun header => if_pos hcomments
  induction h generalizing indent with
  | nil => rfl
  | @leaf n f fs m ms own blocks first rest ih =>
    have hnodes : f.nodes = [f] := by
      cases first <;> rfl
    have hnone : (m.pieces indent).filterMap Piece.comment? = [] := by
      rw [first.pieces]
      rfl
    rw [Member.piecesAll_comment, List.filterMap_append, List.filterMap_append, hnone,
      filterMap_comment?, hcomment, ih, Field.nodesOf, hnodes, List.singleton_append,
      filterMap_cons_toList, List.nil_append]
  | @union n header members fs inner ms own blocks within rest ihwithin ih =>
    have hinner : ((Member.union (header.name.map Value.text) inner).pieces indent).filterMap
        Piece.comment? = (Field.nodesOf members).filterMap fun f => f.header.docText? := by
      rw [Member.pieces, List.cons_append, List.filterMap_cons_none rfl, List.filterMap_append,
        ihwithin]
      exact List.append_nil _
    rw [Member.piecesAll_comment, List.filterMap_append, List.filterMap_append, hinner,
      filterMap_comment?, hcomment, ih, Field.nodesOf, Field.nodes_eq, List.cons_append,
      filterMap_cons_toList, List.filterMap_append]
    rfl

end

/-! ## Blocks of bit fields -/

theorem filter_pieceParagraph {q : Piece → Bool} (hplain : ∀ lines, q (.plain lines) = true)
    {ps : List Piece} (hne : ps ≠ [] → ps.filter q ≠ []) :
    (pieceParagraph ps).filter q = pieceParagraph (ps.filter q) := by
  cases ps with
  | nil => rfl
  | cons p ps =>
    rw [pieceParagraph, pieceParagraph, if_neg (by simp),
      if_neg (by simpa using hne (List.cons_ne_nil p ps)), List.filter_cons_of_pos (hplain _)]

theorem filterMap_pieceParagraph {α : Type} {f : Piece → Option α}
    (hplain : ∀ lines, f (.plain lines) = none) (ps : List Piece) :
    (pieceParagraph ps).filterMap f = ps.filterMap f := by
  cases ps with
  | nil => rfl
  | cons p ps => rw [pieceParagraph, if_neg (by simp), List.filterMap_cons_none (hplain _)]

namespace Item

/-- The pieces of an item behind a struct and a member. -/
def pieces (o : DeclarationOptions) (place : Text × Text) (i : Item) : List Piece :=
  (i.declarations o place).accessors.map Accessor.piece

theorem pieces_eq (o : DeclarationOptions) (place : Text × Text) (i : Item) :
    i.pieces o place = (o.comment? i.header).toList.map (.comment [])
      ++ (i.functions o place).map Accessor.piece := by
  rw [pieces, declarations, List.map_append, List.map_map]
  rfl

/-- The functions of an item are no comments. -/
theorem comment?_of_mem_functions (o : DeclarationOptions) (place : Text × Text) (i : Item)
    {p : Piece} (hp : p ∈ (i.functions o place).map Accessor.piece) : p.comment? = none := by
  obtain ⟨a, ha, rfl⟩ := List.mem_map.1 hp
  rw [← i.filter_isFunction, List.mem_filter] at ha
  cases a with
  | doc text => exact absurd ha.2 Bool.false_ne_true
  | getter t => rfl
  | setter t => rfl

theorem write_ne_read : some (Value.str "write") ≠ some (Value.str "read") := by
  rw [Ne, Option.some.injEq, Value.str.injEq]
  decide

/-- An item has at least one function, since its access bars no more than one. -/
theorem pieces_ne_nil (o : DeclarationOptions) (place : Text × Text) (i : Item) :
    i.pieces o place ≠ [] := by
  have hfunctions : i.functions o place ≠ [] := by
    unfold functions
    by_cases hwrite : o.honorAccess ∧ i.only = some (.str "write")
    · have hread : ¬(o.honorAccess ∧ i.only = some (.str "read")) := by
        rintro ⟨-, hread⟩
        exact absurd (hwrite.2.symm.trans hread) write_ne_read
      rw [if_neg hread]
      simp
    · rw [if_neg hwrite]
      simp
  rw [pieces_eq]
  simp [hfunctions]

end Item

section

variable {o o' : DeclarationOptions} {struct member : Text}

theorem BitField.pieces_block (b : BitField) :
    (b.block o struct member).pieces
      = .plain ((b.backing struct member).line
          :: paragraph ((b.namedItems.filterMap Item.enum?).flatMap EnumDeclaration.lines)
          ++ paragraph (b.namedItems.map fun i => (Macro.mk i.macroName i.mask).line))
        :: pieceParagraph (b.namedItems.flatMap (Item.pieces o (b.backing struct member).place))
          ++ [.plain [[]]] := by
  rw [BitFieldBlock.pieces, block, List.filterMap_map, List.map_map, List.map_map,
    List.flatMap_map, List.map_flatMap]
  rfl

/-- Where the pieces of items are filtered, so are those of their bit field. -/
theorem BitField.pieces_block_filter {q : Piece → Bool} (hplain : ∀ lines, q (.plain lines) = true)
    {b : BitField} (h : ∀ i ∈ b.namedItems, ∀ place,
      i.pieces o' place = (i.pieces o place).filter q) :
    (b.block o' struct member).pieces = (b.block o struct member).pieces.filter q := by
  have hitems : b.namedItems.flatMap (Item.pieces o' (b.backing struct member).place)
      = (b.namedItems.flatMap (Item.pieces o (b.backing struct member).place)).filter q := by
    rw [List.filter_flatMap]
    exact List.flatMap_congr fun i hi => h i hi _
  have hne : b.namedItems.flatMap (Item.pieces o (b.backing struct member).place) ≠ [] →
      (b.namedItems.flatMap (Item.pieces o (b.backing struct member).place)).filter q ≠ [] := by
    rw [← hitems]
    intro hpieces hnone
    cases hnamed : b.namedItems with
    | nil => simp [hnamed] at hpieces
    | cons i rest =>
      rw [hnamed, List.flatMap_cons, List.append_eq_nil_iff] at hnone
      exact i.pieces_ne_nil o' _ hnone.1
  rw [pieces_block, pieces_block, List.filter_append, List.filter_cons_of_pos (hplain _),
    filter_pieceParagraph hplain hne, List.filter_cons_of_pos (hplain _), List.filter_nil, hitems]

end

/-! ## Blocks of a tree -/

namespace Field

section

variable {raw root : Field} {o o' : DeclarationOptions} {d d' : Declarations}

/-- Where the pieces of all items are filtered, so are those of the blocks. -/
theorem blockPieces_filter (hroot : raw.resolve = .ok root) (hd : root.declarations o = .ok d)
    (hd' : root.declarations o' = .ok d') (hname : d'.structName = d.structName) {q : Piece → Bool}
    (hplain : ∀ lines, q (.plain lines) = true)
    (h : ∀ i ∈ root.namedItems, ∀ place, i.pieces o' place = (i.pieces o place).filter q) :
    d'.blockPieces = d.blockPieces.filter q := by
  rw [Declarations.blockPieces, Declarations.blockPieces, blocks_of_declarations hroot hd,
    blocks_of_declarations hroot hd', hname, List.flatMap_map, List.flatMap_map,
    List.filter_flatMap]
  refine List.flatMap_congr fun b hb => BitField.pieces_block_filter hplain fun i hi => ?_
  exact h i (List.mem_flatMap.2 ⟨b.1, mem_of_mem_numberedBitFields hb, hi⟩)

/-- What is read off the pieces of the blocks is what is read off those of the items in turn. -/
theorem filterMap_blockPieces (hroot : raw.resolve = .ok root) (hd : root.declarations o = .ok d)
    {α : Type} {f : Piece → Option α} {g : Item → List α}
    (hplain : ∀ lines, f (.plain lines) = none)
    (h : ∀ i ∈ root.namedItems, ∀ place, (i.pieces o place).filterMap f = g i) :
    d.blockPieces.filterMap f = root.namedItems.flatMap g := by
  have hblock : ∀ b ∈ numberedBitFields 0 root.bitFields,
      (b.1.block o d.structName b.2).pieces.filterMap f = b.1.namedItems.flatMap g := by
    intro b hb
    rw [BitField.pieces_block, List.cons_append, List.filterMap_cons_none (hplain _),
      List.filterMap_append, filterMap_pieceParagraph hplain, List.filterMap_cons_none (hplain _),
      List.filterMap_nil, List.append_nil, List.filterMap_flatMap]
    refine List.flatMap_congr fun i hi => ?_
    exact h i (List.mem_flatMap.2 ⟨b.1, mem_of_mem_numberedBitFields hb, hi⟩) _
  rw [Declarations.blockPieces, blocks_of_declarations hroot hd, List.flatMap_map,
    List.filterMap_flatMap, List.flatMap_congr hblock, namedItems, List.flatMap_assoc]
  exact flatMap_numberedBitFields 0 root.bitFields fun b => b.namedItems.flatMap g

end

end Field

/-! ## Functions that the access of an item bars -/

namespace Item

/-- The function that is barred where the access of items is honoured. -/
def barredFunction? (i : Item) : Option Text :=
  if i.only = some (.str "read") then some i.setterName
  else if i.only = some (.str "write") then some i.getterName
  else none

theorem barredFunction?_eq_getterName_iff (i : Item) :
    i.barredFunction? = some i.getterName ↔ i.only = some (.str "write") := by
  unfold barredFunction?
  by_cases hread : i.only = some (.str "read")
  · have hwrite : ¬i.only = some (.str "write") :=
      fun hwrite => write_ne_read (hwrite.symm.trans hread)
    rw [if_pos hread, Option.some.injEq]
    exact iff_of_false (i.getterName_ne_setterName i).symm hwrite
  · rw [if_neg hread]
    simp

theorem barredFunction?_eq_setterName_iff (i : Item) :
    i.barredFunction? = some i.setterName ↔ i.only = some (.str "read") := by
  unfold barredFunction?
  by_cases hread : i.only = some (.str "read")
  · rw [if_pos hread]
    exact iff_of_true rfl hread
  · rw [if_neg hread]
    simp [hread, i.getterName_ne_setterName i]

/-- Items with different names have no function in common. -/
theorem barredFunction?_ne_of_fullName_ne {i j : Item} (h : i.fullName ≠ j.fullName) {name : Text}
    (hname : name = i.getterName ∨ name = i.setterName) : j.barredFunction? ≠ some name := by
  unfold barredFunction?
  rcases hname with rfl | rfl
  · split
    · simpa using (i.getterName_ne_setterName j).symm
    split
    · simpa using (getterName_ne h).symm
    · simp
  · split
    · simpa using (setterName_ne h).symm
    split
    · simpa using j.getterName_ne_setterName i
    · simp

end Item

namespace Field

/-- The functions that the access of the items of a tree bars, one for each item that may only be
read or only be written. -/
def barredFunctions (f : Field) : List Text := f.namedItems.filterMap Item.barredFunction?

/-- A piece is a function that is barred. -/
def bars (f : Field) (p : Piece) : Bool := p.functionName?.any (· ∈ f.barredFunctions)

section

variable {raw root : Field} {i : Item}

theorem eq_of_fullName_eq (hroot : raw.resolve = .ok root) (hi : i ∈ root.namedItems) {j : Item}
    (hj : j ∈ root.namedItems) (h : i.fullName = j.fullName) : i = j :=
  List.inj_on_of_nodup_map (nodup_fullName_namedItems hroot) hi hj h

/-- A name of a function of an item is barred by the access of this item only. -/
theorem mem_barredFunctions_iff (hroot : raw.resolve = .ok root) (hi : i ∈ root.namedItems)
    {name : Text} (hname : name = i.getterName ∨ name = i.setterName) :
    name ∈ root.barredFunctions ↔ i.barredFunction? = some name := by
  rw [barredFunctions, List.mem_filterMap]
  constructor
  · rintro ⟨j, hj, hbarred⟩
    by_cases hsame : i.fullName = j.fullName
    · rwa [eq_of_fullName_eq hroot hi hj hsame]
    · exact absurd hbarred (Item.barredFunction?_ne_of_fullName_ne hsame hname)
  · exact fun hbarred => ⟨i, hi, hbarred⟩

theorem bars_getter (hroot : raw.resolve = .ok root) (hi : i ∈ root.namedItems)
    (place : Text × Text) :
    root.bars (.getter (i.target place)) = true ↔ i.only = some (.str "write") := by
  rw [bars, Piece.functionName?, Item.functionName?_getter, Option.any_some, decide_eq_true_eq]
  exact (mem_barredFunctions_iff hroot hi (.inl rfl)).trans i.barredFunction?_eq_getterName_iff

theorem bars_setter (hroot : raw.resolve = .ok root) (hi : i ∈ root.namedItems)
    (place : Text × Text) :
    root.bars (.setter (i.target place)) = true ↔ i.only = some (.str "read") := by
  have hname : (Piece.setter (i.target place)).functionName? = some i.setterName := rfl
  rw [bars, hname, Option.any_some, decide_eq_true_eq]
  exact (mem_barredFunctions_iff hroot hi (.inr rfl)).trans i.barredFunction?_eq_setterName_iff

/-- Where access is honoured, the pieces of an item are those that are not barred. -/
theorem pieces_honoured (hroot : raw.resolve = .ok root) (hi : i ∈ root.namedItems)
    (docs : Bool) (place : Text × Text) :
    i.pieces ⟨docs, true⟩ place = (i.pieces ⟨docs, false⟩ place).filter (!root.bars ·) := by
  have hcomment : ∀ c : Option Text, (c.toList.map (Piece.comment [])).filter (!root.bars ·)
      = c.toList.map (Piece.comment []) := by
    intro c
    cases c <;> rfl
  have hkept : ∀ (a : Accessor) (barred : Prop) [Decidable barred],
      (root.bars a.piece = true ↔ barred) →
        (if barred then [] else [a]).map Accessor.piece = [a.piece].filter (!root.bars ·) := by
    intro a barred _ hbars
    by_cases hbarred : barred
    · rw [if_pos hbarred, List.filter_cons_of_neg (by simp [hbars.2 hbarred])]
      rfl
    · rw [if_neg hbarred, List.filter_cons_of_pos (by simp [mt hbars.1 hbarred])]
      rfl
  have hgetter := hkept (.getter (i.target place)) _ (bars_getter hroot hi place)
  have hsetter := hkept (.setter (i.target place)) _ (bars_setter hroot hi place)
  rw [Item.pieces_eq, Item.pieces_eq, List.filter_append, hcomment]
  refine congrArg (_ ++ ·) ?_
  simp only [Item.functions, true_and, Bool.false_eq_true, false_and, if_false, List.map_append,
    List.filter_append, hgetter, hsetter]
  rfl

/-- The functions of an item that are barred. -/
theorem filterMap_barred (hroot : raw.resolve = .ok root) (hi : i ∈ root.namedItems)
    (docs : Bool) (place : Text × Text) :
    ((i.pieces ⟨docs, false⟩ place).filter root.bars).filterMap Piece.functionName?
      = i.barredFunction?.toList := by
  have hcomment : ∀ c : Option Text,
      (c.toList.map (Piece.comment [])).filter root.bars = [] := by
    intro c
    cases c <;> rfl
  have hfunctions : (i.functions ⟨docs, false⟩ place).map Accessor.piece
      = [.getter (i.target place), .setter (i.target place)] := rfl
  have hgetter := bars_getter hroot hi place
  have hsetter := bars_setter hroot hi place
  have hname : (Piece.getter (i.target place)).functionName? = some i.getterName :=
    i.functionName?_getter place
  rw [Item.pieces_eq, List.filter_append, hcomment, List.nil_append, hfunctions,
    Item.barredFunction?]
  by_cases hread : i.only = some (.str "read")
  · have hwrite : ¬root.bars (.getter (i.target place)) = true :=
      fun h => Item.write_ne_read ((hgetter.1 h).symm.trans hread)
    rw [if_pos hread, List.filter_cons_of_neg hwrite, List.filter_cons_of_pos (hsetter.2 hread)]
    rfl
  · rw [if_neg hread]
    have hkept : ¬root.bars (.setter (i.target place)) = true := mt hsetter.1 hread
    by_cases hwrite : i.only = some (.str "write")
    · rw [if_pos hwrite, List.filter_cons_of_pos (hgetter.2 hwrite),
        List.filter_cons_of_neg hkept, List.filter_nil, List.filterMap_cons_some hname]
      rfl
    · rw [if_neg hwrite, List.filter_cons_of_neg (mt hgetter.1 hwrite),
        List.filter_cons_of_neg hkept]
      rfl

/-- Without comments, the pieces of an item are those that are none. -/
theorem pieces_plain (i : Item) (honour : Bool) (place : Text × Text) :
    i.pieces ⟨false, honour⟩ place
      = (i.pieces ⟨true, honour⟩ place).filter
          (DeclarationOptions.keepsComment ⟨false, honour⟩) := by
  have hfunctions : ∀ p ∈ (i.functions ⟨true, honour⟩ place).map Accessor.piece,
      DeclarationOptions.keepsComment ⟨false, honour⟩ p = true := by
    intro p hp
    rw [DeclarationOptions.keepsComment, Piece.isComment, i.comment?_of_mem_functions _ _ hp]
    rfl
  rw [Item.pieces_eq, Item.pieces_eq, List.filter_append, List.filter_eq_self.2 hfunctions,
    filter_comment (by simp)]
  rfl

/-! ## What the options change -/

/-- **Comments can be declared wherever the rest can, unless a description cannot be written.** -/
theorem exists_declarations_iff (hroot : raw.resolve = .ok root) (o : DeclarationOptions) :
    (∃ d, root.declarations o = .ok d) ↔ (∃ d, root.declarations {} = .ok d) ∧
      ∀ g ∈ nodesOf root.children, ∀ h ∈ g.printedHeaders, ¬h.Unprintable o := by
  have hnamed : ∀ (h : Header) (fields : List Field), h.IsNamed → root = struct h fields →
      ((∃ d, root.declarations o = .ok d) ↔ (∃ d, root.declarations {} = .ok d) ∧
        ∀ g ∈ nodesOf root.children, ∀ h ∈ g.printedHeaders, ¬h.Unprintable o) := by
    rintro h fields hname rfl
    rw [← failure?_eq_none_iff, ← failure?_eq_none_iff, failure?_declarations hroot hname,
      failure?_declarations hroot hname, List.findSome?_eq_none_iff, List.findSome?_eq_none_iff,
      children, ← forall₂_and]
    exact forall₂_congr fun g _ => fault?_eq_none_iff_printed
  obtain ⟨hplaced, -⟩ := resolve_eq_ok hroot
  have hstruct : ∀ o d, root.declarations o = .ok d →
      ∃ h fields, h.IsNamed ∧ root = struct h fields := by
    intro o d hd
    obtain ⟨h, fields, hroot, hgiven, -, -⟩ := declarations_eq_ok hplaced hd
    refine ⟨h, fields, ?_, hroot⟩
    rw [Header.IsNamed, hgiven]
    rfl
  constructor
  · rintro ⟨d, hd⟩
    obtain ⟨h, fields, hname, hfields⟩ := hstruct o d hd
    exact (hnamed h fields hname hfields).1 ⟨d, hd⟩
  · rintro ⟨⟨d, hd⟩, hprinted⟩
    obtain ⟨h, fields, hname, hfields⟩ := hstruct {} d hd
    exact (hnamed h fields hname hfields).2 ⟨⟨d, hd⟩, hprinted⟩

/-- Declarations without comments are those with them less the comments, one for every described
member and one for every described item that has a name. -/
structure CommentsLeftOut (root : Field) (full less : Declarations) : Prop where
  structName : less.structName = full.structName
  members : less.memberPieces = full.memberPieces.filter (!·.isComment)
  memberComments : full.memberPieces.filterMap Piece.comment?
    = (nodesOf root.children).filterMap (·.header.docText?)
  blocks : less.blockPieces = full.blockPieces.filter (!·.isComment)
  blockComments : full.blockPieces.filterMap Piece.comment?
    = root.namedItems.filterMap (·.header.docText?)

/-- Declarations that honour the access of items are those that ignore it less the functions that it
bars, each of which is there once and has three lines. -/
structure AccessHonoured (root : Field) (full less : Declarations) : Prop where
  structName : less.structName = full.structName
  members : less.members = full.members
  blocks : less.blockPieces = full.blockPieces.filter (!root.bars ·)
  barred : (full.blockPieces.filter root.bars).filterMap Piece.functionName? = root.barredFunctions
  threeLines : ∀ p ∈ full.blockPieces, root.bars p = true → p.lines.length = 3

/-- The declarations of a tree differ between options by whole pieces. -/
structure OptionsAddPieces (root : Field) : Prop where
  lines : ∀ o d, root.declarations o = .ok d →
    d.memberLines = d.memberPieces.flatMap Piece.lines ∧
      d.blockLines = d.blockPieces.flatMap Piece.lines
  comments : ∀ honour full, root.declarations ⟨true, honour⟩ = .ok full →
    ∃ less, root.declarations ⟨false, honour⟩ = .ok less ∧ root.CommentsLeftOut full less
  access : ∀ docs full, root.declarations ⟨docs, false⟩ = .ok full →
    ∃ less, root.declarations ⟨docs, true⟩ = .ok less ∧ root.AccessHonoured full less
  /-- Fewer comments and fewer functions are never in the way of the rest, but a description is that
  cannot be written. -/
  made : ∀ honour honour', (∃ d, root.declarations ⟨true, honour⟩ = .ok d) ↔
    (∃ d, root.declarations ⟨false, honour'⟩ = .ok d) ∧
      ∀ g ∈ nodesOf root.children, ∀ h ∈ g.printedHeaders, ¬h.Unprintable ⟨true, honour⟩

/-- Whatever the options are, the same fields are declared under the same name. -/
theorem declares_both {o o' : DeclarationOptions} {d d' : Declarations}
    (hroot : raw.resolve = .ok root) (hd : root.declarations o = .ok d)
    (hd' : root.declarations o' = .ok d') :
    d'.structName = d.structName ∧
      Declares o d.structName {} root.children d.members d.blocks ∧
      Declares o' d'.structName {} root.children d'.members d'.blocks := by
  obtain ⟨hplaced, -⟩ := resolve_eq_ok hroot
  obtain ⟨h, fields, rfl, hgiven, -, hdeclares⟩ := declarations_eq_ok hplaced hd
  obtain ⟨h', fields', hsame, hgiven', -, hdeclares'⟩ := declarations_eq_ok hplaced hd'
  obtain ⟨rfl, rfl⟩ := struct.inj hsame
  exact ⟨Value.str.inj (Option.some.inj (hgiven'.symm.trans hgiven)), hdeclares, hdeclares'⟩

/-- The comments are those pieces that are left out without them. -/
theorem commentsLeftOut (hroot : raw.resolve = .ok root) {honour : Bool} {full less : Declarations}
    (hfull : root.declarations ⟨true, honour⟩ = .ok full)
    (hless : root.declarations ⟨false, honour⟩ = .ok less) : root.CommentsLeftOut full less := by
  obtain ⟨hname, hdeclares, hdeclares'⟩ := declares_both hroot hfull hless
  constructor
  case structName => exact hname
  case members => exact (hdeclares.members_filter (by simp) hdeclares').2 "\t"
  case memberComments => exact hdeclares.comments rfl "\t"
  case blocks =>
    exact blockPieces_filter hroot hfull hless hname (fun _ => rfl)
      fun i _ place => pieces_plain i honour place
  case blockComments =>
    have hplain : ∀ lines, (Piece.plain lines).comment? = none := fun _ => rfl
    rw [List.filterMap_eq_flatMap_toList fun i : Item => i.header.docText?]
    refine filterMap_blockPieces hroot hfull hplain fun i _ place => ?_
    have hfunctions := List.filterMap_eq_nil_iff.2 fun p hp =>
      i.comment?_of_mem_functions ⟨true, honour⟩ place hp
    rw [Item.pieces_eq, List.filterMap_append, filterMap_comment?, hfunctions, List.append_nil]
    rfl

/-- The barred functions are those pieces that are left out where access is honoured. -/
theorem accessHonoured (hroot : raw.resolve = .ok root) {docs : Bool} {full less : Declarations}
    (hfull : root.declarations ⟨docs, false⟩ = .ok full)
    (hless : root.declarations ⟨docs, true⟩ = .ok less) : root.AccessHonoured full less := by
  obtain ⟨hname, hdeclares, hdeclares'⟩ := declares_both hroot hfull hless
  constructor
  case structName => exact hname
  case members => exact (hdeclares.members_filter (by exact id) hdeclares').1 rfl
  case blocks =>
    exact blockPieces_filter hroot hfull hless hname (fun _ => rfl)
      fun i hi place => pieces_honoured hroot hi docs place
  case barred =>
    have hplain : ∀ lines, (if root.bars (.plain lines) = true then
        (Piece.plain lines).functionName? else none) = none := fun _ => rfl
    rw [List.filterMap_filter, barredFunctions,
      List.filterMap_eq_flatMap_toList Item.barredFunction?]
    refine filterMap_blockPieces hroot hfull hplain fun i hi place => ?_
    rw [← List.filterMap_filter]
    exact filterMap_barred hroot hi docs place
  case threeLines =>
    intro p _ hbars
    cases p with
    | plain lines => cases hbars
    | comment indent text => cases hbars
    | getter t => rfl
    | setter t => rfl

/-- **Options add and leave out whole pieces of the declarations for an accepted tree.** -/
theorem optionsAddPieces_of_resolve (hroot : raw.resolve = .ok root) : root.OptionsAddPieces := by
  have hplain : ∀ honour, (∃ d, root.declarations ⟨false, honour⟩ = .ok d) ↔
      ∃ d, root.declarations {} = .ok d := fun honour =>
    (exists_declarations_iff hroot ⟨false, honour⟩).trans
      (and_iff_left fun _ _ _ _ hdesc => Bool.false_ne_true hdesc.1)
  have hmade : ∀ honour honour', (∃ d, root.declarations ⟨true, honour⟩ = .ok d) ↔
      (∃ d, root.declarations ⟨false, honour'⟩ = .ok d) ∧
        ∀ g ∈ nodesOf root.children, ∀ h ∈ g.printedHeaders, ¬h.Unprintable ⟨true, honour⟩ := by
    intro honour honour'
    rw [hplain honour', exists_declarations_iff hroot]
  constructor
  case lines => exact fun _ d _ => d.lines_eq
  case comments =>
    intro honour full hfull
    obtain ⟨⟨less, hless⟩, -⟩ := (hmade honour honour).1 ⟨full, hfull⟩
    exact ⟨less, hless, commentsLeftOut hroot hfull hless⟩
  case access =>
    intro docs full hfull
    -- A description that cannot be written is in the way whether access is honoured or not.
    obtain ⟨less, hless⟩ := (exists_declarations_iff hroot ⟨docs, true⟩).2
      ((exists_declarations_iff hroot ⟨docs, false⟩).1 ⟨full, hfull⟩)
    exact ⟨less, hless, accessHonoured hroot hfull hless⟩
  case made => exact hmade

end

/-- A described union of a bit field that has an item of each access. -/
def guardedRoot : Field :=
  struct { name := some (.str "r") }
    [union { name := some (.str "u"), desc := some (.str "One of two.") }
      [bitfield {
          header := { name := some (.str "ctl") }, bits := 8,
          items := [
            { header := { name := some (.str "go") }, bits := 1, only := some (.str "write") },
            { header := { name := some (.str "busy"), desc := some (.str "At work.") }, bits := 1,
              only := some (.str "read") },
            { header := { name := some (.str "mode") }, bits := 6 }] },
        word { header := { name := some (.str "raw") }, bits := 8 }]]

theorem optionsAddPieces_of_resolve_guardedRoot :
    guardedRoot.resolve = .ok (guardedRoot.located [] 0 0) ∧
      (∃ d, (guardedRoot.located [] 0 0).declarations ⟨true, false⟩ = .ok d) ∧
      (guardedRoot.located [] 0 0).barredFunctions = ["is_r_u_ctl_go", "set_r_u_ctl_busy"] ∧
      (guardedRoot.located [] 0 0).OptionsAddPieces := by
  have hresolve : guardedRoot.resolve = .ok (guardedRoot.located [] 0 0) := rfl
  exact ⟨hresolve, exists_of_isOk (by decide +kernel), by decide +kernel,
    optionsAddPieces_of_resolve hresolve⟩

end Field

end RegisterLayout
