import RegisterLayout.Declaration.Basic

/-!
# Declarations from a placed tree

The members and accessors of a struct.  Unnamed members are numbered within their struct or
union, and unnamed items of a bit field have no declarations at all.

Principal definitions: `DeclarationOptions`, `wordTypeBits`, `declareFields`, `Field.declarations`.
-/

namespace RegisterLayout

structure DeclarationOptions where
  /-- Descriptions become comments. -/
  docComments : Bool := false
  /-- An item that may only be read has no setter, one that may only be written no getter. -/
  honorAccess : Bool := true
  deriving DecidableEq, Repr

/-- A number of bits whose logarithm to base two, rounded to binary64, is at most that of a width.
From 16 on the number next to the width is such a number. -/
def fitsType (bits : Number) (width : Nat) : Bool :=
  match bits with
  | .int n => n ≤ width
  | .real x =>
    let slack : Rat := if 16 ≤ width then mkRat width (Nat.pow 2 52) else 0
    (x.toRat?.map fun q => decide (q ≤ width + slack)).getD false

/-- The width of the smallest unsigned type that holds a number of bits. -/
def wordTypeBits (bits : Number) : Except Failure Nat :=
  if bits.le 0 || (Number.int 64).lt bits then
    .error (if bits.isWritable then .noWordType bits else .longNumber)
  else .ok (([8, 16, 32].find? (fitsType bits)).getD 64)

/-- The highest and the lowest bit of an item. -/
def Item.bounds (i : Item) : Except Failure (Int × Int) :=
  match i.bitRange with
  | none => .error .wrongType
  | some range =>
    match range.getLast?, range.head? with
    | some high, some low => .ok (high, low)
    | _, _ => .error .outOfRange

/-- An enumeration that has entries. -/
def entries? (e : Option Enumeration) : Option Enumeration := e.filter (!·.isEmpty)

/-- The description of a node as a comment, if descriptions become comments. -/
def docOf (o : DeclarationOptions) (h : Header) : Except Failure (Option Text) :=
  if o.docComments then (filled? h.desc).mapM Value.written else .ok none

/-- The one access that an item allows is the one given. -/
def Item.allowsOnly (i : Item) (access : Text) : Bool :=
  (i.only.map (Value.same (.str access))).getD false

/-- The declarations for one item. -/
structure ItemDeclarations where
  enum : Option EnumDeclaration
  define : Macro
  accessors : List Accessor

/-- The accessors of an item that its access admits. -/
def accessorsOf (o : DeclarationOptions) (i : Item) (target : Target) :
    Except Failure (List Accessor) := do
  return (← docOf o i.header).toList.map .doc
    ++ (if o.honorAccess && i.allowsOnly "write" then [] else [.getter target])
    ++ (if o.honorAccess && i.allowsOnly "read" then [] else [.setter target])

/-- The enumeration of an item with a full name. -/
def declareEnum (fullName : Text) (entries : Enumeration) : Except Failure EnumDeclaration := do
  let constants ← entries.mapM fun (key, value) => do
    return (constantName fullName (← key.written), ← value.writable)
  return { tag := fullName, constants }

/-- The declarations for a named item behind a struct and a member. -/
def declareItem (o : DeclarationOptions) (struct member : Text) (i : Item) :
    Except Failure ItemDeclarations := do
  let enum ← (entries? i.enumeration).mapM
    (declareEnum (Cause.nameText i.header.position.fullName))
  let some fullName := i.header.position.fullName | throw .missingAttribute
  let bits ← i.bits.number
  let typeBits ← wordTypeBits bits
  let (high, low) ← i.bounds
  let upperName := Text.upper fullName
  let isFlag := bits.same 1
  let define : Macro :=
    if isFlag then ⟨upperName, .bit low⟩ else ⟨upperName ++ "_MASK", .span high low⟩
  let type : ValueType :=
    if isFlag then .flag else if enum.isSome then .enum fullName else .unsigned typeBits
  return {
    enum, define
    accessors := ← accessorsOf o i ⟨fullName, type, define.name, struct, member⟩ }

/-- All declarations for a bit field that is a member of a struct. -/
def declareBitField (o : DeclarationOptions) (struct member : Text) (b : BitField) :
    Except Failure BitFieldBlock := do
  let backing ← match b.header.givenName? with
    | some name => pure (Backing.ownStruct (← name.written) (← b.bits.writable))
    | none => pure (Backing.memberOf struct member)
  let (struct, member) := backing.place
  let named := b.items.filter (·.header.givenName?.isSome)
  let items ← named.mapM (declareItem o struct member)
  return {
    backing
    enums := items.filterMap (·.enum)
    macros := items.map (·.define)
    accessors := items.flatMap (·.accessors) }

/-- How many unnamed members a struct or a union has so far, bit fields counted apart. -/
structure UnnamedMembers where
  plain : Nat := 0
  bitFields : Nat := 0

/-- The count behind a member. -/
def UnnamedMembers.after (n : UnnamedMembers) : Field → UnnamedMembers
  | .word w => if w.header.givenName?.isSome then n else { n with plain := n.plain + 1 }
  | .blob b => if (filled? b.decl).isSome then n else { n with plain := n.plain + 1 }
  | .bitfield b =>
    if b.header.givenName?.isSome then n else { n with bitFields := n.bitFields + 1 }
  | _ => n

private def unusedName (n : UnnamedMembers) : Text := ("unused_" ++ toString n.plain : String)

private def bitFieldName (n : UnnamedMembers) : Text :=
  ("bitfield_" ++ toString n.bitFields : String)

/-- The name of a member, or the one that stands for it. -/
def memberName (h : Header) (unnamed : Text) : Except Failure Text :=
  match h.givenName? with
  | some name => name.written
  | none => .ok unnamed

def declareWord (n : UnnamedMembers) (w : Word) : Except Failure Member := do
  let type ← match filled? w.typedef with
    | some name => pure (WordType.named (← name.written))
    | none => pure (WordType.plain (filled? w.signed).isSome (← w.bits.writable))
  return .word type (← memberName w.header (unusedName n))

/-- Bytes as the declaration given for them, which has to be a text, or as a list. -/
def declareBlob (n : UnnamedMembers) (b : Blob) : Except Failure Member := do
  match filled? b.decl with
  | some (.str decl) => return .verbatim decl
  | some _ => throw .wrongType
  | none => return .bytes (unusedName n) (← b.bytes.writable)

mutual

/-- The declarations for one member: its own and those of the bit fields in it. -/
def declareField (o : DeclarationOptions) (struct : Text) (n : UnnamedMembers) :
    Field → Except Failure (List Member × List BitFieldBlock)
  | .word w => do return ([← declareWord n w], [])
  | .blob b => do return ([← declareBlob n b], [])
  | .union h members => do
    let (members, blocks) ← declareFields o struct {} members
    return ([.union (← h.name.mapM Value.written) members], blocks)
  | .bitfield b => do
    let name ← memberName b.header (bitFieldName n)
    let block ← declareBitField o struct name b
    return ([.word (.plain false (← b.bits.writable)) name], [block])
  | .struct h _ => .error (.ofNode h.position.fullName .structMember)
  | .stray _ => .error .strayItem
termination_by structural f => f

/-- The declarations for the members of a struct or a union, in order. -/
def declareFields (o : DeclarationOptions) (struct : Text) (n : UnnamedMembers) :
    List Field → Except Failure (List Member × List BitFieldBlock)
  | [] => .ok ([], [])
  | f :: fs => do
    let doc ← docOf o f.header
    let (members, blocks) ← declareField o struct n f
    let (moreMembers, moreBlocks) ← declareFields o struct (n.after f) fs
    return (doc.toList.map Member.doc ++ members ++ moreMembers, blocks ++ moreBlocks)
termination_by structural fs => fs

end

/-- The declarations for a placed tree, the root of which has to be a named struct. -/
def Field.declarations (root : Field) (o : DeclarationOptions) : Except Failure Declarations := do
  match root with
  | .struct h fields =>
    let some name := h.givenName? | throw (.ofCause root.fullName .unnamedRoot)
    if !root.isPlaced then throw (.unplaced "generate_accessors")
    let name ← name.written
    let (members, blocks) ← declareFields o name {} fields
    return ⟨name, members, blocks⟩
  | root => throw (.ofCause root.fullName (.rootKind root.kindName))

end RegisterLayout
