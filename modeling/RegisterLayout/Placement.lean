import RegisterLayout.UniqueName

/-!
# Placement

Placing a tree gives every node its full name, its byte offset and its alignment, and every item
of a bit field its bit range, and checks what an author may write.  The fields of a struct follow
one another without gaps, the members of a union share one offset, and the items of a bit field
fill its word from the highest bit down.

How much memory there is is no matter of a layout: what can be counted can be listed here, and what
can be shifted can be written out.

Principal definitions: `alignmentAt`, `Field.place`, `Field.resolve`.
-/

namespace RegisterLayout

/-- The largest of the powers of two up to 64 that divides an offset together with all smaller
ones; zero if the offset is not whole. -/
def alignmentAt (byteOffset : Number) : Int :=
  (([1, 2, 4, 8, 16, 32, 64].takeWhile fun p => (byteOffset.mod p).isZero).getLast?).getD 0

/-- The header of a node that was placed under a name at an offset. -/
def Header.placedAt (h : Header) (fullName : Text) (byteOffset : Number) : Header :=
  let align := Value.int (alignmentAt byteOffset)
  { h with position := ⟨some fullName, some align, some (.num byteOffset)⟩ }

/-- The constants of an enumeration lie between two bounds; the first that does not is the
error. -/
def checkEnumeration (fullName : Text) (least greatest : Int) :
    Enumeration → Except Failure Unit
  | [] => .ok ()
  | (key, value) :: rest =>
    match value.number? with
    | none => .error .wrongType
    | some n =>
      if n.lt least then .error (.ofCause fullName (.enumBelow key value least))
      else if (Number.int greatest).lt n then
        .error (.ofCause fullName (.enumAbove key value greatest))
      else checkEnumeration fullName least greatest rest

/-- A number equal to one of the widths of words. -/
def wordWidth? (v : Value) : Option Number :=
  v.number?.filter fun n => wordWidths.any fun w => n.same w

/-! ## Bit fields -/

/-- The width of an item: a positive whole number. -/
def itemWidth? (v : Value) : Option Int := v.int?.filter (1 ≤ ·)

/-- A list has fewer elements than this. -/
def maxCountedBits : Int := Int.pow 2 63

/-- The most places by which a number is shifted. -/
def maxShift : Int := 30 * (Int.pow 2 61 - 8)

/-- The greatest value of an item. -/
def greatestValue (width : Int) : Except Failure Int :=
  if maxShift < width then .error .overflow else .ok (Int.pow 2 width.toNat - 1)

/-- Bits are counted in whole numbers, and there must not be too many to be counted. -/
def checkCountable (wordBits : Number) (width : Int) : Except Failure Unit := do
  match wordBits with
  | .real _ =>
    let _ ← wordBits.minus (.int width)
    throw .wrongType
  | .int _ => if maxCountedBits ≤ width then throw .overflow

/-- An item with its full name, and its width. -/
def nameItem (path : Path) (index : Nat) (byteOffset wordBits : Number) (i : Item) :
    Except Failure (Item × Int) := do
  let (fullName, _) ← nodeName i.header path index
  if i.header.givenName?.isNone && i.enumeration.isSome then
    throw (.ofCause fullName .itemEnumUnused)
  match itemWidth? i.bits with
  | none => throw (.ofCause fullName (.itemWidth i.bits))
  | some width =>
    if let some entries := i.enumeration then
      checkEnumeration fullName 0 (← greatestValue width) entries
    checkCountable wordBits width
    return ({ i with header := i.header.placedAt fullName byteOffset }, width)

/-- The items with their full names and widths, numbered from `index`. -/
def nameItems (path : Path) (byteOffset wordBits : Number) (index : Nat) :
    List Item → Except Failure (List (Item × Int))
  | [] => .ok []
  | i :: rest => do
    let named ← nameItem path index byteOffset wordBits i
    return named :: (← nameItems path byteOffset wordBits (index + 1) rest)

/-- The `width` indices just below `endBit`, ascending. -/
def bitsBelow (endBit width : Int) : List Int :=
  (List.range width.toNat).map fun (k : Nat) => endBit - width + k

/-- Bit ranges from `endBit` down, each item below the one before it. -/
def assignRanges (endBit : Int) : List (Item × Int) → List Item
  | [] => []
  | (i, width) :: rest =>
    { i with bitRange := some (bitsBelow endBit width) } :: assignRanges (endBit - width) rest

/-- The bits of a word that its items leave over, negative if they need more than it has. -/
def leftOver (wordBits : Number) (named : List (Item × Int)) : Number :=
  wordBits.shift (-named.foldr (fun item total => item.2 + total) 0)

def placeBitField (b : BitField) (fullName : Text) (path : Path) (start : Number) :
    Except Failure (BitField × Number) := do
  match wordWidth? b.bits with
  | none => throw (.ofCause fullName (.bitfieldWidth b.bits))
  | some width =>
    let named ← nameItems path start width 0 b.items
    let rest := leftOver width named
    if !rest.isZero then throw (.ofCause fullName (.widthSum rest))
    let placed :=
      { b with
        header := b.header.placedAt fullName start
        items := assignRanges width.truncate named }
    return (placed, ← start.plus (width.floorDiv 8))

/-! ## Words and blobs -/

/-- What only a named word may carry. -/
def unusedAttribute? (w : Word) : Option Cause :=
  if w.header.givenName?.isSome then none
  else if w.enumeration.isSome then some .enumUnused
  else if w.typedef.isSome then some .typedefUnused
  else if w.signed.isSome then some .signedUnused
  else none

/-- The least and the greatest value of a word. -/
def valueBounds (signed : Bool) (width : Nat) : Int × Int :=
  if signed then (-Int.pow 2 (width - 1), Int.pow 2 (width - 1) - 1) else (0, Int.pow 2 width - 1)

/-- An offset that is a multiple of a width in bytes. -/
def isAligned (start width : Number) : Except Failure Bool := do
  match width with
  | .int bits => return (start.mod (bits.fdiv 8)).isZero
  | .real _ => return ((Number.real (← start.asReal)).mod (width.floorDiv 8).truncate).isZero

def placeWord (w : Word) (fullName : Text) (start : Number) :
    Except Failure (Word × Number) := do
  match wordWidth? w.bits with
  | none => throw (.ofCause fullName (.wordWidth w.bits))
  | some width =>
    if !(← isAligned start width) then throw (.ofCause fullName (.misaligned w.bits start))
    if let some cause := unusedAttribute? w then throw (.ofCause fullName cause)
    if let some entries := w.enumeration then
      match width with
      | .real _ => throw .wrongType
      | .int bits =>
        let (least, greatest) := valueBounds (filled? w.signed).isSome bits.toNat
        checkEnumeration fullName least greatest entries
    return ({ w with header := w.header.placedAt fullName start },
      ← start.plus (width.floorDiv 8))

def placeBlob (b : Blob) (fullName : Text) (start : Number) :
    Except Failure (Blob × Number) := do
  match b.bytes.int?.filter (1 ≤ ·) with
  | none => throw (.ofCause fullName (.blobSize b.bytes))
  | some n =>
    return ({ b with header := b.header.placedAt fullName start }, ← start.plus (.int n))

/-! ## Trees -/

/-- A node in a message about its parent: by its name, or by its index. -/
def childValue (h : Header) (index : Nat) : Value := h.givenName?.getD (.int index)

/-- What a struct refuses in a child that is reached at an offset. -/
def fieldFault? (index : Nat) (start : Number) (child : Field) : Option Cause :=
  match child with
  | .struct h _ => some (.structInStruct (childValue h index))
  | child =>
    match child.header.offset with
    | none => none
    | some given =>
      if (given.number?.map start.same).getD false then none
      else some (.fieldOffset (childValue child.header index) given start)

/-- What a union refuses in a member. -/
def memberFault? (union : Text) (member : Field) : Option Cause :=
  if member.header.offset.isSome then some (.memberOffset union) else
  match member with
  | .blob b => if b.decl.isNone then some (.memberDecl union) else none
  | member => if member.header.givenName?.isNone then some (.memberName union) else none

namespace Field

mutual

/-- A tree placed from an offset on, and the offset behind it. -/
def place (path : Path) (index : Nat) (start : Number) : Field → Except Failure (Field × Number)
  | word w => do
    let (fullName, _) ← nodeName w.header path index
    let (w, stop) ← placeWord w fullName start
    return (word w, stop)
  | bitfield b => do
    let (fullName, path) ← nodeName b.header path index
    let (b, stop) ← placeBitField b fullName path start
    return (bitfield b, stop)
  | blob b => do
    let (fullName, _) ← nodeName b.header path index
    let (b, stop) ← placeBlob b fullName start
    return (blob b, stop)
  | struct h fields => do
    let (fullName, path) ← nodeName h path index
    let (fields, stop) ← placeFields fullName path 0 start fields
    let _ ← sumSizes 0 fields
    return (struct (h.placedAt fullName start) fields, stop)
  | union h members => do
    let (fullName, path) ← nodeName h path index
    if h.givenName?.isNone then throw (.ofCause fullName .unnamedUnion)
    if members.isEmpty then throw (.ofCause fullName .emptyUnion)
    let (members, stop) ← placeMembers fullName path 0 start start members
    return (union (h.placedAt fullName start) members, stop)
  | stray i => do
    let _ ← nodeName i.header path index
    throw .strayItem
termination_by structural f => f

/-- The fields of a struct, one behind the other. -/
def placeFields (parent : Text) (path : Path) (index : Nat) (start : Number) :
    List Field → Except Failure (List Field × Number)
  | [] => .ok ([], start)
  | f :: fs => do
    if let some cause := fieldFault? index start f then throw (.ofCause parent cause)
    let (placed, stop) ← place path index start f
    let (rest, stop) ← placeFields parent path (index + 1) stop fs
    return (placed :: rest, stop)
termination_by structural fs => fs

/-- The members of a union, all from one offset; the union ends behind the longest. -/
def placeMembers (parent : Text) (path : Path) (index : Nat) (start longest : Number) :
    List Field → Except Failure (List Field × Number)
  | [] => .ok ([], longest)
  | f :: fs => do
    let (placed, stop) ← place path index start f
    if let some cause := memberFault? parent f then throw (.ofCause placed.fullName cause)
    let (rest, stop) ← placeMembers parent path (index + 1) start (longest.max stop) fs
    return (placed :: rest, stop)
termination_by structural fs => fs

end

/-- The root starts at zero, whatever its author says. -/
def checkRootOffset (root : Field) : Except Failure Unit :=
  match root.header.offset with
  | none => .ok ()
  | some given =>
    if (given.number?.map (Number.same 0)).getD false then .ok ()
    else .error (.atNode ((filled? root.header.label?).getD (.str [])) (.rootOffset given))

/-- A whole tree placed from offset zero, with unique names. -/
def resolve (root : Field) : Except Failure Field := do
  checkRootOffset root
  let (placed, _) ← place [] 0 0 root
  checkUniqueNames placed
  return placed

end Field

end RegisterLayout
