import RegisterLayout.Failure

/-!
# Fields of a layout

A layout is a tree of fields: words, bit fields made of items, byte blobs, and structs and
unions of further fields.  An author writes names, descriptions, widths and offsets; placing the
tree fills in the position of every node and the bit range of every item.

An attribute is any value that a document can hold: a document that was checked against the schema
has texts, numbers and truth values in the right places, any other has to be met with care.

Principal definitions: `Field`, `Item`, `Header`, `Position`, `Field.sizeBits`.
-/

namespace RegisterLayout

/-- Where a node was placed; nothing is known before. -/
structure Position where
  /-- The name that is unique in the tree. -/
  fullName : Option Text := none
  /-- The largest power of two, up to a cap, that divides the offset. -/
  align : Option Value := none
  byteOffset : Option Value := none
  deriving Inhabited, Repr

/-- What every node carries, as its author wrote it, and its position. -/
structure Header where
  name : Option Value := none
  shortName : Option Value := none
  desc : Option Value := none
  offset : Option Value := none
  position : Position := {}
  deriving Inhabited, Repr

/-- The constants of an enumeration, in the order they were written. -/
abbrev Enumeration := List (Value × Value)

/-- Some consecutive bits of a bit field. -/
structure Item where
  header : Header := {}
  bits : Value
  enumeration : Option Enumeration := none
  /-- The one access that the item allows, if it is restricted. -/
  only : Option Value := none
  /-- The indices of the bits in the word, lowest first. -/
  bitRange : Option (List Int) := none
  deriving Inhabited, Repr

structure Word where
  header : Header := {}
  bits : Value
  signed : Option Value := none
  typedef : Option Value := none
  enumeration : Option Enumeration := none
  deriving Inhabited, Repr

/-- A word divided into items, the first of which holds the highest bits. -/
structure BitField where
  header : Header := {}
  bits : Value
  items : List Item := []
  deriving Inhabited, Repr

/-- Bytes without inner structure; `decl` is the declaration to print for them. -/
structure Blob where
  header : Header := {}
  bytes : Value
  decl : Option Value := none
  deriving Inhabited, Repr

/-- The kinds of fields that a document can describe. -/
inductive FieldKind where
  | word
  | bitfield
  | struct
  | blob
  | union
  deriving DecidableEq, Repr

namespace FieldKind

def all : List FieldKind := [word, bitfield, struct, blob, union]

/-- The word for a kind in documents, tables and messages. -/
def name : FieldKind → String
  | word => "word"
  | bitfield => "bitfield"
  | struct => "struct"
  | blob => "opaque"
  | union => "union"

/-- The kind that a value names. -/
def ofValue? (v : Value) : Option FieldKind := all.find? fun k => v.same (.str k.name)

end FieldKind

/-- A node of a layout.  `stray` is an item outside of any bit field, which no layout admits. -/
inductive Field where
  | word (w : Word)
  | bitfield (b : BitField)
  | blob (b : Blob)
  | struct (header : Header) (fields : List Field)
  | union (header : Header) (members : List Field)
  | stray (item : Item)
  deriving Inhabited, Repr

/-- A value that is there and counts as a yes. -/
def filled? (v : Option Value) : Option Value := v.filter Value.isTruthy

@[simp] theorem filled?_none : filled? none = none := rfl

@[simp] theorem filled?_str (s : Text) :
    filled? (some (.str s)) = if s = [] then none else some (.str s) := by
  by_cases h : s = [] <;> simp [filled?, Option.filter, h]

namespace Header

/-- The name that counts: an empty one is none. -/
def givenName? (h : Header) : Option Value := filled? h.name

/-- The short name if there is one, otherwise the name. -/
def label? (h : Header) : Option Value :=
  match filled? h.shortName with
  | some s => some s
  | none => h.name

end Header

namespace Field

def header : Field → Header
  | word w => w.header
  | bitfield b => b.header
  | blob b => b.header
  | struct h _ => h
  | union h _ => h
  | stray i => i.header

/-- The word for the kind of a node in tables and messages. -/
def kindName : Field → String
  | word _ => FieldKind.word.name
  | bitfield _ => FieldKind.bitfield.name
  | blob _ => FieldKind.blob.name
  | struct _ _ => FieldKind.struct.name
  | union _ _ => FieldKind.union.name
  | stray _ => "bit"

/-- The full name that a placed node carries. -/
def fullName (f : Field) : Text := f.header.position.fullName.getD []

def isPlaced (f : Field) : Bool := f.header.position.fullName.isSome

/-- A struct that holds the field, unless it is a struct already. -/
def asStruct : Field → Field
  | f@(struct _ _) => f
  | f => struct { position := ⟨some [], some 1024, some 0⟩ } [f]

end Field

/-! ## Sizes -/

namespace Value

/-- The sum of two sizes. -/
def addSize (a b : Value) : Except Failure Value := do
  return .num (← (← a.number).plus (← b.number))

/-- The first of two sizes unless the second is above it. -/
def maxSize (a b : Value) : Except Failure Value := do
  return if (← a.number).lt (← b.number) then b else a

/-- The bits of a count of bytes. -/
def bytesToBits (v : Value) : Except Failure Value := do return .num ((← v.number).scale 8)

end Value

namespace Field

mutual

/-- The size of a node in bits: a struct holds its fields one after the other, a union all of
its members at one place. -/
def sizeBits : Field → Except Failure Value
  | word w => .ok w.bits
  | bitfield b => .ok b.bits
  | blob b => b.bytes.bytesToBits
  | struct _ fields => sumSizes 0 fields
  | union _ [] => .ok 0
  | union _ (f :: fs) => do maxSizes (← sizeBits f) fs
  | stray i => .ok i.bits
termination_by structural f => f

def sumSizes (total : Value) : List Field → Except Failure Value
  | [] => .ok total
  | f :: fs => do sumSizes (← total.addSize (← sizeBits f)) fs
termination_by structural fs => fs

def maxSizes (largest : Value) : List Field → Except Failure Value
  | [] => .ok largest
  | f :: fs => do maxSizes (← largest.maxSize (← sizeBits f)) fs
termination_by structural fs => fs

end

/-- The size of a node in whole bytes. -/
def sizeBytes (f : Field) : Except Failure Number := do
  return (← (← f.sizeBits).number).floorDiv 8

end Field

def Item.sizeBytes (i : Item) : Except Failure Number := do
  return (← i.bits.number).floorDiv 8

end RegisterLayout
