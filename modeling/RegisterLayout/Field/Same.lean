import RegisterLayout.Field.Basic

/-!
# Equality of layouts

Two trees are the same if their nodes are of the same kinds and carry the same attributes, those
of their placement included.  Numbers compare by value, and the order of the constants of an
enumeration does not count.

Principal definition: `Field.same`.
-/

namespace RegisterLayout

/-- Both absent, or both there and related. -/
def sameOption {α : Type} (same : α → α → Bool) : Option α → Option α → Bool
  | none, none => true
  | some a, some b => same a b
  | _, _ => false

/-- Both absent, or both there and the same. -/
def sameValue (a b : Option Value) : Bool := sameOption Value.same a b

def Position.same (p q : Position) : Bool :=
  p.fullName == q.fullName && sameValue p.align q.align && sameValue p.byteOffset q.byteOffset

def Header.same (h k : Header) : Bool :=
  sameValue h.name k.name && sameValue h.shortName k.shortName && sameValue h.desc k.desc
    && sameValue h.offset k.offset && h.position.same k.position

def sameEnumeration (a b : Option Enumeration) : Bool :=
  sameOption (fun x y => (Value.map x).same (.map y)) a b

def Item.same (i j : Item) : Bool :=
  i.header.same j.header && i.bits.same j.bits && sameEnumeration i.enumeration j.enumeration
    && sameValue i.only j.only && i.bitRange == j.bitRange

def Word.same (w v : Word) : Bool :=
  w.header.same v.header && w.bits.same v.bits && sameValue w.signed v.signed
    && sameValue w.typedef v.typedef && sameEnumeration w.enumeration v.enumeration

/-- Lists of one length with related elements. -/
def sameList {α : Type} (same : α → α → Bool) : List α → List α → Bool
  | [], [] => true
  | a :: as, b :: bs => same a b && sameList same as bs
  | _, _ => false

def BitField.same (a b : BitField) : Bool :=
  a.header.same b.header && a.bits.same b.bits && sameList Item.same a.items b.items

def Blob.same (a b : Blob) : Bool :=
  a.header.same b.header && a.bytes.same b.bytes && sameValue a.decl b.decl

namespace Field

mutual

def same : Field → Field → Bool
  | word w, g => match g with | word v => w.same v | _ => false
  | bitfield a, g => match g with | bitfield b => a.same b | _ => false
  | blob a, g => match g with | blob b => a.same b | _ => false
  | struct h fs, g => match g with | struct k gs => h.same k && sameAll fs gs | _ => false
  | union h fs, g => match g with | union k gs => h.same k && sameAll fs gs | _ => false
  | stray i, g => match g with | stray j => i.same j | _ => false
termination_by structural f => f

def sameAll : List Field → List Field → Bool
  | [], gs => gs.isEmpty
  | f :: fs, gs =>
    match gs with
    | g :: gs => same f g && sameAll fs gs
    | [] => false
termination_by structural fs => fs

end

end Field

end RegisterLayout
