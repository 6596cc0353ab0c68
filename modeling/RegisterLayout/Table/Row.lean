import RegisterLayout.Placement
import RegisterLayout.Table.TextTable

/-!
# Tables of layouts

One row for every node of a placed tree, a node before its children, which are indented below it.
The items of a bit field also show their bits and their mask in the word.

Principal definitions: `mask`, `Field.rows`, `Field.table`.
-/

namespace RegisterLayout

/-- The bits that a number shares with a whole number.  A negative one has all bits but those of its
complement. -/
def sharedBits (n : Nat) : Int → Nat
  | .ofNat m => n &&& m
  | .negSucc m => n ^^^ (n &&& m)

/-- The number whose bits from `low` up to `high` are set: all bits up to `high` but those below
`low`. -/
def mask (high low : Int) : Except Failure Nat :=
  if high < -1 ∨ low < 0 then .error .negativeShift
  else .ok (sharedBits (1 <<< (high + 1).toNat - 1) (~~~(1 <<< low.toNat - 1 : Nat)))

/-- What the table says about one node. -/
structure Row where
  depth : Nat
  fullName : Text
  kind : Text
  offset : Text
  bits : Value
  align : Option Value
  bitRange : Text
  mask : Text
  deriving Repr

def Row.headers : List Text :=
  ["FQN", "Kind", "Offset", "Bits", "Align", "Bit range", "Mask"]

/-- The full name behind two spaces for every level. -/
def Row.indentedName (r : Row) : Text := Text.blanks (2 * r.depth) ++ r.fullName

def Row.cells (r : Row) : List Value := [
  .str r.indentedName, .str r.kind, .str r.offset, r.bits, r.align.getD .null,
  .str r.bitRange, .str r.mask]

/-- A value as the table shows it: whole numbers in hexadecimal digits. -/
def hexText (v : Value) : Except Failure Text :=
  match v, v.number? with
  | _, some n =>
    match n.hexText? with
    | some text => .ok text
    | none => .error .hexOfReal
  | .str _, none => .error .hexOfText
  | _, none => .error .wrongType

/-- The row of a node that was placed, with the texts for its bits. -/
def rowOfNode (depth : Nat) (kind : Text) (h : Header) (size : Except Failure Value)
    (bitTexts : Except Failure (Text × Text)) : Except Failure Row := do
  let some fullName := h.position.fullName | throw .wrongType
  let some byteOffset := h.position.byteOffset | throw .wrongType
  let offset ← hexText byteOffset
  let bits ← size
  let (bitRange, mask) ← bitTexts
  return { depth, fullName, kind, offset, bits, align := h.position.align, bitRange, mask }

/-- The bits of an item and their mask. -/
def Item.bitTexts (i : Item) : Except Failure (Text × Text) :=
  match i.bitRange with
  | none => .error .wrongType
  | some range =>
    match range.head?, range.getLast? with
    | some low, some high => do
      let text := if range.length = 1 then toString low
        else toString high ++ ":" ++ toString low
      return (Text.ofString text, ← hexText (.int (← RegisterLayout.mask high low)))
    | _, _ => .error .outOfRange

def Item.row (depth : Nat) (i : Item) : Except Failure Row :=
  rowOfNode depth "bit" i.header (.ok i.bits) i.bitTexts

namespace Field

/-- The row of a node that is no item. -/
def ownRow (depth : Nat) (f : Field) : Except Failure Row :=
  rowOfNode depth f.kindName f.header f.sizeBits (.ok ([], []))

mutual

/-- The rows of a tree, those of children one level deeper. -/
def rows (depth : Nat) : Field → Except Failure (List Row)
  | stray i => return [← i.row depth]
  | bitfield b => do
    let own ← ownRow depth (bitfield b)
    return own :: (← b.items.mapM (Item.row (depth + 1)))
  | struct h fields => do
    let own ← ownRow depth (struct h fields)
    return own :: (← rowsAll (depth + 1) fields)
  | union h members => do
    let own ← ownRow depth (union h members)
    return own :: (← rowsAll (depth + 1) members)
  | f => return [← ownRow depth f]
termination_by structural f => f

def rowsAll (depth : Nat) : List Field → Except Failure (List Row)
  | [] => .ok []
  | f :: fs => do
    let own ← rows depth f
    return own ++ (← rowsAll depth fs)
termination_by structural fs => fs

end

/-- The table of a placed tree. -/
def table (root : Field) : Except Failure Text := do
  if !root.isPlaced then throw (.unplaced "layout_table")
  TextTable.render Row.headers ((← rows 0 root).map Row.cells)

end Field

end RegisterLayout
