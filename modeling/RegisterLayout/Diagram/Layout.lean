import RegisterLayout.Diagram.Canvas

/-!
# Diagrams of layouts

The fields of a placed tree drawn one after the other: a word, a blob and a union have one cell
each, a bit field one for each of its items.  The legend has a line for every cell, and one for
every bit field before those of its items.

Principal definitions: `Canvas.drawField`, `Diagram`, `Field.diagram`.
-/

namespace RegisterLayout

/-- A finished diagram with its legend. -/
structure Diagram where
  title : Value
  cells : List Cell
  legend : List LegendLine
  totalBits : Number
  deriving Inhabited, Repr

namespace Canvas

/-- A count of bits in the legend. -/
def bitCount (v : Value) : Except Failure Value := do return .str ((← v.written) ++ " bit")

/-- The bits of an item in the legend: its indices in a word as wide as a row, otherwise their
count. -/
def itemBits (wordBits : Number) (i : Item) : Except Failure Value :=
  if wordBits.same (.int rowBits) then
    match i.bitRange with
    | none => .error .wrongType
    | some [bit] => .ok (.str ("bit " ++ toString bit : String))
    | some range =>
      match range.head?, range.getLast? with
      | some low, some high =>
        .ok (.str ("bits " ++ toString high ++ ".." ++ toString low : String))
      | _, _ => .error .outOfRange
  else bitCount i.bits

def drawItem (c : Canvas) (wordBits : Number) (i : Item) : Except Failure Canvas := do
  let bits ← i.bits.number
  let (label, name, c) ← c.chooseLabel i.header bits
  let c ← c.advance bits
  let row ← padLabel label bits
  let line := {
    name
    bits := ← itemBits wordBits i
    label := some (.str label)
    enumeration := i.enumeration
    desc := i.header.desc
    indent := 1 }
  return (c.addCell [row]).addLegend line

/-- The items of a bit field, which has to lie within one row. -/
def drawBitField (c : Canvas) (b : BitField) : Except Failure Canvas := do
  let bits ← b.bits.number
  let refuse (cause : Cause) := throw (.ofNode b.header.position.fullName cause)
  if (Number.int rowBits).lt bits then refuse .bitfieldOverRow
  if !(← c.staysOnRow bits) then
    refuse (.bitfieldStraddles c.bitOffset (← c.bitOffset.plus bits))
  let (name, c) := c.nameBitField b.header
  let line := { name, bits := ← bitCount b.bits, desc := b.header.desc }
  b.items.foldlM (fun c i => c.drawItem bits i) (c.addLegend line)

/-- A cell of its own with a line of the legend. -/
def drawCell (c : Canvas) (h : Header) (size : Value) (enumeration : Option Enumeration)
    (typedef : Option Value) : Except Failure Canvas := do
  let bits ← size.number
  let (label, name, c) ← c.chooseLabel h bits
  let line := {
    name, bits := ← bitCount size, label := some (.str label), enumeration, typedef
    desc := h.desc }
  match (c.addLegend line).pushCell label h.position.fullName bits with
  | .ok c => return c
  | .error (e, _) => throw e

def drawWord (c : Canvas) (w : Word) : Except Failure Canvas := do
  if (Number.int 64).lt (← w.bits.number) then
    throw (.ofNode w.header.position.fullName (.wideWord w.bits))
  c.drawCell w.header w.bits w.enumeration w.typedef

/-- A blob or a union: one cell of its size. -/
def drawWhole (c : Canvas) (f : Field) : Except Failure Canvas := do
  c.drawCell f.header (← f.sizeBits) none none

mutual

/-- A field of a struct; the fields of an inner struct are drawn as if they were its own. -/
def drawField (c : Canvas) : Field → Except Failure Canvas
  | .word w => c.drawWord w
  | .bitfield b => c.drawBitField b
  | .struct _ fields => drawFields c fields
  | .blob b => c.drawWhole (.blob b)
  | .union h members => c.drawWhole (.union h members)
  | .stray _ => .error .strayItem
termination_by structural f => f

def drawFields (c : Canvas) : List Field → Except Failure Canvas
  | [] => .ok c
  | f :: fs => do
    let c ← drawField c f
    drawFields c fs
termination_by structural fs => fs

end

end Canvas

/-- The title of a diagram: the name of the root, and its description behind it. -/
def Field.title (root : Field) : Except Failure Value :=
  let name := root.header.givenName?.getD (.str root.fullName)
  match filled? root.header.desc, name with
  | none, name => .ok name
  | some (.str desc), .str name => .ok (.str (name ++ " - " ++ desc))
  | _, _ => .error .wrongType

/-- The diagram of a placed tree. -/
def Field.diagram (root : Field) : Except Failure Diagram := do
  if !root.isPlaced then throw (.unplaced "layout")
  let c ← Canvas.drawField {} root
  return ⟨← root.title, c.cells, c.legend, c.bitOffset⟩

end RegisterLayout
