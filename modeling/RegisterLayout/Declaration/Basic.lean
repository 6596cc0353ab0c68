import RegisterLayout.Naming

/-!
# C declarations of a layout

The declarations that give a program access to a layout: the struct with a member for every
field, and for every bit field its macros, enumerations and accessor functions.  Each declaration
has its lines of text.  The values of macros and enumerations stand in a column of their own, which
is reached with tabs.

Principal definitions: `tabbed`; `Member`, `BitFieldBlock`, `Declarations` and their `lines`.
-/

namespace RegisterLayout

/-! ## Columns set with tabs -/

def tabWidth : Nat := 8

/-- The column of the second text. -/
def tabColumn : Nat := 56

/-- The length of a text when every tab counts as a full one. -/
def lengthWithTabs (s : Text) : Nat :=
  s.foldl (fun n c => n + if c = .char '\t' then tabWidth else 1) 0

/-- What stands between two texts: the tabs still missing to the column, or one space. -/
def columnGap (left : Text) : Text :=
  let reached := lengthWithTabs left / tabWidth
  if reached < tabColumn / tabWidth then
    List.replicate (tabColumn / tabWidth - reached) (.char '\t')
  else " "

def tabbed (left right : Text) : Text := left ++ columnGap left ++ right

/-! ## Declarations -/

/-- The type of a member that holds a word. -/
inductive WordType where
  | named (name : Text)
  | plain (signed : Bool) (bits : Value)
  deriving Inhabited, Repr

def WordType.text : WordType → Text
  | named name => name
  | plain signed bits => Text.ofString (if signed then "s" else "u") ++ bits.text

/-- A member of a struct or a union, or a comment before one. -/
inductive Member where
  | doc (text : Text)
  | word (type : WordType) (name : Text)
  | verbatim (decl : Text)
  | bytes (name : Text) (count : Value)
  | union (name : Option Text) (members : List Member)
  deriving Inhabited, Repr

namespace Member

mutual

/-- The lines of a member behind an indent. -/
def lines (indent : Text) : Member → List Text
  | doc text => [indent ++ "/** " ++ text ++ " */"]
  | word type name => [indent ++ type.text ++ " " ++ name ++ ";"]
  | verbatim decl => [indent ++ decl]
  | bytes name count => [indent ++ "u8 " ++ name ++ "[" ++ count.text ++ "];"]
  | union name members =>
    (indent ++ "union \x7b") :: linesAll (indent ++ "\t") members
      ++ [indent ++ "\x7d " ++ Cause.nameText name ++ ";"]
termination_by structural m => m

def linesAll (indent : Text) : List Member → List Text
  | [] => []
  | m :: ms => lines indent m ++ linesAll indent ms
termination_by structural ms => ms

end

end Member

/-- An enumeration with the constants of its entries. -/
structure EnumDeclaration where
  tag : Text
  constants : List (Text × Value)
  deriving Repr

def EnumDeclaration.lines (e : EnumDeclaration) : List Text :=
  let constants := e.constants.map fun (constant, value) =>
    tabbed ("\t" ++ constant) ("= " ++ value.text ++ ",")
  ("enum " ++ e.tag ++ " \x7b") :: constants ++ [Text.ofString "\x7d;"]

/-- The bits that a macro stands for. -/
inductive Mask where
  | bit (index : Int)
  | span (high low : Int)
  deriving DecidableEq, Repr

def Mask.text : Mask → Text
  | bit index => "BIT(" ++ toString index ++ ")"
  | span high low => "GENMASK(" ++ toString high ++ ", " ++ toString low ++ ")"

structure Macro where
  name : Text
  mask : Mask
  deriving Repr

def Macro.line (m : Macro) : Text := tabbed ("#define " ++ m.name) m.mask.text

/-- The type of an item's value. -/
inductive ValueType where
  | flag
  | unsigned (bits : Nat)
  | enum (tag : Text)
  deriving DecidableEq, Repr

def ValueType.text : ValueType → Text
  | flag => "bool"
  | unsigned bits => "u" ++ toString bits
  | enum tag => "enum " ++ tag

/-- The bits of an item within a member of a struct, as a program reaches them. -/
structure Target where
  item : Text
  type : ValueType
  macroName : Text
  struct : Text
  member : Text
  deriving DecidableEq, Repr

/-- An accessor function, or a comment before one. -/
inductive Accessor where
  | doc (text : Text)
  | getter (target : Target)
  | setter (target : Target)
  deriving Repr

/-- The name of the function that an accessor declares. -/
def Accessor.functionName? : Accessor → Option Text
  | doc _ => none
  | getter t => some ((if t.type = .flag then "is_" else "get_") ++ t.item)
  | setter t => some ("set_" ++ t.item)

def Accessor.lines (a : Accessor) : List Text :=
  let name := a.functionName?.getD ""
  match a with
  | doc text => ["/** " ++ text ++ " */"]
  | getter t => [
      "static inline " ++ t.type.text ++ " " ++ name ++ "(struct " ++ t.struct ++ " *x) \x7b",
      "\treturn FIELD_GET(" ++ t.macroName ++ ", x->" ++ t.member ++ ");",
      "\x7d"]
  | setter t => [
      "static inline void " ++ name ++ "(struct " ++ t.struct ++ " *x, " ++ t.type.text
        ++ " v) \x7b",
      "\tx->" ++ t.member ++ " = FIELD_SET(x->" ++ t.member ++ ", " ++ t.macroName ++ ", v);",
      "\x7d"]

/-- Where the word of a bit field is: in a struct of its own, or in a member of another. -/
inductive Backing where
  | ownStruct (name : Text) (bits : Value)
  | memberOf (struct member : Text)
  deriving Repr

def Backing.line : Backing → Text
  | ownStruct name bits => "struct " ++ name ++ " \x7b u" ++ bits.text ++ " word; \x7d;"
  | memberOf struct member => "/* " ++ struct ++ " " ++ member ++ " */"

/-- The struct that accessors take, and its member. -/
def Backing.place : Backing → Text × Text
  | ownStruct name _ => (name, "word")
  | memberOf struct member => (struct, member)

/-- All declarations for one bit field. -/
structure BitFieldBlock where
  backing : Backing
  enums : List EnumDeclaration
  macros : List Macro
  accessors : List Accessor
  deriving Repr

/-- A group of lines below an empty one; no group, no line. -/
def paragraph (lines : List Text) : List Text := if lines.isEmpty then [] else [] :: lines

def BitFieldBlock.lines (b : BitFieldBlock) : List Text :=
  b.backing.line :: paragraph (b.enums.flatMap EnumDeclaration.lines)
    ++ paragraph (b.macros.map Macro.line) ++ paragraph (b.accessors.flatMap Accessor.lines)
    ++ [[]]

/-- The struct of a layout and the declarations for its bit fields. -/
structure Declarations where
  structName : Text
  members : List Member
  blocks : List BitFieldBlock
  deriving Repr

namespace Declarations

def memberLines (d : Declarations) : List Text := Member.linesAll "\t" d.members

def blockLines (d : Declarations) : List Text := d.blocks.flatMap BitFieldBlock.lines

private def joinLines (lines : List Text) : Text := Text.joined "\n" lines ++ "\n"

def text (d : Declarations) : Text :=
  joinLines (("struct " ++ d.structName ++ " \x7b") :: d.memberLines ++ [Text.ofString "\x7d;"])
    ++ "\n" ++ joinLines d.blockLines

end Declarations

end RegisterLayout
