import RegisterLayout.Document.Tag
import RegisterLayout.Document.Token

/-!
# Nodes of a document

A document read as a tree: scalars, sequences and mappings, each with its tag and the offset at
which it starts.  An alias is the node that its anchor marks; the anchor comes first.  A collection
may hold an alias of itself or of a collection around it; it then stands in the tree as a mark.

Principal definitions: `Node`, `Node.ofTokens`, `Node.ofText`, `Node.find`.
-/

namespace RegisterLayout.Document

/-- A node with the offset of its start, or the mark of a collection that contains itself. -/
inductive Node where
  | scalar (start : Nat) (tag : Tag) (text : Text)
  | sequence (start : Nat) (tag : Tag) (items : List Node)
  | mapping (start : Nat) (tag : Tag) (entries : List (Node × Node))
  | again (l : Loop)
  deriving Inhabited, Repr

namespace Node

/-- Where a node starts; a mark has no place of its own. -/
def start : Node → Nat
  | scalar start _ _ => start
  | sequence start _ _ => start
  | mapping start _ _ => start
  | again _ => 0

def isAgain : Node → Bool
  | again _ => true
  | _ => false

/-- A node with a mark among its children. -/
def holdsAgain : Node → Bool
  | sequence _ _ items => items.any isAgain
  | mapping _ _ entries => entries.any fun (key, value) => key.isAgain || value.isAgain
  | _ => false

/-- The body of a mark; any other node is itself. -/
def opened (loops : Loops Node) : Node → Node
  | again l => (loops.lookup l).getD (again l)
  | n => n

end Node

/-! ## Reading nodes off tokens -/

/-- What is left to read, and how many tokens can be used before a fault of the text shows; the
anchors met so far, and what the handles of tags stand for.  A collection is numbered when its
reading begins, and its anchor stands for its mark until the end; it is among the loops if marks
were found in it.  `depth` counts the collections around the node that is being read. -/
structure NodeReader where
  tokens : List Token
  fault : Option (Nat × Failure) := none
  anchors : List (String × Node) := []
  handles : List (String × String) := []
  opened : Nat := 0
  depth : Nat := 0
  loops : Loops Node := []

abbrev ReadNode := StateT NodeReader (Except Failure)

namespace NodeReader

def fail {α : Type} : ReadNode α := throw .malformedText

/-- The next token; behind the last one it stays at the end of the text. -/
def peek : ReadNode Token := do
  let r ← get
  if let some (0, e) := r.fault then throw e
  match r.tokens with
  | t :: _ => return t
  | [] => return ⟨.endOfText, 0, 0⟩

def peekKind : ReadNode TokenKind := return (← peek).kind

def next : ReadNode Token := do
  let t ← peek
  modify fun r => { r with
    tokens := r.tokens.drop 1
    fault := r.fault.map fun (count, e) => (count - 1, e) }
  return t

/-- The node that stands where nothing is written. -/
def emptyNode (offset : Nat) : Node := .scalar offset .null []

/-- The handles that need no directive. -/
def commonHandles : List (String × String) := [("!", "!"), ("!!", Tag.commonNames)]

/-- What is written before a node: an anchor and the name of a tag, in either order, and the
offset where they start. -/
structure Properties where
  anchor : Option String := none
  tag : Option String := none
  start : Option Nat := none

/-- The full name of a tag. -/
def tagName (handle : Option String) (suffix : String) : ReadNode String := do
  match handle with
  | none => return suffix
  | some handle =>
    match (← get).handles.lookup handle with
    | some replacement => return replacement ++ suffix
    | none => fail

def properties : ReadNode Properties := do
  let t ← peek
  match t.kind with
  | .anchor name =>
    let _ ← next
    match ← peekKind with
    | .tag handle suffix =>
      let _ ← next
      return ⟨some name, some (← tagName handle suffix), some t.start⟩
    | _ => return ⟨some name, none, some t.start⟩
  | .tag handle suffix =>
    let _ ← next
    let anchor ← match ← peekKind with
      | .anchor name => do
        let _ ← next
        pure (some name)
      | _ => pure none
    return ⟨anchor, some (← tagName handle suffix), some t.start⟩
  | _ => return {}

/-- The tag of a collection; a lone mark says as little as no tag. -/
def Properties.collectionTag (p : Properties) (default : Tag) : Tag :=
  match p.tag with
  | none | some "!" => default
  | some name => .ofName name

/-- The tag of a scalar; without one a plain scalar has that of its form. -/
def Properties.scalarTag (p : Properties) (text : Text) (plain : Bool) : Tag :=
  match p.tag with
  | none => if plain then .ofPlain text else .str
  | some "!" => .ofPlain text
  | some name => .ofName name

/-- An anchor is used once in a document. -/
def checkAnchor (name : Option String) : ReadNode Unit := do
  if let some name := name then
    if ((← get).anchors.lookup name).isSome then fail

def setAnchor (name : Option String) (node : Node) : ReadNode Unit := do
  if let some name := name then modify fun r => { r with anchors := (name, node) :: r.anchors }

/-- The most collections that stand one inside the other.  The reader goes down by recursion, and
this is how far it is assumed to get.  No limit is assumed for what is done with a document or a
layout that was read: checking, building and placing one goes as deep as it goes. -/
def maxDepth : Nat := 489

/-- Begins a collection, which from then on has its anchor. -/
def openCollection (anchor : Option String) (isMapping : Bool) : ReadNode Loop := do
  if maxDepth ≤ (← get).depth then throw .tooDeep
  let l : Loop := ⟨(← get).opened, isMapping⟩
  modify fun r => { r with opened := r.opened + 1, depth := r.depth + 1 }
  setAnchor anchor (.again l)
  return l

/-- Ends a collection.  One with marks in it is kept apart, and a mark takes its place. -/
def closeCollection (l : Loop) (node : Node) : ReadNode Node := do
  modify fun r => { r with depth := r.depth - 1 }
  if node.holdsAgain then
    modify fun r => { r with loops := (l, node) :: r.loops }
    return .again l
  return node

/-- A collection between its begin and its end. -/
def collection (anchor : Option String) (isMapping : Bool) (read : ReadNode Node) :
    ReadNode Node := do
  let l ← openCollection anchor isMapping
  let node ← closeCollection l (← read)
  setAnchor anchor node
  return node

def readAlias (name : String) : ReadNode Node := do
  match (← get).anchors.lookup name with
  | some node => return node
  | none => fail

/-- The contexts in which a node is read: only outside of brackets can it be a block, and only
the parts of a mapping can be a sequence that is not indented. -/
inductive Context where
  | flow
  | block
  | entry
  deriving DecidableEq

mutual

/-- A node with its properties. -/
def readNode : Nat → Context → ReadNode Node
  | 0, _ => fail
  | fuel + 1, context => do
    if let .alias name ← peekKind then
      let _ ← next
      return ← readAlias name
    let p ← properties
    let t ← peek
    let start := p.start.getD t.start
    checkAnchor p.anchor
    let sequence (items : ReadNode (List Node)) : ReadNode Node :=
      collection p.anchor false do return .sequence start (p.collectionTag .seq) (← items)
    let mapping (entries : ReadNode (List (Node × Node))) : ReadNode Node :=
      collection p.anchor true do return .mapping start (p.collectionTag .map) (← entries)
    let scalar (text : Text) (plain : Bool) : ReadNode Node := do
      let node := Node.scalar start (p.scalarTag text plain) text
      setAnchor p.anchor node
      return node
    match t.kind with
    | .scalar text plain => do
      let _ ← next
      scalar text plain
    | .flowSequenceStart => do
      let _ ← next
      sequence (readFlowSequence fuel true)
    | .flowMappingStart => do
      let _ ← next
      mapping (readFlowMapping fuel true)
    | kind =>
      if kind = .blockEntry ∧ context = .entry then sequence (readFlatSequence fuel)
      else if kind = .blockSequenceStart ∧ context ≠ .flow then do
        let _ ← next
        sequence (readBlockSequence fuel)
      else if kind = .blockMappingStart ∧ context ≠ .flow then do
        let _ ← next
        mapping (readBlockMapping fuel)
      else if p.start.isSome then scalar [] true
      else fail

/-- The entries of an indented sequence. -/
def readBlockSequence : Nat → ReadNode (List Node)
  | 0 => fail
  | fuel + 1 => do
    let t ← next
    match t.kind with
    | .blockEntry =>
      let node ← match ← peekKind with
        | .blockEntry | .blockEnd => pure (emptyNode t.stop)
        | _ => readNode fuel .block
      return node :: (← readBlockSequence fuel)
    | .blockEnd => return []
    | _ => fail

/-- The entries of a sequence that is indented no more than the mapping around it. -/
def readFlatSequence : Nat → ReadNode (List Node)
  | 0 => fail
  | fuel + 1 => do
    match ← peekKind with
    | .blockEntry =>
      let t ← next
      let node ← match ← peekKind with
        | .blockEntry | .key | .value | .blockEnd => pure (emptyNode t.stop)
        | _ => readNode fuel .block
      return node :: (← readFlatSequence fuel)
    | _ => return []

/-- A part of a block mapping behind its indicator, which stops at an offset. -/
def readBlockPart : Nat → Nat → ReadNode Node
  | 0, _ => fail
  | fuel + 1, stop => do
    match ← peekKind with
    | .key | .value | .blockEnd => return emptyNode stop
    | _ => readNode fuel .entry

/-- The entries of a block mapping, a key before every value. -/
def readBlockMapping : Nat → ReadNode (List (Node × Node))
  | 0 => fail
  | fuel + 1 => do
    let t ← next
    match t.kind with
    | .key =>
      let key ← readBlockPart fuel t.stop
      let value ← readBlockValue fuel
      return (key, value) :: (← readBlockMapping fuel)
    | .blockEnd => return []
    | _ => fail

/-- The value of a block mapping's entry, if there is one. -/
def readBlockValue : Nat → ReadNode Node
  | 0 => fail
  | fuel + 1 => do
    let t ← peek
    match t.kind with
    | .value =>
      let _ ← next
      readBlockPart fuel t.stop
    | _ => return emptyNode t.start

/-- The entries of a sequence in brackets, a comma before each but the first; a pair among them
is a mapping of its own. -/
def readFlowSequence : Nat → Bool → ReadNode (List Node)
  | 0, _ => fail
  | fuel + 1, first => do
    if (← peekKind) = .flowSequenceEnd then
      let _ ← next
      return []
    if !first then
      if (← next).kind ≠ .flowEntry then fail
    let t ← peek
    match t.kind with
    | .key =>
      let _ ← next
      let pair ← collection none true do
        let key ← match ← peekKind with
          | .value | .flowEntry | .flowSequenceEnd => pure (emptyNode t.stop)
          | _ => readNode fuel .flow
        return .mapping t.start .map [(key, ← readFlowValue fuel .flowSequenceEnd)]
      return pair :: (← readFlowSequence fuel false)
    | .flowSequenceEnd =>
      let _ ← next
      return []
    | _ =>
      let node ← readNode fuel .flow
      return node :: (← readFlowSequence fuel false)

/-- The value of an entry in brackets, if there is one. -/
def readFlowValue : Nat → TokenKind → ReadNode Node
  | 0, _ => fail
  | fuel + 1, closing => do
    let t ← peek
    match t.kind with
    | .value =>
      let _ ← next
      let kind ← peekKind
      if kind = .flowEntry ∨ kind = closing then return emptyNode t.stop
      readNode fuel .flow
    | _ => return emptyNode t.start

/-- The entries of a mapping in brackets, a comma before each but the first. -/
def readFlowMapping : Nat → Bool → ReadNode (List (Node × Node))
  | 0, _ => fail
  | fuel + 1, first => do
    if (← peekKind) = .flowMappingEnd then
      let _ ← next
      return []
    if !first then
      if (← next).kind ≠ .flowEntry then fail
    let t ← peek
    match t.kind with
    | .key =>
      let _ ← next
      let key ← match ← peekKind with
        | .value | .flowEntry | .flowMappingEnd => pure (emptyNode t.stop)
        | _ => readNode fuel .flow
      let value ← readFlowValue fuel .flowMappingEnd
      return (key, value) :: (← readFlowMapping fuel false)
    | .flowMappingEnd =>
      let _ ← next
      return []
    | _ =>
      let key ← readNode fuel .flow
      let t ← peek
      return (key, emptyNode t.start) :: (← readFlowMapping fuel false)

end

/-! ## Whole documents -/

/-- The directives before a document: at most one version, which has to be 1, and every handle
once. -/
def readDirectives : Nat → Bool → ReadNode Unit
  | 0, _ => fail
  | fuel + 1, versionKnown => do
    match ← peekKind with
    | .directive d =>
      let _ ← next
      match d with
      | .version major =>
        if versionKnown || major ≠ 1 then fail
        readDirectives fuel true
      | .tagHandle handle replacement =>
        if ((← get).handles.lookup handle).isSome then fail
        modify fun r => { r with handles := (handle, replacement) :: r.handles }
        readDirectives fuel versionKnown
      | .unknown => readDirectives fuel versionKnown
    | _ => return ()

def skipDocumentEnds : Nat → ReadNode Unit
  | 0 => fail
  | fuel + 1 => do
    if (← peekKind) = .documentEnd then
      let _ ← next
      skipDocumentEnds fuel

private def addHandles (r : NodeReader) : NodeReader :=
  { r with handles := r.handles ++ commonHandles }

/-- The root of the only document; none if the text holds no document. -/
def readDocument (fuel : Nat) : ReadNode (Option Node) := do
  let root ← match ← peekKind with
    | .endOfText => pure none
    | .directive _ | .documentStart => do
      readDirectives fuel false
      modify addHandles
      if (← peekKind) ≠ .documentStart then fail
      let _ ← next
      let t ← peek
      match t.kind with
      | .directive _ | .documentStart | .documentEnd | .endOfText =>
        pure (some (emptyNode t.start))
      | _ => pure (some (← readNode fuel .block))
    | _ => do
      modify addHandles
      pure (some (← readNode fuel .block))
  skipDocumentEnds fuel
  if (← peekKind) ≠ .endOfText then
    modify fun r => { r with handles := [] }
    readDirectives fuel false
    fail
  return root

end NodeReader

namespace Node

/-- The document that tokens form; none if there is no document. -/
def ofTokens (list : TokenList) : Except Failure (Option (Looped Node)) := do
  let reader : NodeReader := { tokens := list.tokens, fault := list.fault }
  let (root, r) ← (NodeReader.readDocument (4 * list.tokens.length + 16)).run reader
  return root.map fun root => ⟨root, r.loops⟩

/-- The document in a text; none if there is no document.  No document holds a surrogate. -/
def ofText (text : Text) : Except Failure (Option (Looped Node)) := do
  match text.chars? with
  | none => throw .malformedText
  | some chars => ofTokens (.ofText chars)

/-! ## Paths into a document -/

/-- The child of a sequence under an index, a negative one counting from the end; a truth value
counts as an index too. -/
def itemAt (items : List Node) (step : Value) : Except Failure (Option Node) :=
  match (match step with | .bool b => some (if b then 1 else 0) | step => step.int?) with
  | none => .ok none
  | some n =>
    if (items.length : Int) ≤ n then .ok none
    else
      let n := if n < 0 then n + items.length else n
      if n < 0 then .error .outOfRange else .ok items[n.toNat]?

/-- The value of the first entry whose key is a scalar with the text of a step. -/
def entryAt (step : Value) : List (Node × Node) → Except Failure (Option Node)
  | [] => .ok none
  | (scalar _ _ text, value) :: rest => do
    if text == (← step.written) then return some value
    entryAt step rest
  | _ :: rest => entryAt step rest

/-- One step down, if the node has such a child. -/
def child (node : Node) (step : Value) : Except Failure (Option Node) :=
  match node with
  | scalar .. | again _ => .ok none
  | sequence _ _ items => itemAt items step
  | mapping _ _ entries => entryAt step entries

/-- The deepest node on a path: where a step leads nowhere the path ends. -/
def findFrom (loops : Loops Node) (node : Node) : List Value → Except Failure Node
  | [] => .ok node
  | step :: path => do
    match ← node.child step with
    | none => return node
    | some next => findFrom loops (next.opened loops) path

/-- The deepest node on a path into a document. -/
def find (document : Looped Node) (path : List Value) : Except Failure Node :=
  findFrom document.loops (document.root.opened document.loops) path

end Node

end RegisterLayout.Document
