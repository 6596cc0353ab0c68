import RegisterLayout.Value.Admission

/-!
# Values of documents

What the nodes of an admitted document stand for.  A text is read as its tag says, a mapping takes
over the entries of the mappings merged into it, and of two entries with one key the later value
counts, at the place of the first.

Principal definitions: `Value.ofNode`, `Value.ofDocument`, `Value.ofText`.
-/

namespace RegisterLayout

open Document

namespace Value

/-- The value itself, if it can be a key. -/
def asKey (v : Value) : Except Failure Value :=
  if v.isKey then .ok v else .error .malformedText

theorem asKey_eq_ok_iff {v w : Value} : v.asKey = .ok w ↔ w = v ∧ v.isKey = true := by
  unfold asKey
  by_cases h : v.isKey = true
  · rw [if_pos h, Except.ok.injEq]
    exact ⟨fun heq => ⟨heq.symm, h⟩, fun heq => heq.1.symm⟩
  · rw [if_neg h]
    exact iff_of_false (fun heq => nomatch heq) fun heq => h heq.2

/-- A mapping from its entries; a set has its keys only. -/
def mappingOf (tag : Tag) (entries : List (Value × Value)) : Value :=
  let entries := putEntries entries
  if tag = .set then .set (entries.map Prod.fst) else .map entries

mutual

/-- The text of a scalar; a mapping with the key `=` stands for its value under that key. -/
def scalarText : Node → Except Failure Text
  | .scalar _ _ text => .ok text
  | .mapping _ _ entries => textAmong entries
  | .sequence .. | .again _ => .error .malformedText
termination_by structural n => n

def textAmong : List (Node × Node) → Except Failure Text
  | [] => .error .malformedText
  | (.scalar _ .value _, value) :: _ => scalarText value
  | _ :: rest => textAmong rest
termination_by structural entries => entries

end

mutual

/-- The value that a node stands for, when `inner` tells that of a mark. -/
def ofNode (inner : Loop → Except Failure Value) : Node → Except Failure Value
  | .again l => inner l
  | .scalar _ tag text => readScalar (if tag = .value then .str else tag) text
  | .sequence _ tag items =>
    match tag with
    | .seq => return .list (← ofNodes inner items)
    | .omap | .pairs => return .list (← pairsOf inner items)
    | _ => .error .malformedText
  | .mapping start tag entries =>
    match tag with
    | .map | .set => do
      let (merged, own) ← ofEntries inner entries
      return mappingOf tag (merged ++ own)
    | tag => do
      readScalar (if tag = .value then .str else tag) (← scalarText (.mapping start tag entries))
termination_by structural n => n

def ofNodes (inner : Loop → Except Failure Value) : List Node → Except Failure (List Value)
  | [] => .ok []
  | n :: ns => return (← ofNode inner n) :: (← ofNodes inner ns)
termination_by structural ns => ns

/-- The entries that are merged into a mapping, and its own. -/
def ofEntries (inner : Loop → Except Failure Value) :
    List (Node × Node) → Except Failure (List (Value × Value) × List (Value × Value))
  | [] => .ok ([], [])
  | (key, value) :: rest => do
    let (merged, own) ← ofEntries inner rest
    match key with
    | .scalar _ .merge _ => return ((← mergedEntries inner value) ++ merged, own)
    | key => return (merged, (← (← ofNode inner key).asKey, ← ofNode inner value) :: own)
termination_by structural entries => entries

/-- The entries of a mapping, or of every mapping in a sequence, the last one's first. -/
def mergedEntries (inner : Loop → Except Failure Value) :
    Node → Except Failure (List (Value × Value))
  | .scalar .. | .again _ => .error .malformedText
  | .mapping _ _ entries => do
    let (merged, own) ← ofEntries inner entries
    return merged ++ own
  | .sequence _ _ items => return (← mergedLists inner items).reverse.flatten
termination_by structural n => n

def mergedLists (inner : Loop → Except Failure Value) :
    List Node → Except Failure (List (List (Value × Value)))
  | [] => .ok []
  | n :: ns => return (← mergedEntries inner n) :: (← mergedLists inner ns)
termination_by structural ns => ns

/-- The one entry of each item of a sequence of pairs. -/
def pairsOf (inner : Loop → Except Failure Value) : List Node → Except Failure (List Value)
  | [] => .ok []
  | .mapping _ _ [(key, value)] :: rest => do
    return .tuple [← ofNode inner key, ← ofNode inner value] :: (← pairsOf inner rest)
  | _ :: _ => .error .malformedText
termination_by structural ns => ns

end

/-- The value of a mark: that of its body, if the body is a scalar, and otherwise the mark. -/
def ofLoop (loops : Loops Node) (l : Loop) : Except Failure Value :=
  match loops.lookup l with
  | some (.scalar _ tag text) => readScalar tag text
  | _ => .ok (.again l)

/-- The value that a document stands for. -/
def ofDocument (document : Looped Node) : Except Failure (Looped Value) := do
  let (loops, met) ← admittedLoops document
  let read := ofNode (ofLoop loops)
  let bodies ← met.mapM fun l => do return (l, ← read ((Node.again l).opened loops))
  return (Looped.mk (← read document.root) bodies).untied

/-- The value of the document in a text; an empty one is null. -/
def ofText (text : Text) : Except Failure (Looped Value) := do
  match ← Node.ofText text with
  | none => return ⟨.null, []⟩
  | some document => ofDocument document

end Value

end RegisterLayout
