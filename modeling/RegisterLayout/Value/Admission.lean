import RegisterLayout.Document.Node
import RegisterLayout.Value.OfScalar

/-!
# Admission of documents

Which documents stand for a value.  The nodes of a document are met level by level: scalars are
read when they are met, and collections wait until all collections met before have had their turn.
A document with several faults is therefore refused for the one nearest to its root.

A mapping takes over the entries of the mappings merged into it when its turn has come.  One that
contains itself keeps what it took over, so that an admitted document has nothing left to merge in
its loops.

Principal definitions: `Admission`, `Admission.entriesOf`, `Admission.meet`, `admittedLoops`.
-/

namespace RegisterLayout

open Document

namespace Document.Tag

/-- The tags that make a collection out of their node, which cannot be a key. -/
def isCollection : Tag → Bool
  | .seq | .map | .set | .omap | .pairs => true
  | _ => false

/-- The tags that make a scalar out of their node. -/
def isScalar : Tag → Bool
  | .null | .bool | .int | .real | .timestamp | .binary | .str => true
  | _ => false

end Document.Tag

namespace Document.Node

mutual

/-- The count of the nodes in a tree. -/
def size : Node → Nat
  | sequence _ _ items => sizeAll items + 1
  | mapping _ _ entries => sizeEntries entries + 1
  | _ => 1
termination_by structural n => n

def sizeAll : List Node → Nat
  | [] => 0
  | n :: ns => size n + sizeAll ns
termination_by structural ns => ns

def sizeEntries : List (Node × Node) → Nat
  | [] => 0
  | (key, value) :: entries => size key + size value + sizeEntries entries
termination_by structural entries => entries

end

end Document.Node

/-- The state of an admission. -/
structure Admission where
  /-- The collections that contain themselves, with what they took over so far. -/
  loops : Loops Node
  /-- Those of them that have been met. -/
  met : List Loop := []
  /-- The starts of the keys for a value that were taken for texts. -/
  textKeys : List Nat := []

abbrev Admit := StateT Admission (Except Failure)

namespace Admission

def refuse {α : Type} : Admit α := throw .malformedText

/-- A node without its mark. -/
def opened (n : Node) : Admit Node := return n.opened (← get).loops

/-- The tag that counts for a node. -/
def tagOf (n : Node) : Admit Tag := do
  match ← opened n with
  | .scalar start tag _ | .sequence start tag _ | .mapping start tag _ =>
    return if tag = .value ∧ start ∈ (← get).textKeys then .str else tag
  | .again _ => return .seq

def entriesOf (n : Node) : Admit (List (Node × Node)) := do
  match ← opened n with
  | .mapping _ _ entries => return entries
  | _ => refuse

/-- A mapping with other entries; if it contains itself, they stay with it. -/
def setEntries (n : Node) (entries : List (Node × Node)) : Admit Node := do
  let changed : Node := match ← opened n with
    | .mapping start tag _ => .mapping start tag entries
    | other => other
  match n with
  | .again l =>
    modify fun a => { a with loops := a.loops.put l changed }
    return n
  | _ => return changed

/-- The entries before the first that merges, the value of that one, and those behind it. -/
def cutAtMerge : List (Node × Node) →
    Admit (List (Node × Node) × Option (Node × List (Node × Node)))
  | [] => return ([], none)
  | (key, value) :: rest => do
    if (← tagOf key) = .merge then return ([], some (value, rest))
    let (before, cut) ← cutAtMerge rest
    return ((key, value) :: before, cut)

/-- The keys for a value among some entries are texts from now on. -/
def takeKeysForTexts (entries : List (Node × Node)) : Admit Unit :=
  entries.forM fun (key, _) => do
    if (← tagOf key) = .value then
      let start := (← opened key).start
      modify fun a => { a with textKeys := start :: a.textKeys }

/-- The entries of a mapping, those of the mappings merged into it in front: of several in one
sequence the last one's first.  An entry that merges is gone before its value is looked at. -/
def merge : Nat → Node → Admit (List (Node × Node))
  | 0, _ => throw .tooDeep
  | fuel + 1, n => do
    match ← cutAtMerge (← entriesOf n) with
    | (entries, none) =>
      takeKeysForTexts entries
      return entries
    | (before, some (value, after)) =>
      let n ← setEntries n (before ++ after)
      let taken ← match ← opened value with
        | .mapping .. => merge fuel value
        | .sequence _ _ items => do pure (← items.mapM (merge fuel)).reverse.flatten
        | _ => refuse
      let entries := taken ++ (← merge fuel n)
      let _ ← setEntries n entries
      return entries

/-- The text of a scalar; a mapping with a key for a value stands for its value under that key. -/
def scalarText : Nat → Node → Admit Text
  | 0, _ => throw .tooDeep
  | fuel + 1, n => do
    match ← opened n with
    | .scalar _ _ text => return text
    | .mapping _ _ entries =>
      match ← entries.findM? fun (key, _) => return (← tagOf key) = .value with
      | some (_, value) => scalarText fuel value
      | none => refuse
    | _ => refuse

/-- A node that is met: a scalar is read, a collection is one of those that wait.  One that
contains itself waits only once. -/
def meet (fuel : Nat) (n : Node) : Admit (List Node) := do
  let tag ← tagOf n
  if tag.isCollection then
    match n with
    | .again l =>
      if l ∈ (← get).met then return []
      modify fun a => { a with met := l :: a.met }
      return [n]
    | n => return [n]
  else if !tag.isScalar then refuse
  else
    let text ← scalarText fuel n
    let isPlain := match ← opened n with | .scalar .. => true | _ => false
    if tag = .timestamp ∧ !isPlain then throw .wrongType
    let _ ← Value.readScalar tag text
    if let .again l := n then
      modify fun a => { a with loops := a.loops.put l (.scalar 0 tag text) }
    return []

/-- A key that is met; a collection cannot be one. -/
def meetKey (fuel : Nat) (key : Node) : Admit Unit := do
  if (← tagOf key).isCollection then refuse
  let _ ← meet fuel key

/-- The one entry of each item of a sequence of pairs. -/
def pairOf (n : Node) : Admit (Node × Node) := do
  match ← entriesOf n with
  | [pair] => return pair
  | _ => refuse

/-- What is met in a collection whose turn has come. -/
def takeTurn (fuel : Nat) (n : Node) : Admit (List Node) := do
  match ← opened n with
  | .sequence _ .seq items => return (← items.mapM (meet fuel)).flatten
  | .sequence _ .omap items | .sequence _ .pairs items =>
    let waiting ← items.mapM fun item => do
      let (key, value) ← pairOf item
      return (← meet fuel key) ++ (← meet fuel value)
    return waiting.flatten
  | .mapping _ .map _ | .mapping _ .set _ =>
    let waiting ← (← merge fuel n).mapM fun (key, value) => do
      meetKey fuel key
      meet fuel value
    return waiting.flatten
  | _ => refuse

/-- All levels from one on; each is made of the collections met in the one before. -/
def takeTurns (fuel : Nat) : Nat → List Node → Admit Unit
  | 0, _ => throw .tooDeep
  | levels + 1, waiting => do
    let next := (← waiting.mapM (takeTurn fuel)).flatten
    if !next.isEmpty then takeTurns fuel levels next

end Admission

/-- The collections that contain themselves in a document that stands for a value, with all their
entries.  No way down meets a node twice, so the count of nodes bounds every way. -/
def admittedLoops (document : Looped Node) : Except Failure (Loops Node × List Loop) := do
  let fuel := document.root.size
    + document.loops.foldr (fun loop nodes => loop.2.size + nodes) 0 + 1
  let run : Admit Unit := do
    let waiting ← Admission.meet fuel document.root
    Admission.takeTurns fuel (fuel + 1) waiting
  let (_, a) ← run.run { loops := document.loops }
  return (a.loops, a.met)

end RegisterLayout
