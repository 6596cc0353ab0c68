import RegisterLayout.Naming

/-!
# Unique names

A tree introduces the full name of every node and the constant of every enumeration entry, and
no text may be introduced twice.  The texts introduced so far are handed on from node to node, a
node before its entries and these before its children; the first text that is among them already
is the failure.

This comes to the same as listing all introductions first and going through the list, which is the
form to reason about.

Principal definitions: `Field.introduce`, `checkUniqueNames`; `Field.introduced`, `checkIntroduced`.
Principal result: `checkUniqueNames_eq`.
-/

namespace RegisterLayout

/-- A name that a tree introduces: of a node, or of an entry of a node's enumeration. -/
inductive Introduced where
  | node (fullName : Option Text)
  | constant (fullName : Option Text) (key : Value)

namespace Introduced

/-- The text that has to be unique. -/
def text : Introduced → Option Text
  | node fullName => fullName
  | constant fullName key => some (constantName (Cause.nameText fullName) key.text)

/-- The key of an entry has to have a text. -/
def isWritable : Introduced → Bool
  | node _ => true
  | constant _ key => key.isWritable

/-- The failure of an introduction whose text was introduced before. -/
def clash : Introduced → Failure
  | node fullName => .ofNode fullName (.sharedName fullName)
  | constant fullName key =>
    .ofNode fullName (.sharedConstant key (constantName (Cause.nameText fullName) key.text))

end Introduced

/-- The texts introduced before and one more, which must not be among them. -/
def introduce (seen : List (Option Text)) (x : Introduced) :
    Except Failure (List (Option Text)) :=
  if !x.isWritable then .error .longNumber
  else if x.text ∈ seen then .error x.clash
  else .ok (x.text :: seen)

/-- The full name of a node, and then the constants of its entries. -/
def introduceNode (seen : List (Option Text)) (h : Header) (enumeration : Option Enumeration) :
    Except Failure (List (Option Text)) := do
  let fullName := h.position.fullName
  let seen ← introduce seen (.node fullName)
  (enumeration.getD []).foldlM (fun seen entry => introduce seen (.constant fullName entry.1)) seen

namespace Field

mutual

/-- The texts introduced before a tree and those of the tree, none of them twice. -/
def introduce (seen : List (Option Text)) : Field → Except Failure (List (Option Text))
  | word w => introduceNode seen w.header w.enumeration
  | bitfield b => do
    let seen ← introduceNode seen b.header none
    b.items.foldlM (fun seen i => introduceNode seen i.header i.enumeration) seen
  | blob b => introduceNode seen b.header none
  | struct h fields => do introduceFields (← introduceNode seen h none) fields
  | union h members => do introduceFields (← introduceNode seen h none) members
  | stray i => introduceNode seen i.header i.enumeration
termination_by structural f => f

def introduceFields (seen : List (Option Text)) :
    List Field → Except Failure (List (Option Text))
  | [] => .ok seen
  | f :: fs => do introduceFields (← introduce seen f) fs
termination_by structural fs => fs

end

end Field

/-- Accepts a tree that introduces every text once. -/
def checkUniqueNames (root : Field) : Except Failure Unit := do
  let _ ← root.introduce []

/-! ## The list of all introductions -/

private def ofNode (h : Header) (enumeration : Option Enumeration) : List Introduced :=
  let fullName := h.position.fullName
  .node fullName :: (enumeration.getD []).map fun entry => .constant fullName entry.1

def Item.introduced (i : Item) : List Introduced := ofNode i.header i.enumeration

namespace Field

mutual

/-- What a tree introduces, in the order in which it is walked. -/
def introduced : Field → List Introduced
  | word w => ofNode w.header w.enumeration
  | bitfield b => .node b.header.position.fullName :: b.items.flatMap Item.introduced
  | blob b => [.node b.header.position.fullName]
  | struct h fields => .node h.position.fullName :: introducedAll fields
  | union h members => .node h.position.fullName :: introducedAll members
  | stray i => i.introduced
termination_by structural f => f

def introducedAll : List Field → List Introduced
  | [] => []
  | f :: fs => introduced f ++ introducedAll fs
termination_by structural fs => fs

end

end Field

/-- Accepts introductions whose texts are neither among `seen` nor introduced earlier. -/
def checkIntroduced (seen : List (Option Text)) : List Introduced → Except Failure Unit
  | [] => .ok ()
  | x :: xs =>
    if !x.isWritable then .error .longNumber
    else if x.text ∈ seen then .error x.clash
    else checkIntroduced (x.text :: seen) xs

theorem checkIntroduced_eq_foldlM (seen : List (Option Text)) (xs : List Introduced) :
    checkIntroduced seen xs = xs.foldlM introduce seen >>= fun _ => .ok () := by
  induction xs generalizing seen with
  | nil => rfl
  | cons x xs ih =>
    rw [checkIntroduced, List.foldlM_cons, introduce]
    split
    · rfl
    · split
      · rfl
      · exact ih (x.text :: seen)

theorem introduceNode_eq (seen : List (Option Text)) (h : Header)
    (enumeration : Option Enumeration) :
    introduceNode seen h enumeration = (ofNode h enumeration).foldlM introduce seen := by
  simp only [introduceNode, ofNode, List.foldlM_cons, List.foldlM_map]

/-- A node without an enumeration only introduces its name. -/
theorem introduceNode_none (seen : List (Option Text)) (h : Header) :
    introduceNode seen h none = introduce seen (.node h.position.fullName) := by
  simp only [introduceNode, Option.getD_none, List.foldlM_nil, bind_pure]

theorem introduceItems_eq (seen : List (Option Text)) (items : List Item) :
    items.foldlM (fun seen i => introduceNode seen i.header i.enumeration) seen
      = (items.flatMap Item.introduced).foldlM introduce seen := by
  induction items generalizing seen with
  | nil => rfl
  | cons i items ih =>
    rw [List.foldlM_cons, List.flatMap_cons, List.foldlM_append, Item.introduced,
      ← introduceNode_eq]
    exact bind_congr ih

namespace Field

mutual

/-- Walking a tree introduces its list, one after the other. -/
theorem introduce_eq (seen : List (Option Text)) (f : Field) :
    f.introduce seen = f.introduced.foldlM RegisterLayout.introduce seen := by
  cases f with
  | word w => rw [introduce, introduced, introduceNode_eq]
  | bitfield b =>
    rw [introduce, introduced, introduceNode_none, List.foldlM_cons]
    exact bind_congr fun seen => introduceItems_eq seen b.items
  | blob b =>
    rw [introduce, introduced, introduceNode_none, List.foldlM_cons]
    exact (bind_pure _).symm
  | struct h fields =>
    rw [introduce, introduced, introduceNode_none, List.foldlM_cons]
    exact bind_congr fun seen => introduceFields_eq seen fields
  | union h members =>
    rw [introduce, introduced, introduceNode_none, List.foldlM_cons]
    exact bind_congr fun seen => introduceFields_eq seen members
  | stray i => rw [introduce, introduced, introduceNode_eq, Item.introduced]
termination_by structural f

theorem introduceFields_eq (seen : List (Option Text)) (fs : List Field) :
    introduceFields seen fs = (introducedAll fs).foldlM RegisterLayout.introduce seen := by
  cases fs with
  | nil => rfl
  | cons f fs =>
    rw [introduceFields, introducedAll, List.foldlM_append, introduce_eq seen f]
    exact bind_congr fun seen => introduceFields_eq seen fs
termination_by structural fs

end

end Field

/-- **Walking a tree with the texts introduced so far accepts what going through its list does,
and fails alike.** -/
theorem checkUniqueNames_eq (root : Field) :
    checkUniqueNames root = checkIntroduced [] root.introduced := by
  rw [checkIntroduced_eq_foldlM, ← Field.introduce_eq]
  rfl

end RegisterLayout
