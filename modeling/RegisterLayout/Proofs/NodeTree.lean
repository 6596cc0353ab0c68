import RegisterLayout.Document.Node

/-!
# Trees of nodes

How statements about a whole document are made and proved.  The nodes of a tree are its root and
all that stands below, the keys of mappings included; a mark is a node without any below it, and
the nodes of a document are those of its tree and of the bodies of its marks.

Principal definitions: `Node.parts`, `Node.nodes`, `Looped.nodes`.
Principal results: `Node.inductionOn`, `Node.mem_nodes`.
-/

namespace RegisterLayout

namespace Document.Node

/-- The tag of a node; a mark has none of its own. -/
def tag? : Node → Option Tag
  | scalar _ tag _ | sequence _ tag _ | mapping _ tag _ => some tag
  | again _ => none

/-- The text of a scalar. -/
def text? : Node → Option Text
  | scalar _ _ text => some text
  | _ => none

def entries : Node → List (Node × Node)
  | mapping _ _ entries => entries
  | _ => []

/-- A node that is no mark is open already. -/
theorem opened_of_not_again {n : Node} (h : n.isAgain = false) (loops : Loops Node) :
    n.opened loops = n := by
  cases n with
  | again l => cases h
  | _ => rfl

/-- The nodes right below a node. -/
def parts : Node → List Node
  | sequence _ _ items => items
  | mapping _ _ entries => entries.flatMap fun entry => [entry.1, entry.2]
  | _ => []

theorem mem_parts_mapping {start : Nat} {tag : Tag} {entries : List (Node × Node)} {n : Node} :
    n ∈ (mapping start tag entries).parts ↔ ∃ entry ∈ entries, n = entry.1 ∨ n = entry.2 := by
  simp [parts]

theorem key_mem_parts {n : Node} {entry : Node × Node} (h : entry ∈ n.entries) :
    entry.1 ∈ n.parts := by
  cases n with
  | mapping start tag entries => exact mem_parts_mapping.2 ⟨entry, h, .inl rfl⟩
  | _ => cases h

theorem value_mem_parts {n : Node} {entry : Node × Node} (h : entry ∈ n.entries) :
    entry.2 ∈ n.parts := by
  cases n with
  | mapping start tag entries => exact mem_parts_mapping.2 ⟨entry, h, .inr rfl⟩
  | _ => cases h

/-- What holds of a node if it holds of the nodes right below holds of every node. -/
theorem inductionOn {P : Node → Prop} (node : ∀ n, (∀ m ∈ n.parts, P m) → P n) (n : Node) :
    P n :=
  @Node.rec P (fun items => ∀ m ∈ items, P m)
    (fun entries => ∀ entry ∈ entries, P entry.1 ∧ P entry.2) (fun entry => P entry.1 ∧ P entry.2)
    (fun _ _ _ => node _ fun _ hm => nomatch hm)
    (fun _ _ _ ih => node _ ih)
    (fun _ _ _ ih => node _ fun m hm => by
      obtain ⟨entry, hentry, rfl | rfl⟩ := mem_parts_mapping.1 hm
      · exact (ih entry hentry).1
      · exact (ih entry hentry).2)
    (fun _ => node _ fun _ hm => nomatch hm)
    (fun _ hm => nomatch hm)
    (fun _ _ hhead htail => List.forall_mem_cons.2 ⟨hhead, htail⟩)
    (fun _ hm => nomatch hm)
    (fun _ _ hhead htail => List.forall_mem_cons.2 ⟨hhead, htail⟩)
    (fun _ _ hkey hvalue => ⟨hkey, hvalue⟩) n

mutual

/-- The nodes of a tree, a node before those below it. -/
def nodes : Node → List Node
  | scalar start tag text => [scalar start tag text]
  | sequence start tag items => sequence start tag items :: nodesOf items
  | mapping start tag entries => mapping start tag entries :: nodesAmong entries
  | again l => [again l]
termination_by structural n => n

def nodesOf : List Node → List Node
  | [] => []
  | n :: ns => nodes n ++ nodesOf ns
termination_by structural ns => ns

def nodesAmong : List (Node × Node) → List Node
  | [] => []
  | (key, value) :: entries => nodes key ++ nodes value ++ nodesAmong entries
termination_by structural entries => entries

end

theorem mem_nodesOf {m : Node} {ns : List Node} : m ∈ nodesOf ns ↔ ∃ n ∈ ns, m ∈ n.nodes := by
  induction ns with
  | nil => simp [nodesOf]
  | cons n ns ih => simp [nodesOf, ih]

theorem mem_nodesAmong {m : Node} {entries : List (Node × Node)} :
    m ∈ nodesAmong entries ↔ ∃ entry ∈ entries, m ∈ entry.1.nodes ∨ m ∈ entry.2.nodes := by
  induction entries with
  | nil => simp [nodesAmong]
  | cons entry entries ih => simp [nodesAmong, ih, or_assoc]

theorem mem_nodes {m n : Node} : m ∈ n.nodes ↔ m = n ∨ ∃ p ∈ n.parts, m ∈ p.nodes := by
  cases n with
  | scalar start tag text => simp [nodes, parts]
  | sequence start tag items => rw [nodes, List.mem_cons, mem_nodesOf, parts]
  | mapping start tag entries =>
    rw [nodes, List.mem_cons, mem_nodesAmong]
    refine or_congr_right ⟨?_, ?_⟩
    · rintro ⟨entry, hentry, h | h⟩
      · exact ⟨entry.1, mem_parts_mapping.2 ⟨entry, hentry, .inl rfl⟩, h⟩
      · exact ⟨entry.2, mem_parts_mapping.2 ⟨entry, hentry, .inr rfl⟩, h⟩
    · rintro ⟨p, hp, h⟩
      obtain ⟨entry, hentry, rfl | rfl⟩ := mem_parts_mapping.1 hp
      · exact ⟨entry, hentry, .inl h⟩
      · exact ⟨entry, hentry, .inr h⟩
  | again l => simp [nodes, parts]

theorem mem_nodes_self (n : Node) : n ∈ n.nodes := mem_nodes.2 (.inl rfl)

theorem mem_nodes_of_parts {p n : Node} (hp : p ∈ n.parts) : p ∈ n.nodes :=
  mem_nodes.2 (.inr ⟨p, hp, mem_nodes_self p⟩)

theorem mem_nodes_trans {k m n : Node} (hm : m ∈ n.nodes) (hk : k ∈ m.nodes) : k ∈ n.nodes := by
  induction n using inductionOn with
  | node n ih =>
    rcases mem_nodes.1 hm with rfl | ⟨p, hp, hm⟩
    · exact hk
    · exact mem_nodes.2 (.inr ⟨p, hp, ih p hp hm⟩)

end Document.Node

open Document

/-- The nodes of a document. -/
def Looped.nodes (document : Looped Node) : List Node :=
  document.root.nodes ++ document.loops.flatMap fun loop => loop.2.nodes

namespace Looped

variable {document : Looped Node} {n : Node}

theorem root_mem_nodes (document : Looped Node) : document.root ∈ document.nodes :=
  List.mem_append_left _ (Node.mem_nodes_self _)

theorem body_mem_nodes {l : Loop} {body : Node} (h : document.loops.lookup l = some body) :
    body ∈ document.nodes := by
  obtain ⟨before, after, hloops, -⟩ := List.lookup_eq_some_iff.1 h
  refine List.mem_append_right _ (List.mem_flatMap.2 ⟨(l, body), ?_, Node.mem_nodes_self _⟩)
  rw [hloops]
  exact List.mem_append_right _ List.mem_cons_self

theorem part_mem_nodes {p : Node} (hn : n ∈ document.nodes) (hp : p ∈ n.parts) :
    p ∈ document.nodes := by
  rcases List.mem_append.1 hn with hroot | hloops
  · exact List.mem_append_left _ (Node.mem_nodes_trans hroot (Node.mem_nodes_of_parts hp))
  · obtain ⟨loop, hloop, hn⟩ := List.mem_flatMap.1 hloops
    exact List.mem_append_right _
      (List.mem_flatMap.2 ⟨loop, hloop, Node.mem_nodes_trans hn (Node.mem_nodes_of_parts hp)⟩)

/-- The body of a mark in a document is in the document. -/
theorem opened_mem_nodes (hn : n ∈ document.nodes) : n.opened document.loops ∈ document.nodes := by
  cases n with
  | again l =>
    cases hl : document.loops.lookup l with
    | none => simpa [Node.opened, hl] using hn
    | some body => simpa [Node.opened, hl] using body_mem_nodes hl
  | _ => exact hn

end Looped

end RegisterLayout
