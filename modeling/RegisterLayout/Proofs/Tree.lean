import RegisterLayout.Field.Basic

/-!
# Trees of fields

How statements about a whole layout are made and proved.  A statement about every node is a
statement about the list of nodes, in which a node stands before its children, and it is proved
by induction on trees, where a struct or a union brings a hypothesis for each of its children.

Principal definitions: `Field.nodes`, `Field.children`.
Principal results: `Field.inductionOn`, `Field.inductionOnChildren`; `Field.forall_mem_nodes`, a
statement about all nodes of a tree as one about its root and one about the trees below.
-/

namespace RegisterLayout

namespace Field

/-! ## Induction -/

/-- What holds of a tree if it holds of the trees below holds of every tree. -/
@[elab_as_elim]
theorem inductionOn {P : Field → Prop} (word : ∀ w, P (word w)) (bitfield : ∀ b, P (bitfield b))
    (blob : ∀ b, P (blob b)) (struct : ∀ h fields, (∀ f ∈ fields, P f) → P (struct h fields))
    (union : ∀ h members, (∀ f ∈ members, P f) → P (union h members)) (stray : ∀ i, P (stray i))
    (f : Field) : P f :=
  @Field.rec P (fun fs => ∀ f ∈ fs, P f) word bitfield blob struct union stray
    (fun _ hf => by cases hf)
    (fun _ _ hd tl _ hf => by
      rcases List.mem_cons.1 hf with rfl | hf
      · exact hd
      · exact tl _ hf) f

/-- The trees right below a node. -/
def children : Field → List Field
  | struct _ fields => fields
  | union _ members => members
  | _ => []

/-- What holds of a tree if it holds of its children, whatever its kind, holds of every tree. -/
theorem inductionOnChildren {P : Field → Prop} (node : ∀ f, (∀ c ∈ f.children, P c) → P f)
    (f : Field) : P f := by
  induction f using inductionOn with
  | struct h fields ih => exact node _ ih
  | union h members ih => exact node _ ih
  | _ => exact node _ fun c hc => nomatch hc

/-! ## Nodes -/

mutual

/-- The nodes of a tree, a node before those below it.  The items of a bit field belong to its
node. -/
def nodes : Field → List Field
  | struct h fields => struct h fields :: nodesOf fields
  | union h members => union h members :: nodesOf members
  | f => [f]
termination_by structural f => f

def nodesOf : List Field → List Field
  | [] => []
  | f :: fs => nodes f ++ nodesOf fs
termination_by structural fs => fs

end

theorem mem_nodesOf {g : Field} {fs : List Field} : g ∈ nodesOf fs ↔ ∃ f ∈ fs, g ∈ f.nodes := by
  induction fs with
  | nil => simp [nodesOf]
  | cons f fs ih => simp [nodesOf, ih]

theorem nodes_eq (f : Field) : f.nodes = f :: nodesOf f.children := by
  cases f <;> simp [nodes, nodesOf, children]

theorem sublist_nodesOf (fs : List Field) : fs.Sublist (nodesOf fs) := by
  induction fs with
  | nil => exact List.Sublist.refl _
  | cons f fs ih =>
    rw [nodesOf, nodes_eq]
    exact (ih.trans (List.sublist_append_right _ _)).cons_cons f

theorem mem_nodes_self (f : Field) : f ∈ f.nodes := by
  rw [nodes_eq]
  exact List.mem_cons_self

theorem mem_nodes_of_below {f g : Field} (hg : g ∈ nodesOf f.children) : g ∈ f.nodes := by
  rw [nodes_eq]
  exact List.mem_cons_of_mem f hg

theorem mem_nodes {f g : Field} : g ∈ f.nodes ↔ g = f ∨ ∃ c ∈ f.children, g ∈ c.nodes := by
  rw [nodes_eq, List.mem_cons, mem_nodesOf]

/-- **All nodes of a tree are its root and the nodes of the trees below it.** -/
theorem forall_mem_nodes {P : Field → Prop} {f : Field} :
    (∀ g ∈ f.nodes, P g) ↔ P f ∧ ∀ c ∈ f.children, ∀ g ∈ c.nodes, P g := by
  constructor
  · intro h
    exact ⟨h f (mem_nodes_self f), fun c hc g hg => h g (mem_nodes.2 (.inr ⟨c, hc, hg⟩))⟩
  · rintro ⟨hf, hc⟩ g hg
    rcases mem_nodes.1 hg with rfl | ⟨c, hm, hg⟩
    · exact hf
    · exact hc c hm g hg

/-- Some node of a tree is its root or a node of a tree below it. -/
theorem exists_mem_nodes {P : Field → Prop} {f : Field} :
    (∃ g ∈ f.nodes, P g) ↔ P f ∨ ∃ c ∈ f.children, ∃ g ∈ c.nodes, P g := by
  constructor
  · rintro ⟨g, hg, hP⟩
    rcases mem_nodes.1 hg with rfl | ⟨c, hc, hg⟩
    · exact .inl hP
    · exact .inr ⟨c, hc, g, hg, hP⟩
  · rintro (hP | ⟨c, hc, g, hg, hP⟩)
    · exact ⟨f, mem_nodes_self f, hP⟩
    · exact ⟨g, mem_nodes.2 (.inr ⟨c, hc, hg⟩), hP⟩

end Field

end RegisterLayout
