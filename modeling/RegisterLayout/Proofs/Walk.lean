import RegisterLayout.Proofs.Declared

/-!
# A walk through a tree

The nodes of a tree in the order in which they are written, a node before those below it, and the
items of a bit field below their bit field.  A visited node comes with its trail: the nodes on the
way to it from the root, each with its index in its parent.

Principal definitions: `Trail`, `Visit`, `Field.walk`.
Principal results: `Field.forall_mem_walk`, a statement about all visits as one about the root, its
items and the trees below; `Field.forall_mem_walk_node`, one about the nodes alone.
-/

namespace RegisterLayout

/-- The nodes from the root to one of its tree, that node last, each with its index in its parent;
the index of the root is zero. -/
abbrev Trail := List (Header × Nat)

/-- A node with its trail.  An item is visited as a node of its own. -/
structure Visit where
  trail : Trail
  node : Field

/-- How many nodes are above the visited one. -/
def Visit.depth (v : Visit) : Nat := v.trail.length - 1

/-- The visits to the items of a bit field at the end of a trail. -/
def visitItems (above : Trail) (items : List Item) : List Visit :=
  items.mapIdx fun k i => ⟨above ++ [(i.header, k)], .stray i⟩

theorem getElem?_visitItems (above : Trail) (items : List Item) (k : Nat) :
    (visitItems above items)[k]? =
      items[k]?.map fun i => ⟨above ++ [(i.header, k)], .stray i⟩ := by
  rw [visitItems, List.getElem?_mapIdx]

theorem forall_mem_visitItems {P : Visit → Prop} {above : Trail} {items : List Item} :
    (∀ v ∈ visitItems above items, P v) ↔
      ∀ (k : Nat) (i : Item), items[k]? = some i → P ⟨above ++ [(i.header, k)], .stray i⟩ := by
  simp only [List.mem_iff_getElem?, getElem?_visitItems, Option.map_eq_some_iff]
  constructor
  · intro h k i hk
    exact h _ ⟨k, i, hk, rfl⟩
  · rintro h v ⟨k, i, hk, rfl⟩
    exact h k i hk

namespace Field

mutual

/-- The visits to the nodes of a tree with an index below a trail. -/
def walk (above : Trail) (index : Nat) : Field → List Visit
  | bitfield b =>
    ⟨above ++ [(b.header, index)], bitfield b⟩ ::
      visitItems (above ++ [(b.header, index)]) b.items
  | struct h fields =>
    ⟨above ++ [(h, index)], struct h fields⟩ :: walkAll (above ++ [(h, index)]) 0 fields
  | union h members =>
    ⟨above ++ [(h, index)], union h members⟩ :: walkAll (above ++ [(h, index)]) 0 members
  | f => [⟨above ++ [(f.header, index)], f⟩]
termination_by structural f => f

/-- The visits to the nodes of several trees, the first of them with an index. -/
def walkAll (above : Trail) (index : Nat) : List Field → List Visit
  | [] => []
  | f :: fs => walk above index f ++ walkAll above (index + 1) fs
termination_by structural fs => fs

end

/-- The visits to a whole tree. -/
def visits (root : Field) : List Visit := root.walk [] 0

section

variable {P : Visit → Prop} {above : Trail} {index : Nat}

theorem forall_mem_walkAll {fs : List Field} :
    (∀ v ∈ walkAll above index fs, P v) ↔
      ∀ (k : Nat) (f : Field), fs[k]? = some f → ∀ v ∈ f.walk above (index + k), P v := by
  induction fs generalizing index with
  | nil => simp [walkAll]
  | cons f fs ih =>
    rw [walkAll, List.forall_mem_append, ih]
    constructor
    · rintro ⟨hf, hfs⟩ k g hk
      cases k with
      | zero =>
        obtain rfl := Option.some.inj hk
        exact hf
      | succ k =>
        rw [← Nat.succ_add_eq_add_succ]
        exact hfs k g hk
    · intro h
      refine ⟨h 0 f rfl, fun k g hk => ?_⟩
      rw [Nat.succ_add_eq_add_succ]
      exact h (k + 1) g hk

/-- **The visits to a tree are those to its root, to the items of the root, and to the trees below
it.** -/
theorem forall_mem_walk {f : Field} :
    (∀ v ∈ f.walk above index, P v) ↔
      P ⟨above ++ [(f.header, index)], f⟩ ∧
      (∀ b, f = bitfield b → ∀ (k : Nat) (i : Item), b.items[k]? = some i →
        P ⟨above ++ [(f.header, index)] ++ [(i.header, k)], stray i⟩) ∧
      ∀ (k : Nat) (c : Field), f.children[k]? = some c →
        ∀ v ∈ c.walk (above ++ [(f.header, index)]) k, P v := by
  cases f with
  | bitfield b =>
    simp only [walk, List.forall_mem_cons, forall_mem_visitItems, header, children]
    simp
  | struct h fields | union h members =>
    simp only [walk, List.forall_mem_cons, forall_mem_walkAll, header, children, Nat.zero_add]
    simp
  | _ => simp [walk, children]

end

/-- The way to a visited node begins as that to the whole tree does and ends with the node. -/
theorem exists_way {f : Field} {above : Trail} {index : Nat} : ∀ v ∈ f.walk above index,
    ∃ (way : Trail) (k : Nat), v.trail = above ++ way ++ [(v.node.header, k)] := by
  induction f using inductionOnChildren generalizing above index with
  | node f ih =>
    refine forall_mem_walk.2 ⟨⟨[], index, by rw [List.append_nil]⟩, ?_, ?_⟩
    · exact fun b _ k i _ => ⟨[(f.header, index)], k, rfl⟩
    · intro k c hk v hv
      obtain ⟨way, k', hway⟩ := ih c (List.mem_of_getElem? hk) v hv
      exact ⟨(f.header, index) :: way, k', by rw [hway, List.append_assoc above]; rfl⟩

/-- The root is visited first, and what is visited behind it is below it. -/
theorem exists_visits_eq_cons (root : Field) :
    ∃ below, root.visits = ⟨[(root.header, 0)], root⟩ :: below ∧ ∀ v ∈ below, 0 < v.depth := by
  have hitems : ∀ items : List Item, ∀ v ∈ visitItems [(root.header, 0)] items, 0 < v.depth :=
    fun items => forall_mem_visitItems.2 fun k i _ => by simp [Visit.depth]
  have htrees : ∀ fs : List Field, ∀ v ∈ walkAll [(root.header, 0)] 0 fs, 0 < v.depth := by
    refine fun fs => forall_mem_walkAll.2 fun k f _ v hv => ?_
    obtain ⟨way, k', hway⟩ := exists_way v hv
    rw [Visit.depth, hway]
    simp
  cases root with
  | bitfield b => exact ⟨_, rfl, hitems b.items⟩
  | struct h fields | union h fields => exact ⟨_, rfl, htrees fields⟩
  | _ => exact ⟨[], rfl, List.forall_mem_nil _⟩

theorem mem_bitFields {f : Field} {b : BitField} : b ∈ f.bitFields ↔ bitfield b ∈ f.nodes := by
  rw [bitFields, List.mem_filterMap]
  constructor
  · rintro ⟨g, hg, hb⟩
    cases g with
    | bitfield b' => exact Option.some.inj hb ▸ hg
    | _ => cases hb
  · exact fun hb => ⟨bitfield b, hb, rfl⟩

/-- **The visited nodes are the nodes of the tree and the items of its bit fields.** -/
theorem forall_mem_walk_node {P : Field → Prop} {f : Field} {above : Trail} {index : Nat} :
    (∀ v ∈ f.walk above index, P v.node) ↔
      (∀ g ∈ f.nodes, P g) ∧ ∀ b ∈ f.bitFields, ∀ i ∈ b.items, P (stray i) := by
  have hnodes : (∀ v ∈ f.walk above index, P v.node) ↔
      ∀ g ∈ f.nodes, P g ∧ ∀ b, g = bitfield b → ∀ i ∈ b.items, P (stray i) := by
    induction f using inductionOnChildren generalizing above index with
    | node f ih =>
      rw [forall_mem_walk, forall_mem_nodes, and_assoc]
      refine and_congr_right fun _ => and_congr ?_ ?_
      · simp only [List.mem_iff_getElem?, forall_exists_index]
        exact ⟨fun h b hb i k hk => h b hb k i hk, fun h b hb k i hk => h b hb i k hk⟩
      · constructor
        · intro h c hc
          obtain ⟨k, hk⟩ := List.mem_iff_getElem?.1 hc
          exact (ih c hc).1 (h k c hk)
        · intro h k c hk
          have hc := List.mem_of_getElem? hk
          exact (ih c hc).2 (h c hc)
  rw [hnodes]
  simp only [mem_bitFields]
  constructor
  · exact fun h => ⟨fun g hg => (h g hg).1, fun b hb => (h _ hb).2 b rfl⟩
  · rintro ⟨hg, hitems⟩ g hmem
    refine ⟨hg g hmem, ?_⟩
    rintro b rfl
    exact hitems b hmem

end Field

end RegisterLayout
