import Mathlib.Data.List.Nodup
import RegisterLayout.Proofs.Location

/-!
# Which trees are accepted

A tree of whole sizes is accepted exactly if every node keeps the rules where it stands and all
names are different: the full names of the nodes and the constants of their enumerations.  Both
conditions are about the tree as it was written.

Principal definitions: `Header.namesUnder`, `Field.namesUnder` — the names that a tree introduces,
in the order in which they are introduced; `Field.KeysAreTexts`.
Principal results: `checkIntroduced_eq_ok_iff`, `Field.introduced_located`,
`Field.resolve_succeeds_iff`.
-/

namespace RegisterLayout

/-! ## Introducing every text once -/

theorem forall_text_notMem_cons {x : Introduced} {seen : List (Option Text)}
    {xs : List Introduced} :
    (∀ y ∈ xs, y.text ∉ x.text :: seen) ↔
      x.text ∉ xs.map Introduced.text ∧ ∀ y ∈ xs, y.text ∉ seen := by
  constructor
  · intro h
    refine ⟨fun hx => ?_, fun y hy hseen => h y hy (List.mem_cons_of_mem _ hseen)⟩
    obtain ⟨y, hy, heq⟩ := List.mem_map.1 hx
    exact h y hy (heq ▸ List.mem_cons_self)
  · rintro ⟨hx, h⟩ y hy hmem
    rcases List.mem_cons.1 hmem with heq | hseen
    · exact hx (heq ▸ List.mem_map_of_mem hy)
    · exact h y hy hseen

theorem checkIntroduced_eq_ok_iff {seen : List (Option Text)} {xs : List Introduced} :
    checkIntroduced seen xs = .ok () ↔
      (∀ x ∈ xs, x.isWritable) ∧ (xs.map Introduced.text).Nodup ∧ ∀ x ∈ xs, x.text ∉ seen := by
  induction xs generalizing seen with
  | nil => simp [checkIntroduced]
  | cons x xs ih =>
    rw [List.forall_mem_cons, List.forall_mem_cons, List.map_cons, List.nodup_cons,
      checkIntroduced]
    by_cases hwritable : x.isWritable = true
    · by_cases hseen : x.text ∈ seen
      · simp [hwritable, hseen]
      · rw [hwritable, if_neg (by decide), if_neg hseen, ih, forall_text_notMem_cons]
        constructor
        · rintro ⟨hall, hnodup, hx, hnew⟩
          exact ⟨⟨rfl, hall⟩, ⟨hx, hnodup⟩, hseen, hnew⟩
        · rintro ⟨⟨-, hall⟩, ⟨hx, hnodup⟩, -, hnew⟩
          exact ⟨hall, hnodup, hx, hnew⟩
    · simp [hwritable]

/-! ## The names of a tree -/

/-- The full name of a node and the constants of its enumeration. -/
def Header.namesUnder (h : Header) (enumeration : Option Enumeration) (path : Path)
    (index : Nat) : List Text :=
  let fullName := h.nameUnder path index
  fullName :: (enumeration.getD []).map fun entry => constantName fullName entry.1.text

/-- The names of the items of a bit field, numbered from `index`. -/
def itemNames (path : Path) (index : Nat) : List Item → List Text
  | [] => []
  | i :: rest => i.header.namesUnder i.enumeration path index ++ itemNames path (index + 1) rest

def Value.IsText (v : Value) : Prop := ∃ s, v = .str s

instance (v : Value) : Decidable v.IsText :=
  decidable_of_iff ((match v with | .str _ => true | _ => false) = true) (by
    cases v <;> simp [Value.IsText])

namespace Field

mutual

/-- The names that a tree introduces under a path, those of a node before those below it. -/
def namesUnder (path : Path) (index : Nat) : Field → List Text
  | word w => w.header.namesUnder w.enumeration path index
  | bitfield b =>
    b.header.nameUnder path index :: itemNames (b.header.pathUnder path index) 0 b.items
  | blob b => [b.header.nameUnder path index]
  | struct h fields => h.nameUnder path index :: namesUnderAll (h.pathUnder path index) 0 fields
  | union h members => h.nameUnder path index :: namesUnderAll (h.pathUnder path index) 0 members
  | stray i => i.header.namesUnder i.enumeration path index
termination_by structural f => f

def namesUnderAll (path : Path) (index : Nat) : List Field → List Text
  | [] => []
  | f :: fs => namesUnder path index f ++ namesUnderAll path (index + 1) fs
termination_by structural fs => fs

end

/-- The keys of the enumerations that a node carries itself, its items included. -/
def ownKeys : Field → List Value
  | word w => (w.enumeration.getD []).map Prod.fst
  | bitfield b => b.items.flatMap fun i => (i.enumeration.getD []).map Prod.fst
  | stray i => (i.enumeration.getD []).map Prod.fst
  | _ => []

/-- All keys of enumerations in a tree are texts. -/
def KeysAreTexts (f : Field) : Prop := ∀ g ∈ f.nodes, ∀ key ∈ g.ownKeys, key.IsText

instance (f : Field) : Decidable f.KeysAreTexts := inferInstanceAs (Decidable (∀ g ∈ f.nodes, _))

end Field

/-! ## What a located tree introduces -/

theorem introduced_placedAt (h : Header) (enumeration : Option Enumeration) (path : Path)
    (index : Nat) (start : Number) :
    (Introduced.node (h.placedAt (h.nameUnder path index) start).position.fullName ::
        (enumeration.getD []).map fun entry =>
          .constant (h.placedAt (h.nameUnder path index) start).position.fullName entry.1).map
      Introduced.text = (h.namesUnder enumeration path index).map some := by
  simp only [Header.placedAt, Header.namesUnder, List.map_cons, List.map_map, Introduced.text]
  rfl

theorem introduced_locatedItems (path : Path) (index : Nat) (start : Number) (endBit : Int)
    (items : List Item) :
    ((locatedItems path start index endBit items).flatMap Item.introduced).map Introduced.text
      = (itemNames path index items).map some := by
  induction items generalizing index endBit with
  | nil => rfl
  | cons i rest ih =>
    rw [locatedItems, List.flatMap_cons, List.map_append, ih, itemNames, List.map_append]
    exact congrArg (· ++ _) (introduced_placedAt i.header i.enumeration path index start)

namespace Field

theorem introducedAll_locatedFields {fields : List Field}
    (h : ∀ f ∈ fields, ∀ (path : Path) (index : Nat) (start : Int),
      (f.located path index start).introduced.map Introduced.text
        = (f.namesUnder path index).map some)
    (path : Path) (index : Nat) (start : Int) :
    (introducedAll (locatedFields path index start fields)).map Introduced.text
      = (namesUnderAll path index fields).map some := by
  induction fields generalizing index start with
  | nil => rfl
  | cons f fs ih =>
    obtain ⟨hf, hfs⟩ := List.forall_mem_cons.1 h
    rw [locatedFields, introducedAll, namesUnderAll, List.map_append, List.map_append, hf, ih hfs]

theorem introducedAll_locatedMembers {members : List Field}
    (h : ∀ f ∈ members, ∀ (path : Path) (index : Nat) (start : Int),
      (f.located path index start).introduced.map Introduced.text
        = (f.namesUnder path index).map some)
    (path : Path) (index : Nat) (start : Int) :
    (introducedAll (locatedMembers path index start members)).map Introduced.text
      = (namesUnderAll path index members).map some := by
  induction members generalizing index with
  | nil => rfl
  | cons f fs ih =>
    obtain ⟨hf, hfs⟩ := List.forall_mem_cons.1 h
    rw [locatedMembers, introducedAll, namesUnderAll, List.map_append, List.map_append, hf,
      ih hfs]

/-- **A located tree introduces the names of the tree as it was written.** -/
theorem introduced_located (f : Field) (path : Path) (index : Nat) (start : Int) :
    (f.located path index start).introduced.map Introduced.text
      = (f.namesUnder path index).map some := by
  induction f using inductionOn generalizing path index start with
  | word w => exact introduced_placedAt w.header w.enumeration path index (.int start)
  | bitfield b =>
    rw [located, introduced, namesUnder, List.map_cons, List.map_cons]
    exact congrArg (_ :: ·) (introduced_locatedItems _ 0 (.int start) b.bits.whole b.items)
  | blob b => rfl
  | struct h fields ih =>
    rw [located, introduced, namesUnder, List.map_cons, List.map_cons,
      introducedAll_locatedFields ih]
    rfl
  | union h members ih =>
    rw [located, introduced, namesUnder, List.map_cons, List.map_cons,
      introducedAll_locatedMembers ih]
    rfl
  | stray i => exact introduced_placedAt i.header i.enumeration path index (.int start)

end Field

/-! ## Keys that have a text -/

theorem isWritable_ofNode {fullName : Option Text} {enumeration : Option Enumeration}
    (hkeys : ∀ key ∈ (enumeration.getD []).map Prod.fst, key.IsText) :
    ∀ x ∈ Introduced.node fullName ::
        (enumeration.getD []).map fun entry => .constant fullName entry.1,
      x.isWritable := by
  rw [List.forall_mem_cons]
  refine ⟨rfl, fun x hx => ?_⟩
  obtain ⟨entry, hentry, rfl⟩ := List.mem_map.1 hx
  obtain ⟨s, hs⟩ := hkeys entry.1 (List.mem_map_of_mem hentry)
  rw [Introduced.isWritable, hs]
  rfl

theorem isWritable_locatedItems {path : Path} {index : Nat} {start : Number} {endBit : Int}
    {items : List Item}
    (hkeys : ∀ key ∈ items.flatMap fun i => (i.enumeration.getD []).map Prod.fst, key.IsText) :
    ∀ x ∈ (locatedItems path start index endBit items).flatMap Item.introduced,
      x.isWritable := by
  induction items generalizing index endBit with
  | nil => exact fun _ hx => nomatch hx
  | cons i rest ih =>
    rw [List.flatMap_cons, List.forall_mem_append] at hkeys
    rw [locatedItems, List.flatMap_cons, List.forall_mem_append]
    exact ⟨isWritable_ofNode hkeys.1, ih hkeys.2⟩

namespace Field

theorem mem_introducedAll {x : Introduced} {fs : List Field} :
    x ∈ introducedAll fs ↔ ∃ f ∈ fs, x ∈ f.introduced := by
  induction fs with
  | nil => simp [introducedAll]
  | cons f fs ih => simp [introducedAll, ih]

theorem KeysAreTexts.child {f c : Field} (hf : f.KeysAreTexts) (hc : c ∈ f.children) :
    c.KeysAreTexts :=
  (forall_mem_nodes.1 hf).2 c hc

theorem isWritable_located {f : Field} (hf : f.KeysAreTexts) (path : Path) (index : Nat)
    (start : Int) : ∀ x ∈ (f.located path index start).introduced, x.isWritable := by
  induction f using inductionOnChildren generalizing path index start with
  | node f ih =>
    have hown := (forall_mem_nodes.1 hf).1
    have hbelow : ∀ x ∈ introducedAll (f.located path index start).children, x.isWritable := by
      intro x hx
      obtain ⟨c, hc, hx⟩ := mem_introducedAll.1 hx
      obtain ⟨g, hg, index', start', rfl, -⟩ := exists_of_mem_children_located hc
      exact ih g hg (hf.child hg) _ index' start' x hx
    cases f with
    | word w => exact isWritable_ofNode hown
    | bitfield b => exact List.forall_mem_cons.2 ⟨rfl, isWritable_locatedItems hown⟩
    | blob b => exact List.forall_mem_singleton.2 rfl
    | struct h fields => exact List.forall_mem_cons.2 ⟨rfl, hbelow⟩
    | union h members => exact List.forall_mem_cons.2 ⟨rfl, hbelow⟩
    | stray i => exact isWritable_ofNode hown

/-! ## Acceptance -/

theorem checkUniqueNames_located_iff {root : Field} (hkeys : root.KeysAreTexts) :
    checkUniqueNames (root.located [] 0 0) = .ok () ↔ (root.namesUnder [] 0).Nodup := by
  rw [checkUniqueNames_eq, checkIntroduced_eq_ok_iff, introduced_located,
    List.nodup_map_iff (Option.some_injective Text)]
  constructor
  · rintro ⟨-, hnodup, -⟩
    exact hnodup
  · intro hnodup
    exact ⟨isWritable_located hkeys [] 0 0, hnodup, fun _ _ hmem => nomatch hmem⟩

/-- **A tree whose sizes are whole numbers is accepted exactly if every node keeps the rules where
the sizes before it put it, and all names of the tree are different.** -/
theorem resolve_succeeds_iff {root : Field} (hsizes : root.SizesWhole)
    (hkeys : root.KeysAreTexts) :
    (∃ r, root.resolve = .ok r) ↔
      (∀ s ∈ root.spots, s.Allowed) ∧ (root.namesUnder [] 0).Nodup := by
  simp only [resolve_eq_ok_iff hsizes, checkUniqueNames_located_iff hkeys]
  constructor
  · rintro ⟨_, hspots, hnames, -⟩
    exact ⟨hspots, hnames⟩
  · rintro ⟨hspots, hnames⟩
    exact ⟨_, hspots, hnames, rfl⟩

/-- A word with two constants and a bit field. -/
def switchRoot : Field :=
  struct { name := some (.str "r") }
    [word { header := { name := some (.str "mode") }, bits := 8,
            enumeration := some [(.str "off", 0), (.str "on", 1)] },
      bitfield { bits := 8, items := [{ header := { name := some (.str "x") }, bits := 3 },
        { bits := 5 }] }]

theorem resolve_succeeds_iff_switchRoot :
    switchRoot.SizesWhole ∧ switchRoot.KeysAreTexts ∧ (∀ s ∈ switchRoot.spots, s.Allowed) ∧
      (switchRoot.namesUnder [] 0).Nodup ∧ ∃ r, switchRoot.resolve = .ok r := by
  have hspots : ∀ s ∈ switchRoot.spots, s.Allowed := by decide
  have hnames : (switchRoot.namesUnder [] 0).Nodup := by decide +kernel
  exact ⟨by decide, by decide, hspots, hnames,
    (resolve_succeeds_iff (by decide) (by decide)).2 ⟨hspots, hnames⟩⟩

end Field

end RegisterLayout
