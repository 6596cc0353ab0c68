import RegisterLayout.Proofs.Acceptance
import RegisterLayout.Proofs.FullName

/-!
# The first name that is not new

The names of a tree are the full names of its nodes and the constants of their enumerations, a
node before its constants and these before what is below it.  Going through them with the names
met so far accepts a tree exactly if no name occurs twice, and otherwise refuses the node that
contributes the first name met before.

Principal definitions: `NameSource`, `Field.sources` — the nodes of a tree with the items of its
bit fields among them; `Contribution`, `Field.contributions`, `Field.names`; `FirstClash`.
Principal results: `checkIntroduced_eq_error`, `checkUniqueNames_decides`.
-/

namespace RegisterLayout

/-! ## The names of a tree -/

/-- What names come from: a node or an item, with the keys of its enumeration. -/
structure NameSource where
  header : Header
  keys : List Value := []

/-- A name, and the full name of the node that it comes from. -/
structure Contribution where
  node : Text
  name : Text

namespace NameSource

def fullName (s : NameSource) : Text := s.header.position.fullName.getD []

/-- The full name of a node, then the constants of its enumeration. -/
def contributions (s : NameSource) : List Contribution :=
  ⟨s.fullName, s.fullName⟩ ::
    s.keys.map fun key => ⟨s.fullName, Text.upper (s.fullName ++ "_" ++ key.text)⟩

/-- What the source introduces, be it named or not. -/
def introduced (s : NameSource) : List Introduced :=
  .node s.header.position.fullName :: s.keys.map (.constant s.header.position.fullName)

end NameSource

def Item.source (i : Item) : NameSource := ⟨i.header, (i.enumeration.getD []).map Prod.fst⟩

namespace Field

/-- The sources in one node: the node itself, and the items of a bit field behind it. -/
def ownSources : Field → List NameSource
  | word w => [⟨w.header, (w.enumeration.getD []).map Prod.fst⟩]
  | bitfield b => ⟨b.header, []⟩ :: b.items.map Item.source
  | stray i => [i.source]
  | f => [⟨f.header, []⟩]

/-- The nodes of a tree, a node before those below it, items included. -/
def sources (f : Field) : List NameSource := f.nodes.flatMap ownSources

def contributions (f : Field) : List Contribution := f.sources.flatMap NameSource.contributions

def names (f : Field) : List Text := f.contributions.map Contribution.name

/-- A tree all nodes of which have full names. -/
def FullyNamed (f : Field) : Prop := ∀ s ∈ f.sources, s.header.position.fullName.isSome

instance (f : Field) : Decidable f.FullyNamed := inferInstanceAs (Decidable (∀ s ∈ f.sources, _))

/-- A tree whose constants have names: its keys can be written, as every key can that is a text. -/
def KeysWritable (f : Field) : Prop := ∀ s ∈ f.sources, ∀ key ∈ s.keys, key.isWritable

instance (f : Field) : Decidable f.KeysWritable := inferInstanceAs (Decidable (∀ s ∈ f.sources, _))

/-! ## What a tree introduces -/

theorem introducedAll_eq_flatMap {fs : List Field}
    (h : ∀ f ∈ fs, f.introduced = f.sources.flatMap NameSource.introduced) :
    introducedAll fs = ((nodesOf fs).flatMap ownSources).flatMap NameSource.introduced := by
  induction fs with
  | nil => rfl
  | cons f fs ih =>
    obtain ⟨hf, hfs⟩ := List.forall_mem_cons.1 h
    rw [introducedAll, nodesOf, List.flatMap_append, List.flatMap_append, hf, ih hfs]
    rfl

/-- **What a tree introduces comes from its sources in their order.** -/
theorem introduced_eq_flatMap (f : Field) :
    f.introduced = f.sources.flatMap NameSource.introduced := by
  have hplain : ∀ (fullName : Option Text) (enumeration : Option Enumeration),
      ((enumeration.getD []).map fun entry => Introduced.constant fullName entry.1)
        = ((enumeration.getD []).map Prod.fst).map (.constant fullName) := by
    intro fullName enumeration
    rw [List.map_map]
    rfl
  have hitem : ∀ i : Item, i.introduced = i.source.introduced := by
    intro i
    exact congrArg (_ :: ·) (hplain _ _)
  induction f using inductionOn with
  | word w =>
    simp only [sources, nodes, List.flatMap_cons, List.flatMap_nil, List.append_nil, ownSources]
    exact congrArg (_ :: ·) (hplain _ _)
  | bitfield b =>
    simp only [sources, nodes, List.flatMap_cons, List.flatMap_nil, List.append_nil, ownSources,
      List.flatMap_map, introduced]
    exact congrArg (_ :: ·) (List.flatMap_congr fun i _ => hitem i)
  | blob b => rfl
  | struct h fields ih =>
    rw [introduced, introducedAll_eq_flatMap ih]
    rfl
  | union h members ih =>
    rw [introduced, introducedAll_eq_flatMap ih]
    rfl
  | stray i =>
    simp only [sources, nodes, List.flatMap_cons, List.flatMap_nil, List.append_nil, ownSources]
    exact hitem i

end Field

/-- The full name of the node that introduces a name. -/
def Introduced.node? : Introduced → Option Text
  | node fullName => fullName
  | constant fullName _ => fullName

theorem NameSource.introduced_map {s : NameSource} (hs : s.header.position.fullName.isSome) :
    s.introduced.map (fun x => (x.node?, x.text))
      = s.contributions.map fun c => (some c.node, some c.name) := by
  obtain ⟨fullName, hname⟩ := Option.isSome_iff_exists.1 hs
  simp only [introduced, contributions, NameSource.fullName, hname, Option.getD_some,
    List.map_cons, List.map_map]
  rfl

theorem Field.introduced_map {f : Field} (hf : f.FullyNamed) :
    f.introduced.map (fun x => (x.node?, x.text))
      = f.contributions.map fun c => (some c.node, some c.name) := by
  rw [introduced_eq_flatMap, contributions, List.map_flatMap, List.map_flatMap]
  exact List.flatMap_congr fun s hs => NameSource.introduced_map (hf s hs)

theorem Field.introduced_isWritable {f : Field} (hf : f.KeysWritable) :
    ∀ x ∈ f.introduced, x.isWritable := by
  rw [introduced_eq_flatMap]
  intro x hx
  obtain ⟨s, hs, hx⟩ := List.mem_flatMap.1 hx
  rcases List.mem_cons.1 hx with rfl | hx
  · rfl
  · obtain ⟨key, hkey, rfl⟩ := List.mem_map.1 hx
    exact hf s hs key hkey

theorem Field.names_map_some {f : Field} (hf : f.FullyNamed) :
    f.introduced.map Introduced.text = f.names.map some := by
  have hpairs := congrArg (List.map Prod.snd) (introduced_map hf)
  rw [List.map_map, List.map_map] at hpairs
  rw [names, List.map_map]
  exact hpairs

/-! ## Where the check refuses -/

/-- A clash is an error of the node that introduces the name. -/
theorem Introduced.clash_eq {x : Introduced} {fullName : Text} (hnode : x.node? = some fullName)
    (hwritable : x.isWritable) :
    ∃ cause : Cause, cause.kind = .duplicateName ∧ x.clash = .layout ⟨.str fullName, cause⟩ := by
  have hname : (Value.str fullName).isWritable = true := rfl
  cases x with
  | node n =>
    obtain rfl : n = some fullName := hnode
    exact ⟨_, rfl, rfl⟩
  | constant n key =>
    obtain rfl : n = some fullName := hnode
    have hkey : key.isWritable = true := hwritable
    refine ⟨.sharedConstant key (constantName fullName key.text), rfl, ?_⟩
    simp [clash, Failure.ofNode, Failure.atNode, hname, Cause.isWritable, Cause.values, hkey,
      Cause.nameText]

/-- **A list of introductions is refused at the first text that is not new.** -/
theorem checkIntroduced_eq_error {seen : List (Option Text)} {xs : List Introduced}
    (hwritable : ∀ x ∈ xs, x.isWritable)
    (hclash : ¬((xs.map Introduced.text).Nodup ∧ ∀ x ∈ xs, x.text ∉ seen)) :
    ∃ before x after, xs = before ++ x :: after ∧ (before.map Introduced.text).Nodup ∧
      (∀ y ∈ before, y.text ∉ seen) ∧ (x.text ∈ seen ∨ x.text ∈ before.map Introduced.text) ∧
      checkIntroduced seen xs = .error x.clash := by
  induction xs generalizing seen with
  | nil => simp at hclash
  | cons x xs ih =>
    obtain ⟨hx, hxs⟩ := List.forall_mem_cons.1 hwritable
    by_cases hseen : x.text ∈ seen
    · refine ⟨[], x, xs, rfl, List.nodup_nil, nofun, .inl hseen, ?_⟩
      rw [checkIntroduced, hx, if_neg (by decide), if_pos hseen]
    · have hstep : checkIntroduced seen (x :: xs) = checkIntroduced (x.text :: seen) xs := by
        rw [checkIntroduced, hx, if_neg (by decide), if_neg hseen]
      have hrest : ¬((xs.map Introduced.text).Nodup ∧ ∀ y ∈ xs, y.text ∉ x.text :: seen) := by
        rintro ⟨hnodup, hnew⟩
        obtain ⟨hfresh, hold⟩ := forall_text_notMem_cons.1 hnew
        exact hclash ⟨List.nodup_cons.2 ⟨hfresh, hnodup⟩, List.forall_mem_cons.2 ⟨hseen, hold⟩⟩
      obtain ⟨before, y, after, rfl, hnodup, hnew, hy, herror⟩ := ih hxs hrest
      obtain ⟨hfresh, hold⟩ := forall_text_notMem_cons.1 hnew
      refine ⟨x :: before, y, after, rfl, ?_, ?_, ?_, hstep.trans herror⟩
      · exact List.nodup_cons.2 ⟨hfresh, hnodup⟩
      · exact List.forall_mem_cons.2 ⟨hseen, hold⟩
      · rw [List.map_cons, List.mem_cons]
        rcases hy with hy | hy
        · rcases List.mem_cons.1 hy with hy | hy
          · exact .inr (.inl hy)
          · exact .inl hy
        · exact .inr (.inr hy)

/-! ## Whole trees -/

/-- The first of some names that is equal to one before it. -/
def FirstClash (names : List Contribution) (c : Contribution) : Prop :=
  ∃ before after, names = before ++ c :: after ∧ (before.map Contribution.name).Nodup ∧
    c.name ∈ before.map Contribution.name

namespace Field

variable {raw root : Field}

theorem checkUniqueNames_eq_ok_iff (hnamed : root.FullyNamed) (hkeys : root.KeysWritable) :
    checkUniqueNames root = .ok () ↔ root.names.Nodup := by
  rw [checkUniqueNames_eq, checkIntroduced_eq_ok_iff, names_map_some hnamed,
    List.nodup_map_iff (Option.some_injective Text)]
  constructor
  · rintro ⟨-, hnodup, -⟩
    exact hnodup
  · intro hnodup
    exact ⟨introduced_isWritable hkeys, hnodup, fun _ _ => List.not_mem_nil⟩

theorem checkUniqueNames_eq_error (hnamed : root.FullyNamed) (hkeys : root.KeysWritable)
    (hrepeated : ¬root.names.Nodup) :
    ∃ c cause, FirstClash root.contributions c ∧ cause.kind = .duplicateName ∧
      checkUniqueNames root = .error (.layout ⟨.str c.node, cause⟩) := by
  have hwritable := introduced_isWritable hkeys
  have hclash : ¬((root.introduced.map Introduced.text).Nodup ∧
      ∀ x ∈ root.introduced, x.text ∉ ([] : List (Option Text))) := by
    rw [names_map_some hnamed, List.nodup_map_iff (Option.some_injective Text)]
    exact fun h => hrepeated h.1
  obtain ⟨before, x, after, hsplit, hnodup, -, hx, herror⟩ :=
    checkIntroduced_eq_error hwritable hclash
  -- The split of what is introduced is one of the names, element by element.
  have hmap := introduced_map hnamed
  rw [hsplit, List.map_append, List.map_cons] at hmap
  obtain ⟨before', rest, hcontributions, hbefore, hrest⟩ := List.map_eq_append_iff.1 hmap.symm
  obtain ⟨c, after', rfl, hc, -⟩ := List.map_eq_cons_iff.1 hrest
  obtain ⟨hnode, htext⟩ := Prod.mk.inj hc
  have htexts : before.map Introduced.text = (before'.map Contribution.name).map some := by
    have hpairs := congrArg (List.map Prod.snd) hbefore
    rw [List.map_map, List.map_map] at hpairs
    rw [List.map_map]
    exact hpairs.symm
  obtain ⟨cause, hkind, hlayout⟩ := Introduced.clash_eq hnode.symm
    (hwritable x (hsplit ▸ List.mem_append_right _ List.mem_cons_self))
  refine ⟨c, cause, ⟨before', after', hcontributions, ?_, ?_⟩, hkind, ?_⟩
  · rwa [htexts, List.nodup_map_iff (Option.some_injective Text)] at hnodup
  · rcases hx with hx | hx
    · cases hx
    · rw [htexts, ← htext] at hx
      exact (List.mem_map_of_injective (Option.some_injective Text)).1 hx
  · rw [checkUniqueNames_eq, herror, hlayout]

theorem PlacedUnder.fullyNamed {f : Field} {path : Path} {index : Nat}
    (h : f.PlacedUnder path index) : f.FullyNamed := by
  have hsome : ∀ {h : Header} {path : Path} {index : Nat}, h.NamedUnder path index →
      h.position.fullName.isSome := by
    intro h path index hn
    rw [hn.fullName]
    rfl
  intro s hs
  obtain ⟨g, hg, hs⟩ := List.mem_flatMap.1 hs
  obtain ⟨path', index', ⟨header, items, -, -⟩⟩ := h.node_of_mem g hg
  cases g with
  | bitfield b =>
    rcases List.mem_cons.1 hs with rfl | hs
    · exact hsome header
    · obtain ⟨i, hi, rfl⟩ := List.mem_map.1 hs
      obtain ⟨k, hk⟩ := List.mem_iff_getElem?.1 hi
      exact hsome (items b rfl k i hk).header
  | _ =>
    obtain rfl := List.mem_singleton.1 hs
    exact hsome header

/-- No name occurs twice in an accepted tree. -/
theorem names_nodup (h : raw.resolve = .ok root) : root.FullyNamed ∧ root.names.Nodup := by
  obtain ⟨hplaced, hunique⟩ := resolve_eq_ok h
  have hnamed := hplaced.fullyNamed
  rw [checkUniqueNames_eq] at hunique
  obtain ⟨-, hnodup, -⟩ := checkIntroduced_eq_ok_iff.1 hunique
  rw [names_map_some hnamed, List.nodup_map_iff (Option.some_injective Text)] at hnodup
  exact ⟨hnamed, hnodup⟩

/-- **The check for unique names accepts exactly the trees in which no name occurs twice, and
refuses any other at the node that contributes the first name met before.**  Every tree that is
accepted as a whole has passed it. -/
theorem checkUniqueNames_decides :
    (∀ root : Field, root.FullyNamed → root.KeysWritable →
      (checkUniqueNames root = .ok () ↔ root.names.Nodup) ∧
      (¬root.names.Nodup → ∃ c cause, FirstClash root.contributions c ∧
        cause.kind = .duplicateName ∧
        checkUniqueNames root = .error (.layout ⟨.str c.node, cause⟩))) ∧
    ∀ raw root : Field, raw.resolve = .ok root → root.FullyNamed ∧ root.names.Nodup := by
  refine ⟨fun root hnamed hkeys => ⟨?_, ?_⟩, fun raw root h => names_nodup h⟩
  · exact checkUniqueNames_eq_ok_iff hnamed hkeys
  · exact checkUniqueNames_eq_error hnamed hkeys

/-- A constant of a word and an item of a bit field behind it with one name. -/
def clashingRoot : Field :=
  struct {}
    [word { header := { name := some (.str "x") }, bits := 8, enumeration := some [(.str "y", 1)] },
      bitfield { bits := 8, items := [{ header := { name := some (.str "X_Y") }, bits := 8 }] }]

theorem checkUniqueNames_decides_clashingRoot :
    (clashingRoot.located [] 0 0).FullyNamed ∧ (clashingRoot.located [] 0 0).KeysWritable ∧
      ¬(clashingRoot.located [] 0 0).names.Nodup ∧
      (∃ c cause, FirstClash (clashingRoot.located [] 0 0).contributions c ∧
        cause.kind = .duplicateName ∧ checkUniqueNames (clashingRoot.located [] 0 0)
          = .error (.layout ⟨.str c.node, cause⟩)) ∧
      switchRoot.resolve = .ok (switchRoot.located [] 0 0) ∧
      (switchRoot.located [] 0 0).names.Nodup := by
  have hnamed : (clashingRoot.located [] 0 0).FullyNamed := by decide
  have hkeys : (clashingRoot.located [] 0 0).KeysWritable := by decide
  have hrepeated : ¬(clashingRoot.located [] 0 0).names.Nodup := by decide +kernel
  have hresolve : switchRoot.resolve = .ok (switchRoot.located [] 0 0) := rfl
  exact ⟨hnamed, hkeys, hrepeated, (checkUniqueNames_decides.1 _ hnamed hkeys).2 hrepeated,
    hresolve, (checkUniqueNames_decides.2 _ _ hresolve).2⟩

end Field

end RegisterLayout
