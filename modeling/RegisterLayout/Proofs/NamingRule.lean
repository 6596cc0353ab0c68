import RegisterLayout.Proofs.Walk

/-!
# The rule of names

The full name of a node follows from the way to it.  A named node has the labels of the named nodes
on the way, its own last; an unnamed one has a component for every node on the way, where an
unnamed node counts as `f` and its index in its parent.  What is left out of the name of a named
node can also be told by its form alone: no label of an accepted tree looks like such an index.

Principal definitions: `Trail.labels`, `Trail.components`, `Visit.NamedByRule`.
Principal results: `Trail.filter_components`, `Field.PlacedUnder.namedByRule`,
`Field.resolve_namedByRule`.
-/

namespace RegisterLayout

namespace Trail

/-- The labels of the named nodes on the way. -/
def labels (t : Trail) : List Text :=
  t.filterMap fun p => if p.1.IsNamed then some p.1.labelText else none

/-- A text for every node on the way: its label, or `f` and its index if it is unnamed. -/
def components (t : Trail) : List Text :=
  t.map fun p => if p.1.IsNamed then p.1.labelText else numberedName "f" p.2

/-- A trail all nodes of which have names that are allowed. -/
def Allowed (t : Trail) : Prop := ∀ p ∈ t, p.1.NameAllowed

/-- The steps of a trail. -/
def path (t : Trail) : Path := t.map fun p => p.1.stepUnder p.2

theorem path_concat (t : Trail) (h : Header) (index : Nat) :
    path (t ++ [(h, index)]) = h.pathUnder t.path index :=
  List.map_append

theorem text_stepUnder (h : Header) (index : Nat) :
    (h.stepUnder index).text = if h.IsNamed then h.labelText else numberedName "f" index := by
  unfold Header.stepUnder
  split <;> rfl

theorem label?_stepUnder (h : Header) (index : Nat) :
    (h.stepUnder index).label? = if h.IsNamed then some h.labelText else none := by
  unfold Header.stepUnder
  split <;> rfl

theorem labels_path (t : Trail) : t.path.labels = t.labels := by
  rw [Path.labels, path, List.filterMap_map, labels]
  exact List.filterMap_congr fun p _ => label?_stepUnder p.1 p.2

theorem map_text_path (t : Trail) : t.path.map Step.text = t.components := by
  rw [path, List.map_map, components]
  exact List.map_congr_left fun p _ => text_stepUnder p.1 p.2

end Trail

/-! ## Labels and indices -/

/-- The component of an unnamed node has the form that is kept for it. -/
theorem isIndexName_numberedName (n : Nat) : IsIndexName (numberedName "f" n) := by
  have hdigits : ∀ c ∈ Nat.toDigits 10 n, c.isDigit = true :=
    fun c hc => Nat.isDigit_of_mem_toDigits (by decide) (by decide) hc
  refine ⟨Nat.toDigits 10 n, Nat.toDigits_ne_nil, hdigits, .inl ?_⟩
  rw [numberedName, Text.ofString, String.toList_append, Nat.toString_eq_repr, Nat.toList_repr]
  rfl

/-- The label of a named node is a text, and of another form. -/
theorem Header.NameAllowed.label {h : Header} (ha : h.NameAllowed) (hnamed : h.IsNamed) :
    h.label? = some (.str h.labelText) ∧ ¬IsIndexName h.labelText := by
  have hfree : ∃ v, h.label? = some v ∧ IsFreeName v := by
    unfold label?
    cases hshort : filled? h.shortName with
    | some short => exact ⟨short, rfl, (ha.shortName short hshort).2⟩
    | none =>
      obtain ⟨name, hname⟩ := Option.isSome_iff_exists.1 hnamed
      exact ⟨name, (Option.filter_eq_some_iff.1 hname).1, ha.name name hname⟩
  obtain ⟨_, hlabel, s, rfl, hs⟩ := hfree
  have htext : h.labelText = s := by
    rw [labelText, hlabel]
    rfl
  rw [htext]
  exact ⟨hlabel, hs⟩

/-- **The indices among the components can be told by their form.** -/
theorem Trail.filter_components {t : Trail} (h : t.Allowed) :
    t.components.filter (fun s => !isReservedName s) = t.labels := by
  rw [components, labels, List.filter_map, ← List.filterMap_eq_map, List.filterMap_filter]
  refine List.filterMap_congr fun p hp => ?_
  by_cases hnamed : p.1.IsNamed
  · have hfree := ((h p hp).label hnamed).2
    rw [← isReservedName_iff] at hfree
    simp [hnamed, hfree]
  · have hindex := isReservedName_iff.2 (isIndexName_numberedName p.2)
    simp [hnamed, hindex]

/-! ## Names of visited nodes -/

/-- A node with the full name that the way to it gives it. -/
structure Visit.NamedByRule (v : Visit) : Prop where
  named : v.node.header.IsNamed →
    v.node.header.position.fullName = some (Path.joined v.trail.labels)
  unnamed : ¬v.node.header.IsNamed →
    v.node.header.position.fullName = some (Path.joined v.trail.components)
  /-- The labels are the texts that the author wrote. -/
  label : ∀ p ∈ v.trail, p.1.IsNamed → p.1.label? = some (.str p.1.labelText)
  /-- Leaving out the texts that look like indices leaves the labels. -/
  filtered : v.trail.components.filter (fun s => !isReservedName s) = v.trail.labels

/-- The name of a node at its place is the one that the way to it gives. -/
theorem Header.NamedUnder.namedByRule {above : Trail} {index : Nat} {f : Field}
    (h : f.header.NamedUnder above.path index) (habove : above.Allowed) :
    (Visit.mk (above ++ [(f.header, index)]) f).NamedByRule := by
  have hallowed : Trail.Allowed (above ++ [(f.header, index)]) :=
    List.forall_mem_append.2 ⟨habove, List.forall_mem_singleton.2 h.allowed⟩
  refine ⟨fun hnamed => ?_, fun hunnamed => ?_, ?_, Trail.filter_components hallowed⟩
  · rw [h.fullName, nameUnder, if_pos hnamed, Trail.labels_path]
    simp [Trail.labels, hnamed]
  · rw [h.fullName, nameUnder, if_neg hunnamed, Path.fullText, ← Trail.path_concat,
      Trail.map_text_path]
  · intro p hp hnamed
    exact ((hallowed p hp).label hnamed).1

namespace Field

/-- **Every node and every item of a placed tree is named by the rule.** -/
theorem PlacedUnder.namedByRule {f : Field} {path : Path} {index : Nat}
    (h : f.PlacedUnder path index) {above : Trail} (hpath : above.path = path)
    (habove : above.Allowed) : ∀ v ∈ f.walk above index, v.NamedByRule := by
  induction h generalizing above with
  | @node path index f header items union children ih =>
    subst hpath
    have hown : Trail.Allowed (above ++ [(f.header, index)]) :=
      List.forall_mem_append.2 ⟨habove, List.forall_mem_singleton.2 header.allowed⟩
    have hpath := Trail.path_concat above f.header index
    refine forall_mem_walk.2 ⟨header.namedByRule habove, ?_, ?_⟩
    · intro b hb k i hk
      have hitem := (items b hb k i hk).header
      rw [← hpath] at hitem
      exact Header.NamedUnder.namedByRule (f := stray i) hitem hown
    · exact fun k c hk => ih k c hk hpath hown

/-- **In an accepted tree the full name of every node follows from the way to it**, whatever the
kinds of the nodes on it are. -/
theorem resolve_namedByRule {raw root : Field} (h : raw.resolve = .ok root) :
    ∀ v ∈ root.visits, v.NamedByRule :=
  (resolve_eq_ok h).1.namedByRule rfl fun _ hp => nomatch hp

/-- An unnamed struct with a union and an unnamed bit field, items of which have names. -/
def unnamedRoot : Field :=
  struct {}
    [union { name := some (.str "mode_select"), shortName := some (.str "sel") }
        [word { header := { name := some (.str "raw") }, bits := 8 },
          struct { name := some (.str "parts") } [word { bits := 8 }]],
      bitfield { bits := 8, items := [{ header := { name := some (.str "x") }, bits := 3 },
        { bits := 5 }] }]

theorem resolve_namedByRule_unnamedRoot :
    unnamedRoot.resolve = .ok (unnamedRoot.located [] 0 0) ∧
      (∀ v ∈ (unnamedRoot.located [] 0 0).visits, v.NamedByRule) ∧
      (unnamedRoot.located [] 0 0).visits.map (fun v => v.node.fullName)
        = ["f0", "sel", "sel_raw", "sel_parts", "f0_sel_parts_f0", "f0_f1", "x", "f0_f1_f1"] := by
  have hresolve : unnamedRoot.resolve = .ok (unnamedRoot.located [] 0 0) := rfl
  exact ⟨hresolve, resolve_namedByRule hresolve, rfl⟩

end Field

end RegisterLayout
