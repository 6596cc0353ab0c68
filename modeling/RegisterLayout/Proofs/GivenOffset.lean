import RegisterLayout.Proofs.Walk

/-!
# Offsets that an author gave

An author may write at which byte a node stands.  Placing compares what is written with where it
puts the node for the root, for the fields of a struct and, by refusing every offset, for the
members of a union, so these nodes stand where they should at any depth and for sizes of every
kind.  The items of a bit field stand where it stands, whatever is written on them: an offset of an
item is neither compared nor refused.

Principal definitions: `Number.Equals`, `Header.HonoursOffset`.
Principal results: `Field.honoursOffset_of_place`, `Field.resolve_honoursOffsets_iff`;
`Field.resolve_shiftedItem`, an item that stands elsewhere.
-/

namespace RegisterLayout

/-- A number that a value is equal to. -/
def Number.Equals (n : Number) (v : Value) : Prop := ∃ m, v.number? = some m ∧ n.same m = true

theorem Number.equals_iff {n : Number} {v : Value} :
    n.Equals v ↔ (v.number?.map n.same).getD false = true := by
  unfold Equals
  cases v.number? <;> simp

/-- A node that stands at a byte offset. -/
def Header.IsAt (h : Header) (start : Number) : Prop :=
  h.position.byteOffset = some (.num start)

theorem Header.IsAt.exists_iff {h : Header} {start : Number} (hstart : h.IsAt start)
    {P : Number → Prop} : (∃ there, h.IsAt there ∧ P there) ↔ P start := by
  constructor
  · rintro ⟨there, hthere, hP⟩
    obtain rfl := Value.num.inj (Option.some.inj (hstart.symm.trans hthere))
    exact hP
  · exact fun hP => ⟨start, hstart, hP⟩

/-- A node that stands where its author wants it, if the author gave an offset. -/
def Header.HonoursOffset (h : Header) : Prop :=
  ∀ given, h.offset = some given → ∃ start, h.IsAt start ∧ start.Equals given

/-! ## The items of a bit field -/

section

variable {path : Path} {index : Nat} {start wordBits : Number}

theorem isAt_of_nameItems {items : List Item} {named : List (Item × Int)}
    (h : nameItems path start wordBits index items = .ok named) :
    ∀ r ∈ named, r.1.header.IsAt start := by
  induction items generalizing index named with
  | nil =>
    obtain rfl := Except.ok.inj h
    exact fun _ hr => nomatch hr
  | cons i rest ih =>
    obtain ⟨-, -, more, hmore, rfl⟩ := nameItems_cons_eq_ok h
    exact List.forall_mem_cons.2 ⟨rfl, ih hmore⟩

/-- **The items of a bit field stand where it stands.** -/
theorem isAt_of_placeBitField {b : BitField} {fullName : Text} {r : BitField × Number}
    (h : placeBitField b fullName path start = .ok r) :
    r.1.header.IsAt start ∧ ∀ i ∈ r.1.items, i.header.IsAt start := by
  obtain ⟨width, named, stop, -, hnamed, rfl⟩ := placeBitField_eq_ok h
  refine ⟨rfl, fun i hi => ?_⟩
  obtain ⟨k, hk⟩ := List.mem_iff_getElem?.1 hi
  obtain ⟨r, _, hr, rfl⟩ := getElem?_assignRanges hk
  exact isAt_of_nameItems hnamed r (List.mem_of_getElem? hr)

end

namespace Field

/-! ## What is compared, and where -/

section

variable {path : Path} {index : Nat} {start : Number}

theorem equals_of_fieldFault? {f : Field} (h : fieldFault? index start f = none) :
    ∀ given, f.header.offset = some given → start.Equals given := by
  intro given hgiven
  have hnot : ∀ header fields, f ≠ struct header fields := by
    rintro header fields rfl
    cases h
  rw [Number.equals_iff]
  by_contra hother
  simp [fieldFault?, hgiven, hother] at h

theorem offset_of_memberFault? {parent : Text} {f : Field} (h : memberFault? parent f = none) :
    f.header.offset = none :=
  (memberFault?_eq_none_iff.1 h : Surrounding.union.Admits 0 f).1

theorem equals_of_checkRootOffset {root : Field} (h : root.checkRootOffset = .ok ()) :
    ∀ given, root.header.offset = some given → Number.Equals 0 given := by
  intro given hgiven
  simp only [checkRootOffset, hgiven] at h
  rw [Number.equals_iff]
  split at h
  · assumption
  · cases h

/-- A node that stands where its author wants it, and whose items stand where it stands. -/
structure Settled (f : Field) : Prop where
  own : f.header.HonoursOffset
  items : ∀ b, f = bitfield b → ∃ there, b.header.IsAt there ∧ ∀ i ∈ b.items, i.header.IsAt there

theorem honoursOffset_of_place {f : Field} {r : Field × Number}
    (h : place path index start f = .ok r)
    (hgiven : ∀ given, f.header.offset = some given → start.Equals given) :
    r.1.header.HonoursOffset := by
  obtain ⟨-, hheader⟩ := place_header h
  rw [hheader]
  exact fun given hoffset => ⟨start, rfl, hgiven given hoffset⟩

/-- **A tree that is placed where its root should be has all its nodes where they should be.** -/
theorem settled_of_place {f : Field} {r : Field × Number}
    (h : place path index start f = .ok r)
    (hgiven : ∀ given, f.header.offset = some given → start.Equals given) :
    ∀ g ∈ r.1.nodes, g.Settled := by
  induction f using inductionOn generalizing path index start r with
  | word w =>
    have hown := honoursOffset_of_place h hgiven
    obtain ⟨-, placed, -, rfl⟩ := place_word_eq_ok_iff.1 h
    exact List.forall_mem_singleton.2 ⟨hown, by simp⟩
  | bitfield b =>
    have hown := honoursOffset_of_place h hgiven
    obtain ⟨-, placed, hplaced, rfl⟩ := place_bitfield_eq_ok_iff.1 h
    refine List.forall_mem_singleton.2 ⟨hown, ?_⟩
    intro b' hb'
    obtain rfl := bitfield.inj hb'
    exact ⟨start, isAt_of_placeBitField hplaced⟩
  | blob b =>
    have hown := honoursOffset_of_place h hgiven
    obtain ⟨-, placed, -, rfl⟩ := place_blob_eq_ok_iff.1 h
    exact List.forall_mem_singleton.2 ⟨hown, by simp⟩
  | struct header fields ih =>
    have hown := honoursOffset_of_place h hgiven
    obtain ⟨-, placed, hplaced, -, rfl⟩ := place_struct_eq_ok_iff.1 h
    refine forall_mem_nodes.2 ⟨⟨hown, by simp⟩, fun c hc => ?_⟩
    obtain ⟨k, hk⟩ := List.mem_iff_getElem?.1 hc
    obtain ⟨g, hg, there, stop, hfault, hplaced⟩ := placeFields_eq_ok hplaced hk
    exact ih g hg hplaced (equals_of_fieldFault? hfault)
  | union header members ih =>
    have hown := honoursOffset_of_place h hgiven
    obtain ⟨-, -, -, placed, hplaced, rfl⟩ := place_union_eq_ok_iff.1 h
    refine forall_mem_nodes.2 ⟨⟨hown, by simp⟩, fun c hc => ?_⟩
    obtain ⟨k, hk⟩ := List.mem_iff_getElem?.1 hc
    obtain ⟨g, hg, hfault, stop, hplaced⟩ := placeMembers_eq_ok hplaced hk
    -- A member has no offset that it could fail to honour.
    refine ih g hg hplaced fun given hoffset => ?_
    rw [offset_of_memberFault? hfault] at hoffset
    cases hoffset
  | stray i => exact absurd h place_stray_ne_ok

end

/-! ## Accepted trees -/

theorem settled_of_resolve {raw root : Field} (h : raw.resolve = .ok root) :
    ∀ g ∈ root.nodes, g.Settled := by
  simp only [resolve, check_bind_eq_ok_iff, @bind_eq_ok_iff (Field × Number), pure_eq_ok_iff] at h
  obtain ⟨hoffset, placed, hplaced, -, rfl⟩ := h
  exact settled_of_place hplaced (equals_of_checkRootOffset hoffset)

/-- **In an accepted tree every node but an item stands at the offset that it was given, and every
item where its bit field stands.**  All given offsets are honoured exactly if those of items are the
offsets of their bit fields, which placing does not check. -/
theorem resolve_honoursOffsets_iff {raw root : Field} (h : raw.resolve = .ok root) :
    (∀ g ∈ root.nodes, g.header.HonoursOffset) ∧
    (∀ b ∈ root.bitFields, ∃ there, b.header.IsAt there ∧ ∀ i ∈ b.items, i.header.IsAt there) ∧
    ((∀ v ∈ root.visits, v.node.header.HonoursOffset) ↔
      ∀ b ∈ root.bitFields, ∀ i ∈ b.items, ∀ given, i.header.offset = some given →
        ∃ there, b.header.IsAt there ∧ there.Equals given) := by
  have hsettled := settled_of_resolve h
  have hnodes : ∀ g ∈ root.nodes, g.header.HonoursOffset := fun g hg => (hsettled g hg).own
  have hitems : ∀ b ∈ root.bitFields,
      ∃ there, b.header.IsAt there ∧ ∀ i ∈ b.items, i.header.IsAt there :=
    fun b hb => (hsettled _ (mem_bitFields.1 hb)).items b rfl
  refine ⟨hnodes, hitems, ?_⟩
  rw [visits, @forall_mem_walk_node fun g => g.header.HonoursOffset]
  refine Iff.trans (and_iff_right hnodes) ?_
  refine forall₂_congr fun b hb => forall₂_congr fun i hi => forall₂_congr fun given _ => ?_
  obtain ⟨there, hb', hitems⟩ := hitems b hb
  rw [hb'.exists_iff]
  exact (hitems i hi).exists_iff

/-- A struct with offsets on nodes of several kinds, as they are. -/
def pinnedRoot : Field :=
  struct { name := some (.str "r"), offset := some 0 }
    [word { header := { name := some (.str "a"), offset := some 0 }, bits := 16 },
      bitfield { header := { offset := some 2 }, bits := 8,
                 items :=
                   [{ header := { name := some (.str "x"), offset := some 2 }, bits := 8 }] }]

theorem resolve_honoursOffsets_pinnedRoot :
    pinnedRoot.resolve = .ok (pinnedRoot.located [] 0 0) ∧
      ∀ v ∈ (pinnedRoot.located [] 0 0).visits, v.node.header.HonoursOffset := by
  have hresolve : pinnedRoot.resolve = .ok (pinnedRoot.located [] 0 0) := rfl
  refine ⟨hresolve, (resolve_honoursOffsets_iff hresolve).2.2.2 ?_⟩
  intro b hb i hi given hgiven
  obtain rfl := List.mem_singleton.1 hb
  obtain rfl := List.mem_singleton.1 hi
  obtain rfl := Option.some.inj hgiven
  exact ⟨2, rfl, 2, rfl, rfl⟩

/-- A byte whose only item wants to be at byte 5. -/
def shiftedItem : Field :=
  bitfield { header := { name := some (.str "b") }, bits := 8,
             items := [{ header := { name := some (.str "x"), offset := some 5 }, bits := 8 }] }

/-- An item can stand elsewhere than its author says. -/
theorem resolve_shiftedItem :
    shiftedItem.resolve = .ok (shiftedItem.located [] 0 0) ∧
      ∃ v ∈ (shiftedItem.located [] 0 0).visits, v.node.header.offset = some (.int 5) ∧
        v.node.header.IsAt 0 ∧ ¬v.node.header.HonoursOffset := by
  refine ⟨rfl, _, List.mem_cons_of_mem _ List.mem_cons_self, rfl, rfl, fun h => ?_⟩
  obtain ⟨start, hstart, m, hm, hsame⟩ := h (.int 5) rfl
  obtain rfl : (0 : Number) = start := Value.num.inj (Option.some.inj hstart)
  obtain rfl : Number.int 5 = m := Option.some.inj hm
  exact absurd hsame (by decide)

end Field

end RegisterLayout
