import RegisterLayout.Proofs.Spot

/-!
# Names in placed trees

A tree that was placed has a full name at every node and every item, made from the names on the
way there, whatever its sizes are.  The members of its unions are known by name, all but blobs.

Principal definitions: `Header.NamedUnder`, `Field.PlacedUnder`.
Principal results: `Field.place_placedUnder`, `Field.resolve_eq_ok`.
-/

namespace RegisterLayout

/-! ## Nodes by their places -/

/-- A node whose own names are allowed and that carries the full name of its place. -/
structure Header.NamedUnder (h : Header) (path : Path) (index : Nat) : Prop where
  allowed : h.NameAllowed
  fullName : h.position.fullName = some (h.nameUnder path index)

/-- An item as it is found in a placed bit field. -/
structure Item.PlacedUnder (i : Item) (path : Path) (index : Nat) : Prop where
  header : i.header.NamedUnder path index
  width : 1 ≤ i.bits.whole
  bits : ∃ endBit, i.bitRange = some (bitsBelow endBit i.bits.whole)

/-- A tree that was placed under a path. -/
inductive Field.PlacedUnder : Path → Nat → Field → Prop
  | node {path : Path} {index : Nat} {f : Field} (header : f.header.NamedUnder path index)
      (items : ∀ b, f = .bitfield b → ∀ (k : Nat) (i : Item), b.items[k]? = some i →
        i.PlacedUnder (f.header.pathUnder path index) k)
      (union : ∀ h members, f = .union h members →
        h.IsNamed ∧ ∀ c ∈ members, (∃ b, c = .blob b) ∨ c.header.IsNamed)
      (children : ∀ (k : Nat) (c : Field), f.children[k]? = some c →
        PlacedUnder (f.header.pathUnder path index) k c) :
      PlacedUnder path index f

theorem Header.NameAllowed.namedUnder {h : Header} (ha : h.NameAllowed) (path : Path)
    (index : Nat) (start : Number) :
    (h.placedAt (h.nameUnder path index) start).NamedUnder path index :=
  ⟨⟨ha.name, ha.shortName⟩, rfl⟩

namespace Field

/-- A node without children is placed with its items. -/
theorem PlacedUnder.of_leaf {f : Field} {path : Path} {index : Nat}
    (header : f.header.NamedUnder path index) (hleaf : f.nodes = [f])
    (hunion : ∀ h members, f ≠ union h members)
    (items : ∀ b, f = bitfield b → ∀ (k : Nat) (i : Item), b.items[k]? = some i →
      i.PlacedUnder (f.header.pathUnder path index) k) : f.PlacedUnder path index := by
  refine .node header items (fun h members hf => absurd hf (hunion h members)) ?_
  intro k c hk
  -- A child would be a second node.
  rw [nodes_eq, List.cons.injEq] at hleaf
  have hc := (sublist_nodesOf f.children).subset (List.mem_of_getElem? hk)
  rw [hleaf.2] at hc
  cases hc

/-- What is below a node of a placed tree is a placed tree. -/
theorem PlacedUnder.node_of_mem {f : Field} {path : Path} {index : Nat}
    (h : f.PlacedUnder path index) : ∀ g ∈ f.nodes, ∃ path' index', g.PlacedUnder path' index' := by
  induction h with
  | node header items union children ih =>
    refine forall_mem_nodes.2 ⟨⟨_, _, .node header items union children⟩, ?_⟩
    intro c hc
    obtain ⟨k, hk⟩ := List.mem_iff_getElem?.1 hc
    exact ih k c hk

end Field

/-! ## Items -/

section

variable {path : Path} {index : Nat} {start wordBits : Number}

theorem nameItem_eq_ok {i : Item} {r : Item × Int}
    (h : nameItem path index start wordBits i = .ok r) :
    i.header.NameAllowed ∧ 1 ≤ i.bits.whole ∧ r = (i.namedAt path index start, i.bits.whole) := by
  simp only [nameItem, nodeName_bind_eq_ok_iff, refuse_eq_ok_iff] at h
  obtain ⟨hname, -, h⟩ := h
  by_cases hwidth : 1 ≤ i.bits.whole
  · simp only [itemWidth?_eq, if_pos hwidth] at h
    refine ⟨hname, hwidth, ?_⟩
    cases he : i.enumeration with
    | none =>
      simp only [he, check_bind_eq_ok_iff, pure_eq_ok_iff] at h
      obtain ⟨-, rfl⟩ := h
      rw [Item.namedAt, he]
    | some entries =>
      simp only [he, @bind_eq_ok_iff Int, check_bind_eq_ok_iff, pure_eq_ok_iff] at h
      obtain ⟨greatest, -, -, -, rfl⟩ := h
      rw [Item.namedAt, he]
  · simp only [itemWidth?_eq, if_neg hwidth] at h
    exact absurd h throw_ne_ok

/-- Items are named one by one, the others as a run of their own. -/
theorem nameItems_cons_eq_ok {i : Item} {rest : List Item} {named : List (Item × Int)}
    (h : nameItems path start wordBits index (i :: rest) = .ok named) :
    i.header.NameAllowed ∧ 1 ≤ i.bits.whole ∧
      ∃ more, nameItems path start wordBits (index + 1) rest = .ok more ∧
        named = (i.namedAt path index start, i.bits.whole) :: more := by
  simp only [nameItems, bind_eq_ok_iff, pure_eq_ok_iff] at h
  obtain ⟨first, hfirst, more, hmore, rfl⟩ := h
  obtain ⟨hname, hwidth, rfl⟩ := nameItem_eq_ok hfirst
  exact ⟨hname, hwidth, more, hmore, rfl⟩

theorem nameItems_eq_ok {items : List Item} {named : List (Item × Int)}
    (h : nameItems path start wordBits index items = .ok named) {k : Nat} {r : Item × Int}
    (hk : named[k]? = some r) :
    r.1.header.NamedUnder path (index + k) ∧ 1 ≤ r.1.bits.whole ∧ r.2 = r.1.bits.whole := by
  induction items generalizing index named k with
  | nil =>
    rw [nameItems, Except.ok.injEq] at h
    subst h
    simp at hk
  | cons i rest ih =>
    obtain ⟨hname, hwidth, more, hmore, rfl⟩ := nameItems_cons_eq_ok h
    cases k with
    | zero =>
      rw [List.getElem?_cons_zero, Option.some.injEq] at hk
      subst hk
      exact ⟨hname.namedUnder path index start, hwidth, rfl⟩
    | succ k =>
      rw [List.getElem?_cons_succ] at hk
      have hplaced := ih hmore hk
      rwa [Nat.add_assoc, Nat.add_comm 1] at hplaced

/-- The ranges of items do not touch their names and widths. -/
theorem getElem?_assignRanges {named : List (Item × Int)} {endBit : Int} {k : Nat} {p : Item}
    (hk : (assignRanges endBit named)[k]? = some p) :
    ∃ r endBit, named[k]? = some r ∧ p = { r.1 with bitRange := some (bitsBelow endBit r.2) } := by
  induction named generalizing endBit k with
  | nil => simp [assignRanges] at hk
  | cons r rest ih =>
    cases k with
    | zero =>
      rw [assignRanges, List.getElem?_cons_zero, Option.some.injEq] at hk
      exact ⟨r, _, rfl, hk.symm⟩
    | succ k =>
      rw [assignRanges, List.getElem?_cons_succ] at hk
      exact ih hk

/-- The items of a placed bit field are named, and have their ranges from the top bit down. -/
theorem placeBitField_eq_ok {b : BitField} {fullName : Text} {r : BitField × Number}
    (h : placeBitField b fullName path start = .ok r) :
    ∃ width named stop, wordWidth? b.bits = some width ∧
      nameItems path start width 0 b.items = .ok named ∧
      r = ({ b with
        header := b.header.placedAt fullName start
        items := assignRanges width.truncate named }, stop) := by
  unfold placeBitField at h
  split at h
  · exact absurd h throw_ne_ok
  · rename_i width hwidth
    simp only [bind_eq_ok_iff, refuse_eq_ok_iff, pure_eq_ok_iff] at h
    obtain ⟨named, hnamed, -, stop, -, rfl⟩ := h
    exact ⟨width, named, stop, hwidth, hnamed, rfl⟩

theorem placedUnder_of_placeBitField {b : BitField} {fullName : Text} {r : BitField × Number}
    (h : placeBitField b fullName path start = .ok r) :
    r.1.header = b.header.placedAt fullName start ∧
      ∀ (k : Nat) (i : Item), r.1.items[k]? = some i → i.PlacedUnder path k := by
  obtain ⟨width, named, stop, -, hnamed, rfl⟩ := placeBitField_eq_ok h
  refine ⟨rfl, fun k i hi => ?_⟩
  obtain ⟨r, endBit, hk, rfl⟩ := getElem?_assignRanges hi
  obtain ⟨hheader, hwidth, hbits⟩ := nameItems_eq_ok hnamed hk
  rw [Nat.zero_add] at hheader
  exact ⟨hheader, hwidth, endBit, hbits ▸ rfl⟩

end

/-! ## Words and blobs -/

/-- A placed word has a width, and is as it was but for its position. -/
theorem placeWord_eq_ok {w : Word} {fullName : Text} {start : Number} {r : Word × Number}
    (h : placeWord w fullName start = .ok r) :
    (∃ width, wordWidth? w.bits = some width) ∧
      r.1 = { w with header := w.header.placedAt fullName start } := by
  unfold placeWord at h
  split at h
  · exact absurd h throw_ne_ok
  · rename_i width hwidth
    refine ⟨⟨width, hwidth⟩, ?_⟩
    simp only [bind_eq_ok_iff, refuse_eq_ok_iff] at h
    obtain ⟨aligned, -, -, h⟩ := h
    cases hunused : unusedAttribute? w with
    | some cause =>
      simp only [hunused, throw_bind] at h
      exact absurd h throw_ne_ok
    | none =>
      simp only [hunused] at h
      cases he : w.enumeration with
      | none =>
        simp only [he, bind_eq_ok_iff, pure_eq_ok_iff] at h
        obtain ⟨stop, -, rfl⟩ := h
        rfl
      | some entries =>
        cases width with
        | int n =>
          simp only [he, check_bind_eq_ok_iff, @bind_eq_ok_iff Number, pure_eq_ok_iff] at h
          obtain ⟨-, stop, -, rfl⟩ := h
          rfl
        | real x =>
          simp only [he, throw_bind] at h
          exact absurd h throw_ne_ok

/-- A placed blob has a byte at least, and is as it was but for its position. -/
theorem placeBlob_eq_ok {b : Blob} {fullName : Text} {start : Number} {r : Blob × Number}
    (h : placeBlob b fullName start = .ok r) :
    1 ≤ b.bytes.whole ∧ r.1 = { b with header := b.header.placedAt fullName start } := by
  unfold placeBlob at h
  split at h
  · exact absurd h throw_ne_ok
  · rename_i n hn
    obtain ⟨hbytes, hone⟩ := Option.filter_eq_some_iff.1 hn
    simp only [bind_eq_ok_iff, pure_eq_ok_iff] at h
    obtain ⟨stop, -, rfl⟩ := h
    rw [Value.whole, hbytes]
    exact ⟨of_decide_eq_true hone, rfl⟩

/-! ## Trees -/

namespace Field

section

variable {path : Path} {index : Nat} {start : Number}

theorem place_word_eq_ok_iff {w : Word} {r : Field × Number} :
    place path index start (word w) = .ok r ↔ w.header.NameAllowed ∧
      ∃ placed, placeWord w (w.header.nameUnder path index) start = .ok placed ∧
        r = (word placed.1, placed.2) := by
  rw [place, nodeName_bind_eq_ok_iff]
  simp only [bind_eq_ok_iff, pure_eq_ok_iff]

theorem place_bitfield_eq_ok_iff {b : BitField} {r : Field × Number} :
    place path index start (bitfield b) = .ok r ↔ b.header.NameAllowed ∧
      ∃ placed, placeBitField b (b.header.nameUnder path index) (b.header.pathUnder path index)
          start = .ok placed ∧ r = (bitfield placed.1, placed.2) := by
  rw [place, nodeName_bind_eq_ok_iff]
  simp only [bind_eq_ok_iff, pure_eq_ok_iff]

theorem place_blob_eq_ok_iff {b : Blob} {r : Field × Number} :
    place path index start (blob b) = .ok r ↔ b.header.NameAllowed ∧
      ∃ placed, placeBlob b (b.header.nameUnder path index) start = .ok placed ∧
        r = (blob placed.1, placed.2) := by
  rw [place, nodeName_bind_eq_ok_iff]
  simp only [bind_eq_ok_iff, pure_eq_ok_iff]

theorem place_struct_eq_ok_iff {h : Header} {fields : List Field} {r : Field × Number} :
    place path index start (struct h fields) = .ok r ↔ h.NameAllowed ∧
      ∃ placed, placeFields (h.nameUnder path index) (h.pathUnder path index) 0 start fields
          = .ok placed ∧ (∃ size, sumSizes 0 placed.1 = .ok size) ∧
        r = (struct (h.placedAt (h.nameUnder path index) start) placed.1, placed.2) := by
  rw [place, nodeName_bind_eq_ok_iff]
  simp only [bind_eq_ok_iff, pure_eq_ok_iff, exists_and_right]

theorem place_union_eq_ok_iff {h : Header} {members : List Field} {r : Field × Number} :
    place path index start (union h members) = .ok r ↔ h.NameAllowed ∧ h.IsNamed ∧
      members ≠ [] ∧ ∃ placed, placeMembers (h.nameUnder path index) (h.pathUnder path index) 0
          start start members = .ok placed ∧
        r = (union (h.placedAt (h.nameUnder path index) start) placed.1, placed.2) := by
  have hnamed : ¬h.givenName?.isNone = true ↔ h.IsNamed := by
    simp [Header.IsNamed, Option.isSome_iff_ne_none]
  rw [place, nodeName_bind_eq_ok_iff]
  simp only [refuse_eq_ok_iff, hnamed, List.isEmpty_iff, bind_eq_ok_iff, pure_eq_ok_iff]

theorem place_stray_ne_ok {i : Item} {r : Field × Number} :
    place path index start (stray i) ≠ .ok r := by
  rw [place, ne_eq, nodeName_bind_eq_ok_iff]
  exact fun h => throw_ne_ok h.2

/-- Placing fills in the position of a node and leaves the rest of its header. -/
theorem place_header {f : Field} {r : Field × Number} (h : place path index start f = .ok r) :
    f.header.NameAllowed ∧
      r.1.header = f.header.placedAt (f.header.nameUnder path index) start := by
  cases f with
  | word w =>
    obtain ⟨hname, placed, hplaced, rfl⟩ := place_word_eq_ok_iff.1 h
    exact ⟨hname, congrArg Word.header (placeWord_eq_ok hplaced).2⟩
  | bitfield b =>
    obtain ⟨hname, placed, hplaced, rfl⟩ := place_bitfield_eq_ok_iff.1 h
    exact ⟨hname, (placedUnder_of_placeBitField hplaced).1⟩
  | blob b =>
    obtain ⟨hname, placed, hplaced, rfl⟩ := place_blob_eq_ok_iff.1 h
    exact ⟨hname, congrArg Blob.header (placeBlob_eq_ok hplaced).2⟩
  | struct header fields =>
    obtain ⟨hname, placed, -, -, rfl⟩ := place_struct_eq_ok_iff.1 h
    exact ⟨hname, rfl⟩
  | union header members =>
    obtain ⟨hname, -, -, placed, -, rfl⟩ := place_union_eq_ok_iff.1 h
    exact ⟨hname, rfl⟩
  | stray i => exact absurd h place_stray_ne_ok

theorem namedUnder_of_place {f : Field} {r : Field × Number}
    (h : place path index start f = .ok r) : r.1.header.NamedUnder path index := by
  obtain ⟨hname, hheader⟩ := place_header h
  exact hheader ▸ hname.namedUnder path index start

/-- A placed field of a struct was placed from one that the struct admits there. -/
theorem placeFields_eq_ok {parent : Text} {fields : List Field} {r : List Field × Number}
    (h : placeFields parent path index start fields = .ok r) {k : Nat} {c : Field}
    (hk : r.1[k]? = some c) :
    ∃ f ∈ fields, ∃ start stop, fieldFault? (index + k) start f = none ∧
      place path (index + k) start f = .ok (c, stop) := by
  induction fields generalizing index start r k with
  | nil =>
    rw [placeFields, Except.ok.injEq] at h
    subst h
    simp at hk
  | cons f fs ih =>
    obtain ⟨hfault, first, hfirst, rest, hrest, rfl⟩ := placeFields_cons_eq_ok_iff.1 h
    cases k with
    | zero =>
      rw [List.getElem?_cons_zero, Option.some.injEq] at hk
      subst hk
      exact ⟨f, List.mem_cons_self, start, first.2, hfault, hfirst⟩
    | succ k =>
      rw [List.getElem?_cons_succ] at hk
      obtain ⟨g, hg, start', stop, hplaced⟩ := ih hrest hk
      refine ⟨g, List.mem_cons_of_mem _ hg, start', stop, ?_⟩
      rwa [Nat.add_assoc, Nat.add_comm 1] at hplaced

/-- A placed member of a union was placed from one that the union admits. -/
theorem placeMembers_eq_ok {parent : Text} {longest : Number} {members : List Field}
    {r : List Field × Number} (h : placeMembers parent path index start longest members = .ok r)
    {k : Nat} {c : Field} (hk : r.1[k]? = some c) :
    ∃ f ∈ members, memberFault? parent f = none ∧
      ∃ stop, place path (index + k) start f = .ok (c, stop) := by
  induction members generalizing index longest r k with
  | nil =>
    rw [placeMembers, Except.ok.injEq] at h
    subst h
    simp at hk
  | cons f fs ih =>
    obtain ⟨hfault, first, hfirst, rest, hrest, rfl⟩ := placeMembers_cons_eq_ok_iff.1 h
    cases k with
    | zero =>
      rw [List.getElem?_cons_zero, Option.some.injEq] at hk
      subst hk
      exact ⟨f, List.mem_cons_self, hfault, first.2, hfirst⟩
    | succ k =>
      rw [List.getElem?_cons_succ] at hk
      obtain ⟨g, hg, hfault', stop, hplaced⟩ := ih hrest hk
      refine ⟨g, List.mem_cons_of_mem _ hg, hfault', stop, ?_⟩
      rwa [Nat.add_assoc, Nat.add_comm 1] at hplaced

/-- The members of a placed union have names, all but blobs. -/
theorem isNamed_of_memberFault? {parent : Text} {f : Field} {r : Field × Number}
    (hfault : memberFault? parent f = none) (h : place path index start f = .ok r) :
    (∃ b, r.1 = blob b) ∨ r.1.header.IsNamed := by
  have hadmits : Surrounding.union.Admits 0 f := memberFault?_eq_none_iff.1 hfault
  obtain ⟨-, hkind⟩ := hadmits
  cases f with
  | blob b =>
    obtain ⟨-, placed, -, rfl⟩ := place_blob_eq_ok_iff.1 h
    exact .inl ⟨_, rfl⟩
  | _ =>
    right
    rw [(place_header h).2]
    exact hkind

end

/-- **Every node of a placed tree carries the name of its place.** -/
theorem place_placedUnder {f : Field} {path : Path} {index : Nat} {start : Number}
    {r : Field × Number} (h : place path index start f = .ok r) : r.1.PlacedUnder path index := by
  induction f using inductionOn generalizing path index start r with
  | word w =>
    have hown := namedUnder_of_place h
    obtain ⟨-, placed, -, rfl⟩ := place_word_eq_ok_iff.1 h
    exact .of_leaf hown rfl (by simp) (by simp)
  | blob b =>
    have hown := namedUnder_of_place h
    obtain ⟨-, placed, -, rfl⟩ := place_blob_eq_ok_iff.1 h
    exact .of_leaf hown rfl (by simp) (by simp)
  | bitfield b =>
    have hown := namedUnder_of_place h
    obtain ⟨-, placed, hplaced, rfl⟩ := place_bitfield_eq_ok_iff.1 h
    obtain ⟨hheader, hitems⟩ := placedUnder_of_placeBitField hplaced
    refine .of_leaf hown rfl (by simp) ?_
    intro b' hb'
    obtain rfl := bitfield.inj hb'
    rw [header, hheader]
    exact hitems
  | struct header fields ih =>
    have hown := namedUnder_of_place h
    obtain ⟨-, placed, hplaced, -, rfl⟩ := place_struct_eq_ok_iff.1 h
    refine .node hown (by simp) (by simp) ?_
    intro k c hk
    obtain ⟨g, hg, start', stop, -, hc⟩ := placeFields_eq_ok hplaced hk
    rw [Nat.zero_add] at hc
    exact ih g hg hc
  | union header members ih =>
    have hown := namedUnder_of_place h
    obtain ⟨-, hnamed, -, placed, hplaced, rfl⟩ := place_union_eq_ok_iff.1 h
    refine .node hown (by simp) ?_ ?_
    · intro h' members' hunion
      obtain ⟨rfl, rfl⟩ := union.inj hunion
      refine ⟨hnamed, fun c hc => ?_⟩
      obtain ⟨k, hk⟩ := List.mem_iff_getElem?.1 hc
      obtain ⟨g, -, hfault, stop, hg⟩ := placeMembers_eq_ok hplaced hk
      exact isNamed_of_memberFault? hfault hg
    · intro k c hk
      obtain ⟨g, hg, -, stop, hc⟩ := placeMembers_eq_ok hplaced hk
      rw [Nat.zero_add] at hc
      exact ih g hg hc
  | stray i => exact absurd h place_stray_ne_ok

theorem resolve_eq_ok {raw root : Field} (h : raw.resolve = .ok root) :
    root.PlacedUnder [] 0 ∧ checkUniqueNames root = .ok () := by
  simp only [resolve, check_bind_eq_ok_iff, @bind_eq_ok_iff (Field × Number), pure_eq_ok_iff] at h
  obtain ⟨-, placed, hplaced, hnames, rfl⟩ := h
  exact ⟨place_placedUnder hplaced, hnames⟩

end Field

end RegisterLayout
