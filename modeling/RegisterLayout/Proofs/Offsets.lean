import RegisterLayout.Proofs.Location

/-!
# Offsets and sizes

Placing counts offsets as it goes, and the size of a node is computed from its tree alone; the two
agree.  In a tree that was accepted, every field of a struct stands behind the sizes of the fields
before it, every member of a union and every item of a bit field where the union or the bit field
itself stands, and placing a node ends one size behind its offset.

Principal definition: `Field.LaidOut`, what the offsets and sizes at one node have to be.
Principal results: `Field.laidOut_located`, `Field.resolve_laidOut`.
-/

namespace RegisterLayout

/-- A node that was placed at a byte offset. -/
def Header.StandsAt (h : Header) (start : Int) : Prop := h.position.byteOffset = some (.int start)

namespace Field

/-- A node at a byte offset whose size is a number of bytes, and whose children and items stand
where they have to. -/
structure LaidOut (f : Field) (start : Int) : Prop where
  offset : f.header.StandsAt start
  size : f.sizeBits = .ok (.int f.bitCount)
  bytes : 8 ∣ f.bitCount
  fields : ∀ h fields, f = struct h fields → ∀ (k : Nat) (c : Field), fields[k]? = some c →
    c.header.StandsAt (start + bytesBefore fields k)
  members : ∀ h members, f = union h members → ∀ c ∈ members, c.header.StandsAt start
  items : ∀ b, f = bitfield b → ∀ i ∈ b.items, i.header.StandsAt start
  aligned : ∀ w, f = word w → w.bits.whole / 8 ∣ start

end Field

theorem standsAt_locatedItems {path : Path} {index : Nat} {start endBit : Int} {items : List Item} :
    ∀ i ∈ locatedItems path (.int start) index endBit items, i.header.StandsAt start := by
  induction items generalizing index endBit with
  | nil => exact fun _ hi => nomatch hi
  | cons i rest ih =>
    rw [locatedItems, List.forall_mem_cons]
    exact ⟨rfl, ih⟩

namespace Field

section

variable {f : Field} {start : Int}

theorem standsAt_located (f : Field) (path : Path) (index : Nat) (start : Int) :
    (f.located path index start).header.StandsAt start := by
  rw [header_located]
  rfl

/-- The root of a located tree. -/
theorem Placeable.laidOut_root (h : f.Placeable start) (hf : f.SizesWhole) (path : Path)
    (index : Nat) : (f.located path index start).LaidOut start := by
  constructor
  case offset => exact standsAt_located f path index start
  case size => rw [sizeBits_located, sizeBits_eq hf, bitCount_located]
  case bytes => exact bitCount_located f path index start ▸ (h.wholeBytes hf).dvd
  case fields =>
    intro header fields heq k c hk
    cases f with
    | struct h' fs =>
      obtain ⟨-, rfl⟩ := struct.inj heq
      rw [getElem?_locatedFields] at hk
      obtain ⟨g, hg, rfl⟩ := Option.map_eq_some_iff.1 hk
      rw [bytesBefore_locatedFields]
      exact standsAt_located g _ _ _
    | _ => cases heq
  case members =>
    intro header members heq c hc
    cases f with
    | union h' ms =>
      obtain ⟨-, rfl⟩ := union.inj heq
      obtain ⟨k, hk⟩ := List.mem_iff_getElem?.1 hc
      rw [getElem?_locatedMembers] at hk
      obtain ⟨g, hg, rfl⟩ := Option.map_eq_some_iff.1 hk
      exact standsAt_located g _ _ _
    | _ => cases heq
  case items =>
    intro b heq
    cases f with
    | bitfield b' =>
      obtain rfl := bitfield.inj heq
      exact standsAt_locatedItems
    | _ => cases heq
  case aligned =>
    intro w heq
    cases f with
    | word w' =>
      obtain rfl := word.inj heq
      have hword : w'.Admissible start := h.kind
      exact hword.aligned
    | _ => cases heq

end

/-- **Every node of a located tree stands where the sizes say.** -/
theorem laidOut_located {f : Field} {start : Int} (h : f.Placeable start) (hf : f.SizesWhole)
    (path : Path) (index : Nat) :
    ∀ g ∈ (f.located path index start).nodes, ∃ there, g.LaidOut there :=
  forall_mem_nodes_of_placeable
    (fun _ path index start h hf => ⟨start, h.laidOut_root hf path index⟩) h hf path index

theorem laidOut_of_resolve {raw root : Field} (hraw : raw.SizesWhole)
    (h : raw.resolve = .ok root) : ∀ g ∈ root.nodes, ∃ start, g.LaidOut start := by
  obtain ⟨hroot, rfl⟩ := located_of_resolve hraw h
  exact laidOut_located hroot hraw [] 0

/-- **The offsets of an accepted tree agree with its sizes at every node.**  The root stands at
zero, and whatever tree of whole sizes is placed from an offset stands there and ends one size
behind it. -/
theorem resolve_laidOut {raw root : Field} (hraw : raw.SizesWhole) (h : raw.resolve = .ok root) :
    root.LaidOut 0 ∧ (∀ g ∈ root.nodes, ∃ start, g.LaidOut start) ∧
      ∀ (f : Field) (path : Path) (index : Nat) (start : Int) (placed : Field) (stop : Number),
        f.SizesWhole → place path index (.int start) f = .ok (placed, stop) →
          placed.LaidOut start ∧ (∀ g ∈ placed.nodes, ∃ there, g.LaidOut there) ∧
            stop = .int (start + placed.byteCount) := by
  obtain ⟨hspots, -, rfl⟩ := (resolve_eq_ok_iff hraw).1 h
  have hroot : raw.Placeable 0 :=
    (Spot.allowed_and_below_iff.1 (List.forall_mem_cons.1 hspots)).2
  refine ⟨hroot.laidOut_root hraw [] 0, laidOut_located hroot hraw [] 0, ?_⟩
  intro f path index start placed stop hf hplaced
  obtain ⟨hplaceable, hr⟩ := (place_eq_ok_iff hf path index start _).1 hplaced
  obtain ⟨rfl, rfl⟩ := Prod.mk.inj hr
  exact ⟨hplaceable.laidOut_root hf path index, laidOut_located hplaceable hf path index,
    by rw [byteCount_located]⟩

/-- A word, a union of a struct and bytes, and a bit field. -/
def mixedRoot : Field :=
  struct { name := some (.str "r") }
    [word { header := { name := some (.str "a") }, bits := 16 },
      union { name := some (.str "u") }
        [struct { name := some (.str "p") } [word { bits := 8 }, word { bits := 8 }],
          blob { bytes := 3, decl := some (.str "T t") }],
      bitfield { bits := 8, items := [{ header := { name := some (.str "x") }, bits := 3 },
        { bits := 5 }] }]

theorem resolve_laidOut_mixedRoot :
    mixedRoot.SizesWhole ∧ mixedRoot.resolve = .ok (mixedRoot.located [] 0 0) ∧
      (mixedRoot.located [] 0 0).LaidOut 0 :=
  ⟨by decide, rfl, (@resolve_laidOut mixedRoot _ (by decide) rfl).1⟩

end Field

end RegisterLayout
