import RegisterLayout.Proofs.Spot

/-!
# Where placing puts a tree

The tree that placing gives is known without it: every node keeps what its author wrote and gets
the name and the offset that its place in the tree gives it.  Placing succeeds exactly if every
node keeps the rules where it stands.

Principal definition: `Field.located`.
Principal results: `Field.sizeBits_located`; `Field.place_eq_ok_iff` — when placing succeeds, and
with which tree and end; `Field.resolve_eq_ok_iff`; `Field.forall_mem_nodes_of_resolve` — what
holds of a node wherever it may stand holds of every node of a placed tree.
-/

namespace RegisterLayout

namespace Field

mutual

/-- A tree with its names and offsets, from a path and an offset on. -/
def located (path : Path) (index : Nat) (start : Int) : Field → Field
  | word w =>
    word { w with header := w.header.placedAt (w.header.nameUnder path index) (.int start) }
  | bitfield b =>
    bitfield (b.located (b.header.nameUnder path index) (b.header.pathUnder path index) start)
  | blob b =>
    blob { b with header := b.header.placedAt (b.header.nameUnder path index) (.int start) }
  | struct h fields =>
    struct (h.placedAt (h.nameUnder path index) (.int start))
      (locatedFields (h.pathUnder path index) 0 start fields)
  | union h members =>
    union (h.placedAt (h.nameUnder path index) (.int start))
      (locatedMembers (h.pathUnder path index) 0 start members)
  | stray i =>
    stray { i with header := i.header.placedAt (i.header.nameUnder path index) (.int start) }
termination_by structural f => f

def locatedFields (path : Path) (index : Nat) (start : Int) : List Field → List Field
  | [] => []
  | f :: fs =>
    located path index start f :: locatedFields path (index + 1) (start + f.byteCount) fs
termination_by structural fs => fs

def locatedMembers (path : Path) (index : Nat) (start : Int) : List Field → List Field
  | [] => []
  | f :: fs => located path index start f :: locatedMembers path (index + 1) start fs
termination_by structural fs => fs

end

/-! ## What placing leaves as it was -/

section

variable {path : Path} {index : Nat} {start : Int}

theorem forall₂_locatedFields {R : Field → Field → Prop} {fs : List Field}
    (h : ∀ f ∈ fs, ∀ index start, R (f.located path index start) f) :
    List.Forall₂ R (locatedFields path index start fs) fs := by
  induction fs generalizing index start with
  | nil => exact .nil
  | cons f fs ih =>
    obtain ⟨hf, hfs⟩ := List.forall_mem_cons.1 h
    exact .cons (hf index start) (ih hfs)

theorem forall₂_locatedMembers {R : Field → Field → Prop} {fs : List Field}
    (h : ∀ f ∈ fs, ∀ index, R (f.located path index start) f) :
    List.Forall₂ R (locatedMembers path index start fs) fs := by
  induction fs generalizing index with
  | nil => exact .nil
  | cons f fs ih =>
    obtain ⟨hf, hfs⟩ := List.forall_mem_cons.1 h
    exact .cons (hf index) (ih hfs)

theorem sumSizes_congr {fs gs : List Field}
    (h : List.Forall₂ (fun f g => f.sizeBits = g.sizeBits) fs gs) (total : Value) :
    sumSizes total fs = sumSizes total gs := by
  induction h generalizing total with
  | nil => rfl
  | cons hfg _ ih =>
    rw [sumSizes, sumSizes, hfg]
    exact bind_congr fun _ => bind_congr ih

theorem maxSizes_congr {fs gs : List Field}
    (h : List.Forall₂ (fun f g => f.sizeBits = g.sizeBits) fs gs) (largest : Value) :
    maxSizes largest fs = maxSizes largest gs := by
  induction h generalizing largest with
  | nil => rfl
  | cons hfg _ ih =>
    rw [maxSizes, maxSizes, hfg]
    exact bind_congr fun _ => bind_congr ih

theorem sizeBits_union_congr {h h' : Header} {fs gs : List Field}
    (hsizes : List.Forall₂ (fun f g => f.sizeBits = g.sizeBits) fs gs) :
    (union h fs).sizeBits = (union h' gs).sizeBits := by
  cases hsizes with
  | nil => rfl
  | cons hfg hrest =>
    rw [sizeBits, sizeBits, hfg]
    exact bind_congr fun _ => maxSizes_congr hrest _

/-- **Placing keeps the size of a tree.** -/
theorem sizeBits_located (f : Field) (path : Path) (index : Nat) (start : Int) :
    (f.located path index start).sizeBits = f.sizeBits := by
  induction f using inductionOn generalizing path index start with
  | word w => rfl
  | bitfield b => rfl
  | blob b => rfl
  | struct h fields ih =>
    rw [located, sizeBits, sizeBits]
    exact sumSizes_congr (forall₂_locatedFields fun f hf index start => ih f hf _ index start) 0
  | union h members ih =>
    rw [located]
    exact sizeBits_union_congr (forall₂_locatedMembers fun f hf index => ih f hf _ index start)
  | stray i => rfl

theorem bitCount_located (f : Field) (path : Path) (index : Nat) (start : Int) :
    (f.located path index start).bitCount = f.bitCount := by
  rw [bitCount, bitCount, sizeBits_located]

theorem byteCount_located (f : Field) (path : Path) (index : Nat) (start : Int) :
    (f.located path index start).byteCount = f.byteCount := by
  rw [byteCount, byteCount, bitCount_located]

end

/-! ## Where the nodes of a located tree stand -/

section

variable {path : Path} {index : Nat} {start : Int}

theorem header_located (f : Field) :
    (f.located path index start).header
      = f.header.placedAt (f.header.nameUnder path index) (.int start) := by
  cases f <;> rfl

theorem getElem?_locatedFields (fields : List Field) (k : Nat) :
    (locatedFields path index start fields)[k]? = fields[k]?.map fun f =>
      f.located path (index + k) (start + bytesBefore fields k) := by
  induction fields generalizing index start k with
  | nil => simp [locatedFields]
  | cons f fs ih =>
    cases k with
    | zero => simp [locatedFields, bytesBefore]
    | succ k =>
      rw [locatedFields, List.getElem?_cons_succ, List.getElem?_cons_succ, ih,
        bytesBefore_cons_succ, Int.add_assoc, Nat.add_assoc, Nat.add_comm 1]

theorem getElem?_locatedMembers (members : List Field) (k : Nat) :
    (locatedMembers path index start members)[k]? = members[k]?.map fun f =>
      f.located path (index + k) start := by
  induction members generalizing index k with
  | nil => simp [locatedMembers]
  | cons f fs ih =>
    cases k with
    | zero => simp [locatedMembers]
    | succ k =>
      rw [locatedMembers, List.getElem?_cons_succ, List.getElem?_cons_succ, ih, Nat.add_assoc,
        Nat.add_comm 1]

/-- What is below a located node is located itself, and may stand there if the node may. -/
theorem exists_of_mem_children_located {f c : Field}
    (hc : c ∈ (f.located path index start).children) :
    ∃ g ∈ f.children, ∃ index' start',
      c = g.located (f.header.pathUnder path index) index' start' ∧
        (f.Placeable start → g.Placeable start') := by
  obtain ⟨k, hk⟩ := List.mem_iff_getElem?.1 hc
  cases f with
  | struct h fields =>
    obtain ⟨g, hg, rfl⟩ := Option.map_eq_some_iff.1 (getElem?_locatedFields fields k ▸ hk)
    exact ⟨g, List.mem_of_getElem? hg, _, _, rfl, fun h => h.field hg⟩
  | union h members =>
    obtain ⟨g, hg, rfl⟩ := Option.map_eq_some_iff.1 (getElem?_locatedMembers members k ▸ hk)
    have hmem := List.mem_of_getElem? hg
    exact ⟨g, hmem, _, _, rfl, fun h => h.member hmem⟩
  | _ => cases hc

theorem bytesBefore_locatedFields (fields : List Field) (k : Nat) :
    bytesBefore (locatedFields path index start fields) k = bytesBefore fields k := by
  have hcounts : (locatedFields path index start fields).map byteCount = fields.map byteCount := by
    induction fields generalizing index start with
    | nil => rfl
    | cons f fs ih => rw [locatedFields, List.map_cons, List.map_cons, byteCount_located, ih]
  rw [bytesBefore, bytesBefore, List.map_take, List.map_take, hcounts]

end

/-! ## Where a tree ends -/

theorem byteCount_struct {h : Header} {fields : List Field}
    (hwhole : ∀ f ∈ fields, f.SizesWhole) (hbytes : ∀ f ∈ fields, f.WholeBytes) :
    (struct h fields).byteCount = (fields.map byteCount).sum := by
  have hsum : (fields.map bitCount).sum = (fields.map byteCount).sum * 8 := by
    clear hwhole
    induction fields with
    | nil => rfl
    | cons f fs ih =>
      obtain ⟨hf, hfs⟩ := List.forall_mem_cons.1 hbytes
      rw [List.map_cons, List.sum_cons, List.map_cons, List.sum_cons, ih hfs, hf.eq_byteCount,
        Int.add_mul]
  rw [byteCount, bitCount_struct hwhole, hsum, Int.mul_ediv_cancel _ (by decide)]

/-- The end of the longest of the members that start together. -/
theorem foldl_longest (start largest : Int) (members : List Field) :
    members.foldl (fun longest f => max longest (start + f.byteCount)) (start + largest / 8)
      = start + (members.map bitCount).foldl max largest / 8 := by
  induction members generalizing largest with
  | nil => rfl
  | cons f fs ih =>
    have hmax : max (start + largest / 8) (start + f.byteCount)
        = start + max largest f.bitCount / 8 := by
      unfold byteCount
      omega
    rw [List.foldl_cons, hmax, ih, List.map_cons, List.foldl_cons]

/-! ## When placing succeeds -/

/-- Placing a tree is putting it where it is located, if it keeps the rules. -/
def PlacedAsLocated (f : Field) : Prop :=
  ∀ (path : Path) (index : Nat) (start : Int) (r : Field × Number),
    place path index (.int start) f = .ok r ↔
      f.Placeable start ∧ r = (f.located path index start, .int (start + f.byteCount))

section

variable {path : Path} {start : Int} {parent : Text}

theorem placeFields_eq_ok_iff {index : Nat} {fields : List Field}
    (hfields : ∀ f ∈ fields, f.PlacedAsLocated) {r : List Field × Number} :
    placeFields parent path index (.int start) fields = .ok r ↔
      (∀ s ∈ fieldSpots start fields, s.Allowed) ∧
        r = (locatedFields path index start fields,
          .int (start + (fields.map byteCount).sum)) := by
  induction fields generalizing index start r with
  | nil => simp [placeFields, fieldSpots, locatedFields, eq_comm]
  | cons f fs ih =>
    obtain ⟨hf, hfs⟩ := List.forall_mem_cons.1 hfields
    rw [forall_mem_fieldSpots_cons, ← and_assoc, Spot.allowed_and_below_iff,
      ← @fieldFault?_eq_none_iff index, placeFields_cons_eq_ok_iff, locatedFields, List.map_cons,
      List.sum_cons, ← Int.add_assoc]
    constructor
    · rintro ⟨hfault, first, hfirst, rest, hrest, rfl⟩
      obtain ⟨hplaceable, rfl⟩ := (hf path index start _).1 hfirst
      obtain ⟨hspots, rfl⟩ := (ih hfs).1 hrest
      exact ⟨⟨⟨hfault, hplaceable⟩, hspots⟩, rfl⟩
    · rintro ⟨⟨⟨hfault, hplaceable⟩, hspots⟩, rfl⟩
      exact ⟨hfault, _, (hf path index start _).2 ⟨hplaceable, rfl⟩, _,
        (ih hfs).2 ⟨hspots, rfl⟩, rfl⟩

theorem placeMembers_eq_ok_iff {index : Nat} {members : List Field}
    (hmembers : ∀ f ∈ members, f.PlacedAsLocated) {longest : Int} {r : List Field × Number} :
    placeMembers parent path index (.int start) (.int longest) members = .ok r ↔
      (∀ s ∈ memberSpots start members, s.Allowed) ∧
        r = (locatedMembers path index start members,
          .int (members.foldl (fun longest f => max longest (start + f.byteCount)) longest)) := by
  induction members generalizing index longest r with
  | nil => simp [placeMembers, memberSpots, locatedMembers, eq_comm]
  | cons f fs ih =>
    obtain ⟨hf, hfs⟩ := List.forall_mem_cons.1 hmembers
    rw [forall_mem_memberSpots_cons, ← and_assoc, Spot.allowed_and_below_iff,
      ← @memberFault?_eq_none_iff parent, placeMembers_cons_eq_ok_iff, locatedMembers,
      List.foldl_cons]
    constructor
    · rintro ⟨hfault, first, hfirst, rest, hrest, rfl⟩
      obtain ⟨hplaceable, rfl⟩ := (hf path index start _).1 hfirst
      rw [Number.max_int] at hrest
      obtain ⟨hspots, rfl⟩ := (ih hfs).1 hrest
      exact ⟨⟨⟨hfault, hplaceable⟩, hspots⟩, rfl⟩
    · rintro ⟨⟨⟨hfault, hplaceable⟩, hspots⟩, rfl⟩
      refine ⟨hfault, _, (hf path index start _).2 ⟨hplaceable, rfl⟩, (_, _), ?_, rfl⟩
      rw [Number.max_int]
      exact (ih hfs).2 ⟨hspots, rfl⟩

end

/-! ## Each kind of node -/

theorem placeable_iff {f : Field} {start : Int} :
    f.Placeable start ↔ f.header.NameAllowed ∧ f.KindAdmissible start ∧
      ∀ s ∈ f.spotsBelow start, s.Allowed :=
  ⟨fun h => ⟨h.name, h.kind, h.below⟩, fun ⟨hname, hkind, hbelow⟩ => ⟨hname, hkind, hbelow⟩⟩

/-- A leaf has nothing below it that could break a rule. -/
theorem placeable_leaf_iff {f : Field} {start : Int} (hleaf : f.spotsBelow start = []) :
    f.Placeable start ↔ f.header.NameAllowed ∧ f.KindAdmissible start := by
  rw [placeable_iff, hleaf]
  simp

theorem placedAsLocated_word {w : Word} {n : Int} (hn : w.bits = .int n) :
    (word w).PlacedAsLocated := by
  intro path index start r
  rw [place, nodeName_bind_eq_ok_iff, placeable_leaf_iff rfl, and_assoc, byteCount,
    bitCount_word hn]
  exact and_congr_right fun _ => wrapped_eq_ok_iff fun _ => placeWord_eq_ok_iff hn

theorem placedAsLocated_bitfield {b : BitField} {n : Int} (hn : b.bits = .int n) :
    (bitfield b).PlacedAsLocated := by
  intro path index start r
  rw [place, nodeName_bind_eq_ok_iff, placeable_leaf_iff rfl, and_assoc, byteCount,
    bitCount_bitfield hn]
  exact and_congr_right fun _ => wrapped_eq_ok_iff fun _ => placeBitField_eq_ok_iff hn

theorem placedAsLocated_blob {b : Blob} {n : Int} (hn : b.bytes = .int n) :
    (blob b).PlacedAsLocated := by
  intro path index start r
  have hcount : (blob b).byteCount = b.bytes.whole := by
    rw [byteCount, bitCount_blob hn, Int.mul_ediv_cancel _ (by decide), hn, Value.whole_int]
  rw [place, nodeName_bind_eq_ok_iff, placeable_leaf_iff rfl, and_assoc, hcount]
  exact and_congr_right fun _ => wrapped_eq_ok_iff fun _ => placeBlob_eq_ok_iff

theorem placedAsLocated_struct {h : Header} {fields : List Field}
    (hwhole : ∀ f ∈ fields, f.SizesWhole) (hfields : ∀ f ∈ fields, f.PlacedAsLocated) :
    (struct h fields).PlacedAsLocated := by
  intro path index start r
  have hsizes : ∀ index, sumSizes 0 (locatedFields (h.pathUnder path index) 0 start fields)
      = .ok (.int (0 + (fields.map bitCount).sum)) := by
    intro index
    rw [← sumSizes_eq fun f hf => sizeBits_eq (hwhole f hf)]
    exact sumSizes_congr (forall₂_locatedFields fun f _ _ _ => sizeBits_located f _ _ _) 0
  have hend : (∀ s ∈ fieldSpots start fields, s.Allowed) →
      (struct h fields).byteCount = (fields.map byteCount).sum := by
    intro hspots
    refine byteCount_struct hwhole fun f hf => ?_
    obtain ⟨k, hk⟩ := List.mem_iff_getElem?.1 hf
    obtain ⟨hallowed, hbelow⟩ := of_mem_fieldSpots hspots hk
    exact Placeable.wholeBytes ⟨hallowed.name, hallowed.kind, hbelow⟩ (hwhole f hf)
  rw [place, nodeName_bind_eq_ok_iff, placeable_iff, and_assoc]
  refine and_congr_right fun _ => ?_
  simp only [bind_eq_ok_iff, placeFields_eq_ok_iff hfields, Prod.exists, pure_eq_ok_iff,
    KindAdmissible, spotsBelow, true_and, located]
  constructor
  · rintro ⟨placed, stop, ⟨hspots, hr⟩, -, -, rfl⟩
    obtain ⟨rfl, rfl⟩ := Prod.mk.inj hr
    exact ⟨hspots, by rw [hend hspots]⟩
  · rintro ⟨hspots, rfl⟩
    exact ⟨_, _, ⟨hspots, rfl⟩, _, hsizes index, by rw [hend hspots]⟩

theorem placedAsLocated_union {h : Header} {members : List Field}
    (hwhole : ∀ f ∈ members, f.SizesWhole) (hmembers : ∀ f ∈ members, f.PlacedAsLocated) :
    (union h members).PlacedAsLocated := by
  intro path index start r
  have hend : (∀ s ∈ memberSpots start members, s.Allowed) →
      members.foldl (fun longest f => max longest (start + f.byteCount)) start
        = start + (union h members).byteCount := by
    intro hspots
    have hbytes : ∀ f ∈ members, f.WholeBytes := by
      intro f hf
      obtain ⟨hallowed, hbelow⟩ := forall_mem_memberSpots.1 hspots f hf
      exact Placeable.wholeBytes ⟨hallowed.name, hallowed.kind, hbelow⟩ (hwhole f hf)
    have hlongest := foldl_longest start 0 members
    rw [Int.zero_ediv, Int.add_zero] at hlongest
    rw [hlongest, byteCount, bitCount_union_eq_foldl hwhole hbytes]
  rw [place, nodeName_bind_eq_ok_iff, placeable_iff, and_assoc]
  refine and_congr_right fun _ => ?_
  have hnamed : ¬h.givenName?.isNone = true ↔ h.IsNamed := by
    simp [Header.IsNamed, Option.isSome_iff_ne_none]
  simp only [refuse_eq_ok_iff, hnamed, List.isEmpty_iff, bind_eq_ok_iff,
    placeMembers_eq_ok_iff hmembers, Prod.exists, pure_eq_ok_iff, KindAdmissible, spotsBelow,
    located, and_assoc]
  refine and_congr_right fun _ => and_congr_right fun _ => ?_
  constructor
  · rintro ⟨placed, stop, hspots, hr, rfl⟩
    obtain ⟨rfl, rfl⟩ := Prod.mk.inj hr
    exact ⟨hspots, by rw [hend hspots]⟩
  · rintro ⟨hspots, rfl⟩
    exact ⟨_, _, hspots, rfl, by rw [hend hspots]⟩

/-- **Placing a tree of whole sizes from an offset on succeeds exactly if every node keeps the
rules where it stands, and then gives the located tree and the offset behind it.** -/
theorem place_eq_ok_iff {f : Field} (hf : f.SizesWhole) : f.PlacedAsLocated := by
  induction f using inductionOn with
  | word w =>
    obtain ⟨n, hn⟩ := hf.own
    exact placedAsLocated_word hn
  | bitfield b =>
    obtain ⟨⟨n, hn⟩, -⟩ := hf.own
    exact placedAsLocated_bitfield hn
  | blob b =>
    obtain ⟨n, hn⟩ := hf.own
    exact placedAsLocated_blob hn
  | struct h fields ih =>
    exact placedAsLocated_struct (fun f hm => hf.child hm) fun f hm => ih f hm (hf.child hm)
  | union h members ih =>
    exact placedAsLocated_union (fun f hm => hf.child hm) fun f hm => ih f hm (hf.child hm)
  | stray i =>
    intro path index start r
    rw [place, nodeName_bind_eq_ok_iff]
    exact ⟨fun h => absurd h.2 throw_ne_ok, fun h => h.1.kind.elim⟩

/-! ## Whole trees -/

/-- **A tree is accepted exactly if all its nodes keep the rules and its names are unique.** -/
theorem resolve_eq_ok_iff {root r : Field} (hroot : root.SizesWhole) :
    root.resolve = .ok r ↔
      (∀ s ∈ root.spots, s.Allowed) ∧ checkUniqueNames (root.located [] 0 0) = .ok () ∧
        r = root.located [] 0 0 := by
  rw [spots, List.forall_mem_cons, Spot.allowed_and_below_iff, ← checkRootOffset_eq_ok_iff,
    resolve, check_bind_eq_ok_iff, and_assoc]
  refine and_congr_right fun _ => ?_
  simp only [bind_eq_ok_iff, Prod.exists]
  constructor
  · rintro ⟨placed, stop, hplaced, ⟨⟩, hnames, hr⟩
    obtain ⟨hplaceable, hplaced⟩ := (place_eq_ok_iff hroot [] 0 0 _).1 hplaced
    obtain ⟨rfl, rfl⟩ := Prod.mk.inj hplaced
    exact ⟨hplaceable, hnames, pure_eq_ok_iff.1 hr⟩
  · rintro ⟨hplaceable, hnames, rfl⟩
    exact ⟨_, _, (place_eq_ok_iff hroot [] 0 0 _).2 ⟨hplaceable, rfl⟩, (), hnames, rfl⟩

/-- An accepted tree is the one that placing puts there. -/
theorem located_of_resolve {raw root : Field} (hraw : raw.SizesWhole)
    (h : raw.resolve = .ok root) : raw.Placeable 0 ∧ root = raw.located [] 0 0 := by
  obtain ⟨hspots, -, hroot⟩ := (resolve_eq_ok_iff hraw).1 h
  exact ⟨(Spot.allowed_and_below_iff.1 (List.forall_mem_cons.1 hspots)).2, hroot⟩

section

variable {P : Field → Prop} (hP : ∀ (f : Field) (path : Path) (index : Nat) (start : Int),
  f.Placeable start → f.SizesWhole → P (f.located path index start))

include hP

/-- **What holds of a node wherever it may stand holds of every node of a located tree.** -/
theorem forall_mem_nodes_of_placeable {f : Field} {start : Int} (h : f.Placeable start)
    (hf : f.SizesWhole) (path : Path) (index : Nat) :
    ∀ g ∈ (f.located path index start).nodes, P g := by
  induction f using inductionOnChildren generalizing start path index with
  | node f ih =>
    refine forall_mem_nodes.2 ⟨hP f path index start h hf, fun c hc => ?_⟩
    obtain ⟨g, hg, index', start', rfl, hplaceable⟩ := exists_of_mem_children_located hc
    exact ih g hg (hplaceable h) (hf.child hg) _ index'

theorem forall_mem_nodes_of_resolve {raw root : Field} (hraw : raw.SizesWhole)
    (h : raw.resolve = .ok root) : ∀ g ∈ root.nodes, P g := by
  obtain ⟨hroot, rfl⟩ := located_of_resolve hraw h
  exact forall_mem_nodes_of_placeable hP hroot hraw [] 0

end

end Field

end RegisterLayout
