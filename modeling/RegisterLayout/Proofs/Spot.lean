import Mathlib.Algebra.BigOperators.Ring.List
import Mathlib.Algebra.Ring.Int.Defs
import RegisterLayout.Proofs.BitField
import RegisterLayout.Proofs.Size

/-!
# Where the nodes of a tree stand, and what may stand there

The offset of every node follows from the sizes of the fields before it: the fields of a struct
stand one behind the other, the members of a union all at one place.  What a node may be depends
on its own attributes, on its offset, and on what it is a child of.

Principal definitions: `Spot`, `Field.spots` — the nodes of a tree, each with its offset and what
surrounds it; `Spot.Allowed` — the rules that a node has to keep there; `Field.Placeable`.
Principal results: `Field.placeFields_cons_eq_ok_iff`, `Field.placeMembers_cons_eq_ok_iff`, the
steps of the placing; `Field.Placeable.wholeBytes`, a tree that keeps the rules is made of bytes.
-/

namespace RegisterLayout

/-- What a node is a child of. -/
inductive Surrounding where
  | root
  | struct
  | union
  deriving DecidableEq

/-- A node at a byte offset. -/
structure Spot where
  surrounding : Surrounding
  byteOffset : Int
  node : Field

namespace Field

mutual

/-- The nodes below one that stands at an offset, each before those below it. -/
def spotsBelow (start : Int) : Field → List Spot
  | struct _ fields => fieldSpots start fields
  | union _ members => memberSpots start members
  | _ => []
termination_by structural f => f

/-- The fields of a struct, the first at an offset and every other behind the one before it. -/
def fieldSpots (start : Int) : List Field → List Spot
  | [] => []
  | f :: fs => ⟨.struct, start, f⟩ :: (spotsBelow start f ++ fieldSpots (start + f.byteCount) fs)
termination_by structural fs => fs

/-- The members of a union, all at one offset. -/
def memberSpots (start : Int) : List Field → List Spot
  | [] => []
  | f :: fs => ⟨.union, start, f⟩ :: (spotsBelow start f ++ memberSpots start fs)
termination_by structural fs => fs

end

/-- The nodes of a whole tree. -/
def spots (root : Field) : List Spot := ⟨.root, 0, root⟩ :: root.spotsBelow 0

end Field

/-! ## Rules -/

/-- A value that is equal to a whole number. -/
def Value.Counts (v : Value) (n : Int) : Prop := (v.number?.map (Number.int n).same).getD false

instance (v : Value) (n : Int) : Decidable (v.Counts n) := inferInstanceAs (Decidable (_ = true))

@[simp] theorem Value.counts_int {m n : Int} : (Value.int m).Counts n ↔ m = n := by
  show (n == m) = true ↔ m = n
  rw [beq_iff_eq, eq_comm]

/-- What a node may be and where it may want to stand, as a child. -/
def Surrounding.Admits (s : Surrounding) (start : Int) (f : Field) : Prop :=
  match s with
  | root => ∀ given, f.header.offset = some given → given.Counts 0
  | struct => (∀ h fields, f ≠ .struct h fields) ∧
    ∀ given, f.header.offset = some given → given.Counts start
  | union => f.header.offset = none ∧
    match f with
    | .blob b => b.decl ≠ none
    | f => f.header.IsNamed

instance (f : Field) : Decidable (∀ h fields, f ≠ .struct h fields) :=
  decidable_of_iff ((match f with | .struct _ _ => false | _ => true) = true) (by
    cases f <;> simp)

instance (s : Surrounding) (start : Int) (f : Field) : Decidable (s.Admits start f) :=
  match s with
  | .root => inferInstanceAs (Decidable (∀ given ∈ f.header.offset, given.Counts 0))
  | .struct => inferInstanceAs (Decidable (_ ∧ ∀ given ∈ f.header.offset, given.Counts start))
  | .union =>
    decidable_of_iff (f.header.offset.isNone ∧
        (match f with | .blob b => b.decl.isSome | f => decide f.header.IsNamed) = true) (by
      cases f <;> simp [Surrounding.Admits, Option.isSome_iff_ne_none])

/-- What a node of its kind has to keep at an offset. -/
def Field.KindAdmissible (start : Int) : Field → Prop
  | word w => w.Admissible start
  | bitfield b => b.Admissible
  | blob b => 1 ≤ b.bytes.whole
  | struct _ _ => True
  | union h members => h.IsNamed ∧ members ≠ []
  | stray _ => False

instance (start : Int) (f : Field) : Decidable (f.KindAdmissible start) :=
  match f with
  | .word w => inferInstanceAs (Decidable (w.Admissible start))
  | .bitfield b => inferInstanceAs (Decidable b.Admissible)
  | .blob b => inferInstanceAs (Decidable (1 ≤ b.bytes.whole))
  | .struct _ _ => isTrue trivial
  | .union h members =>
    decidable_of_iff (h.IsNamed ∧ ¬members.isEmpty = true) (by
      simp [Field.KindAdmissible, List.isEmpty_iff])
  | .stray _ => isFalse id

/-- The rules for a node where it stands. -/
structure Spot.Allowed (s : Spot) : Prop where
  surrounding : s.surrounding.Admits s.byteOffset s.node
  name : s.node.header.NameAllowed
  kind : s.node.KindAdmissible s.byteOffset

instance (s : Spot) : Decidable s.Allowed :=
  decidable_of_iff (s.surrounding.Admits s.byteOffset s.node ∧ s.node.header.NameAllowed ∧
      s.node.KindAdmissible s.byteOffset)
    ⟨fun ⟨hsurrounding, hname, hkind⟩ => ⟨hsurrounding, hname, hkind⟩,
      fun h => ⟨h.surrounding, h.name, h.kind⟩⟩

/-- A tree that keeps the rules from an offset on, whatever surrounds it. -/
structure Field.Placeable (start : Int) (f : Field) : Prop where
  name : f.header.NameAllowed
  kind : f.KindAdmissible start
  below : ∀ s ∈ f.spotsBelow start, s.Allowed

theorem Spot.allowed_and_below_iff {surrounding : Surrounding} {start : Int} {f : Field} :
    (Spot.mk surrounding start f).Allowed ∧ (∀ s ∈ f.spotsBelow start, s.Allowed) ↔
      surrounding.Admits start f ∧ f.Placeable start := by
  constructor
  · rintro ⟨h, hbelow⟩
    exact ⟨h.surrounding, h.name, h.kind, hbelow⟩
  · rintro ⟨hadmits, h⟩
    exact ⟨⟨hadmits, h.name, h.kind⟩, h.below⟩

/-! ## What the steps of the placing refuse -/

namespace Field

theorem fieldFault?_eq_none_iff {index : Nat} {start : Int} {f : Field} :
    fieldFault? index (.int start) f = none ↔ Surrounding.struct.Admits start f := by
  by_cases hstruct : ∃ h fields, f = struct h fields
  · obtain ⟨h, fields, rfl⟩ := hstruct
    simp [fieldFault?, Surrounding.Admits]
  · have hne : ∀ h fields, f ≠ struct h fields := fun h fields heq => hstruct ⟨h, fields, heq⟩
    cases hoffset : f.header.offset with
    | none => simp [fieldFault?, Surrounding.Admits, hoffset, hne]
    | some given => simp [fieldFault?, Surrounding.Admits, hoffset, hne, Value.Counts]

theorem memberFault?_eq_none_iff {union : Text} {start : Int} {f : Field} :
    memberFault? union f = none ↔ Surrounding.union.Admits start f := by
  unfold memberFault? Surrounding.Admits
  cases f.header.offset with
  | some given => simp
  | none =>
    cases f with
    | blob b => cases hd : b.decl <;> simp [hd]
    | _ => simp [Header.IsNamed, Option.isSome_iff_ne_none]

theorem checkRootOffset_eq_ok_iff {root : Field} :
    checkRootOffset root = .ok () ↔ Surrounding.root.Admits 0 root := by
  unfold checkRootOffset Surrounding.Admits
  cases root.header.offset with
  | none => simp
  | some given =>
    by_cases hg : given.Counts 0
    · have hsame : (given.number?.map (Number.same 0)).getD false = true := hg
      simp [hsame, hg]
    · have hsame : ¬(given.number?.map (Number.same 0)).getD false = true := hg
      simp [hsame, hg]

/-! ## One child after the other -/

section

variable {parent : Text} {path : Path} {index : Nat} {start : Number} {f : Field}
  {fs : List Field} {r : List Field × Number}

/-- Fields are placed if the first is admitted and placed, and the others behind it. -/
theorem placeFields_cons_eq_ok_iff :
    placeFields parent path index start (f :: fs) = .ok r ↔
      fieldFault? index start f = none ∧ ∃ first, place path index start f = .ok first ∧
        ∃ rest, placeFields parent path (index + 1) first.2 fs = .ok rest ∧
          r = (first.1 :: rest.1, rest.2) := by
  rw [placeFields]
  cases fieldFault? index start f with
  | some cause => simp [throw_bind, throw_ne_ok]
  | none => simp only [bind_eq_ok_iff, pure_eq_ok_iff, true_and]

/-- Members are placed if the first is placed and admitted, and the others at the same offset. -/
theorem placeMembers_cons_eq_ok_iff {longest : Number} :
    placeMembers parent path index start longest (f :: fs) = .ok r ↔
      memberFault? parent f = none ∧ ∃ first, place path index start f = .ok first ∧
        ∃ rest, placeMembers parent path (index + 1) start (longest.max first.2) fs = .ok rest ∧
          r = (first.1 :: rest.1, rest.2) := by
  rw [placeMembers, bind_eq_ok_iff]
  -- Other than a field, a member is looked at only after it was placed.
  cases memberFault? parent f with
  | some cause => simp [throw_bind, throw_ne_ok]
  | none => simp only [bind_eq_ok_iff, pure_eq_ok_iff, true_and]

end

/-! ## Rules for all nodes below -/

section

variable {P : Spot → Prop} {start : Int}

theorem forall_mem_fieldSpots_cons {f : Field} {fs : List Field} :
    (∀ s ∈ fieldSpots start (f :: fs), P s) ↔
      P ⟨.struct, start, f⟩ ∧ (∀ s ∈ f.spotsBelow start, P s) ∧
        ∀ s ∈ fieldSpots (start + f.byteCount) fs, P s := by
  rw [fieldSpots, List.forall_mem_cons, List.forall_mem_append]

theorem forall_mem_memberSpots_cons {f : Field} {fs : List Field} :
    (∀ s ∈ memberSpots start (f :: fs), P s) ↔
      P ⟨.union, start, f⟩ ∧ (∀ s ∈ f.spotsBelow start, P s) ∧
        ∀ s ∈ memberSpots start fs, P s := by
  rw [memberSpots, List.forall_mem_cons, List.forall_mem_append]

/-- The bytes of the fields before one of them. -/
def bytesBefore (fields : List Field) (k : Nat) : Int := ((fields.take k).map byteCount).sum

theorem bytesBefore_cons_succ (f : Field) (fs : List Field) (k : Nat) :
    bytesBefore (f :: fs) (k + 1) = f.byteCount + bytesBefore fs k := by
  rw [bytesBefore, List.take_succ_cons, List.map_cons, List.sum_cons, bytesBefore]

/-- Every field of a struct stands behind the fields before it. -/
theorem of_mem_fieldSpots {fields : List Field} (h : ∀ s ∈ fieldSpots start fields, P s)
    {k : Nat} {f : Field} (hk : fields[k]? = some f) :
    P ⟨.struct, start + bytesBefore fields k, f⟩ ∧
      ∀ s ∈ f.spotsBelow (start + bytesBefore fields k), P s := by
  induction fields generalizing start k with
  | nil => simp at hk
  | cons g fs ih =>
    obtain ⟨hg, hbelow, hfs⟩ := forall_mem_fieldSpots_cons.1 h
    cases k with
    | zero =>
      rw [List.getElem?_cons_zero, Option.some.injEq] at hk
      subst hk
      have hstart : start + bytesBefore (g :: fs) 0 = start := Int.add_zero start
      rw [hstart]
      exact ⟨hg, hbelow⟩
    | succ k =>
      rw [List.getElem?_cons_succ] at hk
      rw [bytesBefore_cons_succ, ← Int.add_assoc]
      exact ih hfs hk

theorem forall_mem_memberSpots {members : List Field} :
    (∀ s ∈ memberSpots start members, P s) ↔
      ∀ f ∈ members, P ⟨.union, start, f⟩ ∧ ∀ s ∈ f.spotsBelow start, P s := by
  induction members with
  | nil => simp [memberSpots]
  | cons f fs ih => rw [forall_mem_memberSpots_cons, List.forall_mem_cons, ih, and_assoc]

theorem Placeable.field {h : Header} {fields : List Field}
    (hp : (struct h fields).Placeable start) {k : Nat} {f : Field} (hk : fields[k]? = some f) :
    f.Placeable (start + bytesBefore fields k) := by
  obtain ⟨hallowed, hbelow⟩ := of_mem_fieldSpots hp.below hk
  exact ⟨hallowed.name, hallowed.kind, hbelow⟩

theorem Placeable.member {h : Header} {members : List Field}
    (hp : (union h members).Placeable start) {f : Field} (hf : f ∈ members) :
    f.Placeable start := by
  obtain ⟨hallowed, hbelow⟩ := forall_mem_memberSpots.1 hp.below f hf
  exact ⟨hallowed.name, hallowed.kind, hbelow⟩

end

/-! ## Whole bytes -/

/-- A tree whose size is a number of bytes. -/
structure WholeBytes (f : Field) : Prop where
  dvd : 8 ∣ f.bitCount
  nonneg : 0 ≤ f.bitCount

theorem WholeBytes.eq_byteCount {f : Field} (h : f.WholeBytes) : f.bitCount = f.byteCount * 8 :=
  (Int.ediv_mul_cancel h.dvd).symm

/-- The greatest size of the members, if none is negative, is at least nothing. -/
theorem bitCount_union_eq_foldl {h : Header} {members : List Field}
    (hwhole : ∀ f ∈ members, f.SizesWhole) (hbytes : ∀ f ∈ members, f.WholeBytes) :
    (union h members).bitCount = (members.map bitCount).foldl max 0 := by
  rw [bitCount_union hwhole]
  cases members with
  | nil => rfl
  | cons f fs =>
    have hf : max 0 f.bitCount = f.bitCount :=
      Int.max_eq_right (hbytes f List.mem_cons_self).nonneg
    rw [List.map_cons, List.max?_cons', List.foldl_cons, hf, Option.getD_some]

theorem wholeBytes_of_forall_struct {h : Header} {fields : List Field}
    (hwhole : ∀ f ∈ fields, f.SizesWhole) (hbytes : ∀ f ∈ fields, f.WholeBytes) :
    (struct h fields).WholeBytes := by
  constructor
  · rw [bitCount_struct hwhole]
    refine List.dvd_sum fun size hsize => ?_
    obtain ⟨f, hf, rfl⟩ := List.mem_map.1 hsize
    exact (hbytes f hf).dvd
  · rw [bitCount_struct hwhole]
    refine List.sum_nonneg fun size hsize => ?_
    obtain ⟨f, hf, rfl⟩ := List.mem_map.1 hsize
    exact (hbytes f hf).nonneg

theorem wholeBytes_of_forall_union {h : Header} {members : List Field}
    (hwhole : ∀ f ∈ members, f.SizesWhole) (hbytes : ∀ f ∈ members, f.WholeBytes) :
    (union h members).WholeBytes := by
  have hmax : ∀ (sizes : List Int) (largest : Int), 8 ∣ largest → 0 ≤ largest →
      (∀ n ∈ sizes, 8 ∣ n ∧ 0 ≤ n) → 8 ∣ sizes.foldl max largest ∧ 0 ≤ sizes.foldl max largest := by
    intro sizes
    induction sizes with
    | nil => exact fun _ hdvd hnonneg _ => ⟨hdvd, hnonneg⟩
    | cons n ns ih =>
      intro largest hdvd hnonneg h
      obtain ⟨hn, hns⟩ := List.forall_mem_cons.1 h
      exact ih _ (by omega) (by omega) hns
  have hsizes : ∀ n ∈ members.map bitCount, 8 ∣ n ∧ 0 ≤ n := by
    intro n hn
    obtain ⟨f, hf, rfl⟩ := List.mem_map.1 hn
    exact ⟨(hbytes f hf).dvd, (hbytes f hf).nonneg⟩
  have hboth := hmax _ 0 (Int.dvd_zero 8) (Int.le_refl 0) hsizes
  rw [← bitCount_union_eq_foldl hwhole hbytes] at hboth
  exact ⟨hboth.1, hboth.2⟩

/-- **A tree that keeps the rules is made of whole bytes.** -/
theorem Placeable.wholeBytes {f : Field} {start : Int} (h : f.Placeable start)
    (hf : f.SizesWhole) : f.WholeBytes := by
  induction f using inductionOn generalizing start with
  | word w =>
    obtain ⟨n, hn⟩ := hf.own
    have hword : w.Admissible start := h.kind
    have hwidth : n ∈ wordWidths := by simpa [hn] using hword.width
    obtain ⟨hpos, hdvd⟩ := wordWidths_pos hwidth
    exact ⟨bitCount_word hn ▸ hdvd, bitCount_word hn ▸ Int.le_of_lt hpos⟩
  | bitfield b =>
    obtain ⟨⟨n, hn⟩, -⟩ := hf.own
    have hfield : b.Admissible := h.kind
    have hwidth : n ∈ wordWidths := by simpa [hn] using hfield.width
    obtain ⟨hpos, hdvd⟩ := wordWidths_pos hwidth
    exact ⟨bitCount_bitfield hn ▸ hdvd, bitCount_bitfield hn ▸ Int.le_of_lt hpos⟩
  | blob b =>
    obtain ⟨n, hn⟩ := hf.own
    have hbytes : 1 ≤ b.bytes.whole := h.kind
    rw [hn, Value.whole_int] at hbytes
    exact ⟨bitCount_blob hn ▸ Int.dvd_mul_left n 8, by rw [bitCount_blob hn]; omega⟩
  | struct header fields ih =>
    refine wholeBytes_of_forall_struct (fun f hm => hf.child hm) fun f hm => ?_
    obtain ⟨k, hk⟩ := List.mem_iff_getElem?.1 hm
    exact ih f hm (h.field hk) (hf.child hm)
  | union header members ih =>
    refine wholeBytes_of_forall_union (fun f hm => hf.child hm) fun f hm => ?_
    exact ih f hm (h.member hm) (hf.child hm)
  | stray i => exact h.kind.elim

end Field

end RegisterLayout
