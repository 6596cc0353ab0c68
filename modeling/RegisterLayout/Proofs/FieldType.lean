import RegisterLayout.Proofs.Location
import RegisterLayout.Proofs.NaturalLayout

/-!
# Fields as members of a C struct

A word and a bit field are members of the size of their word, a blob is an array of bytes, and a
union a union of its members.  Natural alignment puts these where placing puts the fields, with
nothing left free in between, exactly if every bit field stands at a multiple of its size, as
every word does, and the size of every field but the last is a multiple of its alignment.  Only the
size of a union can fail to be one.

Principal definitions: `Field.cType`, `Field.Flat`, `Field.offsetsFrom`, `Spot.BitFieldAligned`.
Principal results: `Field.size_cType`, `Field.align_dvd_start_iff`,
`Field.laidOutNaturally_iff`.
-/

namespace RegisterLayout

namespace Field

mutual

/-- The type of the member that stands for a field.  A struct and a stray item never become
members. -/
def cType : Field → CType
  | word w => .word w.bits.whole
  | bitfield b => .word b.bits.whole
  | blob b => .bytes b.bytes.whole
  | union _ members => .union (cTypes members)
  | struct _ _ | stray _ => .bytes 0
termination_by structural f => f

def cTypes : List Field → List CType
  | [] => []
  | f :: fs => cType f :: cTypes fs
termination_by structural fs => fs

end

/-- A tree without structs. -/
def Flat (f : Field) : Prop := ∀ g ∈ f.nodes, ∀ h fields, g ≠ struct h fields

theorem Flat.child {f c : Field} (hf : f.Flat) (hc : c ∈ f.children) : c.Flat :=
  (forall_mem_nodes.1 hf).2 c hc

theorem mem_cTypes {t : CType} {fs : List Field} : t ∈ cTypes fs ↔ ∃ f ∈ fs, f.cType = t := by
  induction fs with
  | nil => simp [cTypes]
  | cons f fs ih => simp [cTypes, ih, eq_comm]

end Field

/-! ## Alignments -/

/-- The sizes of words in bytes, all of them powers of two. -/
def wordSizes : List Int := [1, 2, 4, 8]

theorem div_mem_wordSizes {n : Int} (hn : n ∈ wordWidths) : n / 8 ∈ wordSizes := by
  have hall : ∀ n ∈ wordWidths, n / 8 ∈ wordSizes := by decide
  exact hall n hn

theorem wordSizes_pos {a : Int} (ha : a ∈ wordSizes) : 0 < a := by
  have hall : ∀ a ∈ wordSizes, 0 < a := by decide
  exact hall a ha

theorem max_mem_wordSizes {a b : Int} (ha : a ∈ wordSizes) (hb : b ∈ wordSizes) :
    max a b ∈ wordSizes := by
  rcases Int.le_total a b with hab | hba
  · rwa [Int.max_eq_right hab]
  · rwa [Int.max_eq_left hba]

/-- The larger of two sizes of words is a multiple of the smaller. -/
theorem max_dvd_iff {a b x : Int} (ha : a ∈ wordSizes) (hb : b ∈ wordSizes) :
    max a b ∣ x ↔ a ∣ x ∧ b ∣ x := by
  have hdvd : ∀ a ∈ wordSizes, ∀ b ∈ wordSizes, a ≤ b → a ∣ b := by decide
  rcases Int.le_total a b with hab | hba
  · rw [Int.max_eq_right hab]
    exact ⟨fun h => ⟨Int.dvd_trans (hdvd a ha b hb hab) h, h⟩, And.right⟩
  · rw [Int.max_eq_left hba]
    exact ⟨fun h => ⟨h, Int.dvd_trans (hdvd b hb a ha hba) h⟩, And.left⟩

theorem alignAll_mem_wordSizes {ts : List CType} (h : ∀ t ∈ ts, t.align ∈ wordSizes) :
    CType.alignAll ts ∈ wordSizes := by
  induction ts with
  | nil => decide
  | cons t ts ih =>
    obtain ⟨ht, hts⟩ := List.forall_mem_cons.1 h
    exact max_mem_wordSizes ht (ih hts)

theorem alignAll_dvd_iff {ts : List CType} (h : ∀ t ∈ ts, t.align ∈ wordSizes) {x : Int} :
    CType.alignAll ts ∣ x ↔ ∀ t ∈ ts, t.align ∣ x := by
  induction ts with
  | nil => simp [CType.alignAll]
  | cons t ts ih =>
    obtain ⟨ht, hts⟩ := List.forall_mem_cons.1 h
    rw [CType.alignAll, max_dvd_iff ht (alignAll_mem_wordSizes hts), ih hts, List.forall_mem_cons]

namespace Field

section

variable {f : Field} {start : Int}

/-- A field that may stand somewhere has the alignment of one of the words, or of a byte. -/
theorem align_cType_mem (h : f.Placeable start) : f.cType.align ∈ wordSizes := by
  induction f using inductionOn generalizing start with
  | word w =>
    have hword : w.Admissible start := h.kind
    exact div_mem_wordSizes hword.width
  | bitfield b =>
    have hfield : b.Admissible := h.kind
    exact div_mem_wordSizes hfield.width
  | union header members ih =>
    refine alignAll_mem_wordSizes fun t ht => ?_
    obtain ⟨f, hf, rfl⟩ := mem_cTypes.1 ht
    exact ih f hf (h.member hf)
  | _ => exact List.mem_cons_self

theorem align_cTypes_mem {members : List Field} (h : ∀ f ∈ members, f.Placeable start) :
    ∀ t ∈ cTypes members, t.align ∈ wordSizes := by
  intro t ht
  obtain ⟨f, hf, rfl⟩ := mem_cTypes.1 ht
  exact align_cType_mem (h f hf)

end

/-! ## Sizes -/

theorem byteCount_union_le_iff {h : Header} {members : List Field}
    (hwhole : ∀ f ∈ members, f.SizesWhole) (hbytes : ∀ f ∈ members, f.WholeBytes) {y : Int} :
    (union h members).byteCount ≤ y ↔ 0 ≤ y ∧ ∀ f ∈ members, f.byteCount ≤ y := by
  have hmax : ∀ (sizes : List Int) (largest : Int),
      sizes.foldl max largest / 8 ≤ y ↔ largest / 8 ≤ y ∧ ∀ n ∈ sizes, n / 8 ≤ y := by
    intro sizes
    induction sizes with
    | nil => simp
    | cons n ns ih =>
      intro largest
      rw [List.foldl_cons, ih, List.forall_mem_cons, ← and_assoc]
      exact and_congr_left fun _ => by omega
  rw [byteCount, bitCount_union_eq_foldl hwhole hbytes, hmax, List.forall_mem_map]
  rfl

/-- **The member that stands for a field has the size of the field, rounded up to the alignment of
the member.** -/
theorem size_cType {f : Field} {start : Int} (h : f.Placeable start) (hf : f.SizesWhole)
    (hflat : f.Flat) : f.cType.size = alignUp f.byteCount f.cType.align := by
  induction f using inductionOn generalizing start with
  | word w =>
    obtain ⟨n, hn⟩ := hf.own
    rw [byteCount, bitCount_word hn, cType, hn]
    exact (alignUp_eq_self_iff.2 (Int.dvd_refl _)).symm
  | bitfield b =>
    obtain ⟨⟨n, hn⟩, -⟩ := hf.own
    rw [byteCount, bitCount_bitfield hn, cType, hn]
    exact (alignUp_eq_self_iff.2 (Int.dvd_refl _)).symm
  | blob b =>
    obtain ⟨n, hn⟩ := hf.own
    rw [byteCount, bitCount_blob hn, Int.mul_ediv_cancel _ (by decide), cType, hn]
    exact (alignUp_eq_self_iff.2 (Int.one_dvd _)).symm
  | struct header fields => exact absurd rfl (hflat _ (mem_nodes_self _) header fields)
  | union header members ih =>
    have hplaceable : ∀ f ∈ members, f.Placeable start := fun f hm => h.member hm
    have hwhole : ∀ f ∈ members, f.SizesWhole := fun f hm => hf.child hm
    have hbytes : ∀ f ∈ members, f.WholeBytes :=
      fun f hm => (hplaceable f hm).wholeBytes (hwhole f hm)
    have haligns := align_cTypes_mem hplaceable
    have halign : 0 < (union header members).cType.align := wordSizes_pos (align_cType_mem h)
    have hsizes : ∀ f ∈ members, f.cType.size = alignUp f.byteCount f.cType.align :=
      fun f hm => ih f hm (hplaceable f hm) (hwhole f hm) (hflat.child hm)
    have hpos : ∀ f ∈ members, 0 < f.cType.align :=
      fun f hm => wordSizes_pos (align_cType_mem (hplaceable f hm))
    -- Both sides are the least multiple of the alignment that no member exceeds.
    have hleast : ∀ y, (union header members).cType.align ∣ y →
        (CType.sizeAll (cTypes members) ≤ y ↔ (union header members).byteCount ≤ y) := by
      intro y hy
      have hdvd := (alignAll_dvd_iff haligns).1 hy
      rw [CType.sizeAll_le_iff, byteCount_union_le_iff hwhole hbytes]
      refine and_congr_right fun _ => ?_
      constructor
      · intro hall f hm
        have ht := mem_cTypes.2 ⟨f, hm, rfl⟩
        exact (alignUp_le_iff (hpos f hm) (hdvd _ ht)).1 (hsizes f hm ▸ hall _ ht)
      · intro hall t ht
        obtain ⟨f, hm, rfl⟩ := mem_cTypes.1 ht
        rw [hsizes f hm]
        exact (alignUp_le_iff (hpos f hm) (hdvd _ ht)).2 (hall f hm)
    refine Int.le_antisymm ?_ ?_
    · exact (alignUp_le_iff halign dvd_alignUp).2 ((hleast _ dvd_alignUp).2 (le_alignUp halign))
    · exact (alignUp_le_iff halign dvd_alignUp).2 ((hleast _ dvd_alignUp).1 (le_alignUp halign))
  | stray i => exact h.kind.elim

theorem align_dvd_byteCount_iff {f : Field} {start : Int} (h : f.Placeable start)
    (hf : f.SizesWhole) (hflat : f.Flat) :
    f.cType.align ∣ f.byteCount ↔ f.cType.size = f.byteCount := by
  rw [size_cType h hf hflat, alignUp_eq_self_iff]

/-- Only a union can have a size that is no multiple of its alignment. -/
theorem align_dvd_byteCount {f : Field} (hf : f.SizesWhole) (hunion : ∀ h ms, f ≠ union h ms) :
    f.cType.align ∣ f.byteCount := by
  cases f with
  | word w =>
    obtain ⟨n, hn⟩ := hf.own
    rw [byteCount, bitCount_word hn, cType, hn]
    exact Int.dvd_refl _
  | bitfield b =>
    obtain ⟨⟨n, hn⟩, -⟩ := hf.own
    rw [byteCount, bitCount_bitfield hn, cType, hn]
    exact Int.dvd_refl _
  | union h members => exact absurd rfl (hunion h members)
  | _ => exact Int.one_dvd _

end Field

/-! ## Offsets -/

/-- A bit field stands at a multiple of its size, as a word has to. -/
def Spot.BitFieldAligned (s : Spot) : Prop :=
  ∀ b, s.node = .bitfield b → b.bits.whole / 8 ∣ s.byteOffset

namespace Field

/-- The offsets of the fields of a struct. -/
def offsetsFrom (start : Int) : List Field → List Int
  | [] => []
  | f :: fs => start :: offsetsFrom (start + f.byteCount) fs

/-- **A field stands at a multiple of its alignment exactly if all bit fields in it stand at
multiples of their sizes.**  The words do anyway. -/
theorem align_dvd_start_iff {f : Field} {start : Int} (h : f.Placeable start)
    (hflat : f.Flat) (surrounding : Surrounding) :
    f.cType.align ∣ start ↔
      Spot.BitFieldAligned ⟨surrounding, start, f⟩ ∧
        ∀ s ∈ f.spotsBelow start, s.BitFieldAligned := by
  have hplain : (∀ b, f ≠ bitfield b) → Spot.BitFieldAligned ⟨surrounding, start, f⟩ :=
    fun hne b hb => absurd hb (hne b)
  induction f using inductionOn generalizing start surrounding with
  | word w =>
    have hword : w.Admissible start := h.kind
    simp [spotsBelow, hplain, hword.aligned, cType, CType.align]
  | bitfield b =>
    simp [spotsBelow, Spot.BitFieldAligned, cType, CType.align]
  | blob b =>
    simp [spotsBelow, hplain, cType, CType.align]
  | struct header fields => exact absurd rfl (hflat _ (mem_nodes_self _) header fields)
  | union header members ih =>
    have hmembers : ∀ f ∈ members, (f.cType.align ∣ start ↔
        Spot.BitFieldAligned ⟨.union, start, f⟩ ∧
          ∀ s ∈ f.spotsBelow start, s.BitFieldAligned) := by
      intro f hm
      refine ih f hm (h.member hm) (hflat.child hm) .union fun hne b hb => ?_
      exact absurd hb (hne b)
    rw [spotsBelow, forall_mem_memberSpots, cType, CType.align,
      alignAll_dvd_iff (align_cTypes_mem fun f hm => h.member hm)]
    constructor
    · intro hall
      refine ⟨hplain (by simp), fun f hm => ?_⟩
      exact (hmembers f hm).1 (hall _ (mem_cTypes.2 ⟨f, hm, rfl⟩))
    · rintro ⟨-, hall⟩ t ht
      obtain ⟨f, hm, rfl⟩ := mem_cTypes.1 ht
      exact (hmembers f hm).2 (hall f hm)
  | stray i => exact h.kind.elim

/-- Natural alignment puts the members for some fields where the fields are, leaving nothing
free in between. -/
def LaidOutNaturally (start : Int) (fields : List Field) : Prop :=
  (CType.spans start (cTypes fields)).map CType.Span.start = offsetsFrom start fields ∧
    CType.Gapless (CType.spans start (cTypes fields))

section

variable {f g : Field} {fs : List Field} {start : Int}

theorem laidOutNaturally_singleton :
    LaidOutNaturally start [f] ↔ f.cType.align ∣ start := by
  simp only [LaidOutNaturally, cTypes, CType.spans, offsetsFrom, CType.Gapless, List.map_cons,
    List.map_nil, List.cons.injEq, and_true, List.isChain_singleton]
  exact alignUp_eq_self_iff

/-- The first field has to stand at a multiple of its alignment and to end where its member
does. -/
theorem laidOutNaturally_cons_cons (hf : f.byteCount ≤ f.cType.size) (hg : 0 < g.cType.align) :
    LaidOutNaturally start (f :: g :: fs) ↔
      f.cType.align ∣ start ∧ f.cType.size = f.byteCount ∧
        LaidOutNaturally (start + f.byteCount) (g :: fs) := by
  simp only [LaidOutNaturally, cTypes, CType.spans, offsetsFrom, CType.Gapless, List.map_cons,
    List.cons.injEq, List.isChain_cons_cons]
  constructor
  · rintro ⟨⟨hstart, hnext, hrest⟩, -, hchain⟩
    -- The second member cannot start before the first one ends.
    have hle := @le_alignUp (start + f.cType.size) g.cType.align hg
    rw [hstart] at hnext hrest hchain
    have hsize : f.cType.size = f.byteCount := by omega
    rw [hsize] at hnext hrest hchain
    exact ⟨alignUp_eq_self_iff.1 hstart, hsize, ⟨hnext, hrest⟩, hchain⟩
  · rintro ⟨hdvd, hsize, ⟨hnext, hrest⟩, hchain⟩
    have hstart := alignUp_eq_self_iff.2 hdvd
    rw [hstart, hsize]
    exact ⟨⟨rfl, hnext, hrest⟩, hnext.symm, hchain⟩

end

/-- **Members stand where their fields do, with nothing free in between, exactly if all bit fields
stand at multiples of their sizes and every field but the last has a size that is a multiple of
its alignment.** -/
theorem laidOutNaturally_iff {fields : List Field} {start : Int}
    (hspots : ∀ s ∈ fieldSpots start fields, s.Allowed) (hwhole : ∀ f ∈ fields, f.SizesWhole)
    (hflat : ∀ f ∈ fields, f.Flat) :
    LaidOutNaturally start fields ↔
      (∀ s ∈ fieldSpots start fields, s.BitFieldAligned) ∧
        ∀ f ∈ fields.dropLast, f.cType.align ∣ f.byteCount := by
  induction fields generalizing start with
  | nil => simp [LaidOutNaturally, cTypes, CType.spans, offsetsFrom, CType.Gapless, fieldSpots]
  | cons f fs ih =>
    obtain ⟨hallowed, hbelow, hrest⟩ := forall_mem_fieldSpots_cons.1 hspots
    obtain ⟨hf, hfs⟩ := List.forall_mem_cons.1 hwhole
    obtain ⟨hfflat, hfsflat⟩ := List.forall_mem_cons.1 hflat
    have hplaceable : f.Placeable start := ⟨hallowed.name, hallowed.kind, hbelow⟩
    rw [forall_mem_fieldSpots_cons, ← and_assoc (c := ∀ s ∈ fieldSpots _ fs, s.BitFieldAligned),
      ← align_dvd_start_iff hplaceable hfflat]
    cases fs with
    | nil => simp [laidOutNaturally_singleton, fieldSpots]
    | cons g fs =>
      have hg : g.Placeable (start + f.byteCount) := by
        obtain ⟨hgallowed, hgbelow, -⟩ := forall_mem_fieldSpots_cons.1 hrest
        exact ⟨hgallowed.name, hgallowed.kind, hgbelow⟩
      have hle : f.byteCount ≤ f.cType.size := by
        rw [size_cType hplaceable hf hfflat]
        exact le_alignUp (wordSizes_pos (align_cType_mem hplaceable))
      rw [laidOutNaturally_cons_cons hle (wordSizes_pos (align_cType_mem hg)),
        ih hrest hfs hfsflat, ← align_dvd_byteCount_iff hplaceable hf hfflat,
        List.dropLast_cons_cons, List.forall_mem_cons]
      constructor
      · rintro ⟨hstart, hsize, haligned, hdvd⟩
        exact ⟨⟨hstart, haligned⟩, hsize, hdvd⟩
      · rintro ⟨⟨hstart, haligned⟩, hsize, hdvd⟩
        exact ⟨hstart, hsize, haligned, hdvd⟩

end Field

end RegisterLayout
