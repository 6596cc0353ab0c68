import RegisterLayout.Proofs.NameClash
import RegisterLayout.Proofs.NodeFailures

/-!
# Failures of trees

Resolving a tree of whole widths that was read from an accepted document fails with an error of
the layout, unless a message needs a number with too many digits.  What it succeeds with has whole
sizes, since an item or a blob of another size is refused.

Principal definition: `Field.PlacedAsForeseen`.
Principal results: `Field.sizesWhole_of_place`, `Field.failsOnly_place`, `Field.failsOnly_resolve`.
-/

namespace RegisterLayout

open Failure (Foreseen)

variable {short : Prop}

/-! ## What is kept by placing -/

theorem flatMap_parts_locatedItems (path : Path) (start : Number) (index : Nat) (endBit : Int)
    (items : List Item) :
    (locatedItems path start index endBit items).flatMap
        (fun i => Field.enumerationParts i.enumeration)
      = items.flatMap fun i => Field.enumerationParts i.enumeration := by
  induction items generalizing index endBit with
  | nil => rfl
  | cons i rest ih => rw [locatedItems, List.flatMap_cons, List.flatMap_cons, ih]; rfl

theorem Header.WellTyped.placedAt {h : Header} (ht : h.WellTyped) (fullName : Text)
    (start : Number) : (h.placedAt fullName start).WellTyped :=
  ⟨ht.name, ht.shortName, ht.desc, ht.offset⟩

theorem wellTyped_locatedItems {path : Path} {start : Number} {index : Nat} {endBit : Int}
    {items : List Item} (h : ∀ i ∈ items, i.WellTyped) :
    ∀ i ∈ locatedItems path start index endBit items, i.WellTyped := by
  induction items generalizing index endBit with
  | nil => exact h
  | cons i rest ih =>
    obtain ⟨hi, hrest⟩ := List.forall_mem_cons.1 h
    exact List.forall_mem_cons.2 ⟨⟨hi.header.placedAt _ _, hi.bits, hi.constants⟩, ih hrest⟩

namespace Field

theorem ownParts_located (f : Field) (path : Path) (index : Nat) (start : Int) :
    (f.located path index start).ownParts = f.ownParts := by
  cases f with
  | bitfield b => exact congrArg (_ ++ ·) (flatMap_parts_locatedItems _ _ 0 b.bits.whole b.items)
  | _ => rfl

theorem OwnTyped.located {f : Field} (h : f.OwnTyped) (path : Path) (index : Nat) (start : Int) :
    (f.located path index start).OwnTyped := by
  cases f with
  | word w =>
    obtain ⟨header, bits, typedef, constants⟩ : w.WellTyped := h
    exact ⟨header.placedAt _ _, bits, typedef, constants⟩
  | bitfield b =>
    obtain ⟨header, bits, items⟩ : b.WellTyped := h
    exact ⟨header.placedAt _ _, bits, wellTyped_locatedItems items⟩
  | blob b =>
    obtain ⟨header, bytes, decl⟩ : b.WellTyped := h
    exact ⟨header.placedAt _ _, bytes, decl⟩
  | struct | union => exact Header.WellTyped.placedAt h _ _
  | stray => exact h.elim

/-- What a node keeps wherever it is located, the nodes of a tree keep. -/
theorem forall_mem_nodes_located {P : Field → Prop} {f : Field}
    (hP : ∀ g, P g → ∀ path index start, P (g.located path index start))
    (h : ∀ g ∈ f.nodes, P g) (path : Path) (index : Nat) (start : Int) :
    ∀ g ∈ (f.located path index start).nodes, P g := by
  induction f using inductionOnChildren generalizing path index start with
  | node f ih =>
    obtain ⟨hown, hbelow⟩ := forall_mem_nodes.1 h
    refine forall_mem_nodes.2 ⟨hP f hown path index start, fun c hc => ?_⟩
    obtain ⟨g, hg, index', start', rfl, -⟩ := exists_of_mem_children_located hc
    exact ih g hg (hbelow g hg) _ index' start'

theorem WellTyped.located {f : Field} (h : f.WellTyped) (path : Path) (index : Nat)
    (start : Int) : (f.located path index start).WellTyped :=
  forall_mem_nodes_located (fun _ hg path index start => hg.located path index start) h path index
    start

/-- The keys of a tree are among the values that messages show. -/
theorem keysWritable_of_parts {f : Field}
    (h : ∀ g ∈ f.nodes, ∀ v ∈ g.ownParts, v.isWritable = true) : f.KeysWritable := by
  have hkeys : ∀ {e : Option Enumeration}, (∀ v ∈ enumerationParts e, v.isWritable = true) →
      ∀ key ∈ (e.getD []).map Prod.fst, key.isWritable = true := by
    intro e he key hkey
    obtain ⟨entry, hentry, rfl⟩ := List.mem_map.1 hkey
    exact he _ (List.mem_flatMap.2 ⟨entry, hentry, List.mem_cons_self⟩)
  intro s hs
  obtain ⟨g, hg, hs⟩ := List.mem_flatMap.1 hs
  have hparts := h g hg
  cases g with
  | word w =>
    obtain rfl := List.mem_singleton.1 hs
    exact hkeys fun v hv => hparts v (List.mem_append_right _ hv)
  | bitfield b =>
    rcases List.mem_cons.1 hs with rfl | hs
    · exact fun _ hkey => nomatch hkey
    · obtain ⟨i, hi, rfl⟩ := List.mem_map.1 hs
      refine hkeys fun v hv => hparts v (List.mem_append_right _ ?_)
      exact List.mem_flatMap.2 ⟨i, hi, hv⟩
  | stray i =>
    obtain rfl := List.mem_singleton.1 hs
    exact hkeys fun v hv => hparts v (List.mem_append_right _ hv)
  | _ =>
    obtain rfl := List.mem_singleton.1 hs
    exact fun _ hkey => nomatch hkey

/-! ## What placing succeeds with -/

theorem width_of_nameItems {path : Path} {start wordBits : Number} {index : Nat}
    {items : List Item} {named : List (Item × Int)}
    (h : nameItems path start wordBits index items = .ok named) :
    ∀ i ∈ items, 1 ≤ i.bits.whole := by
  induction items generalizing index named with
  | nil => exact fun _ hi => nomatch hi
  | cons i rest ih =>
    obtain ⟨-, hwidth, more, hmore, -⟩ := nameItems_cons_eq_ok h
    exact List.forall_mem_cons.2 ⟨hwidth, ih hmore⟩

theorem place_of_mem_fields {parent : Text} {path : Path} {index : Nat} {start : Number}
    {fields : List Field} {r : List Field × Number}
    (h : placeFields parent path index start fields = .ok r) :
    ∀ f ∈ fields, ∃ index start r, place path index start f = .ok r := by
  induction fields generalizing index start r with
  | nil => exact fun _ hf => nomatch hf
  | cons f fs ih =>
    obtain ⟨-, first, hfirst, rest, hrest, -⟩ := placeFields_cons_eq_ok_iff.1 h
    exact List.forall_mem_cons.2 ⟨⟨_, _, _, hfirst⟩, ih hrest⟩

theorem place_of_mem_members {parent : Text} {path : Path} {index : Nat}
    {start longest : Number} {members : List Field} {r : List Field × Number}
    (h : placeMembers parent path index start longest members = .ok r) :
    ∀ f ∈ members, ∃ index start r, place path index start f = .ok r := by
  induction members generalizing index longest r with
  | nil => exact fun _ hf => nomatch hf
  | cons f fs ih =>
    obtain ⟨-, first, hfirst, rest, hrest, -⟩ := placeMembers_cons_eq_ok_iff.1 h
    exact List.forall_mem_cons.2 ⟨⟨_, _, _, hfirst⟩, ih hrest⟩

/-- **A tree of whole widths that can be placed has whole sizes.** -/
theorem sizesWhole_of_place {f : Field} (hwidths : f.WidthsWhole) {path : Path} {index : Nat}
    {start : Number} {r : Field × Number} (h : place path index start f = .ok r) :
    f.SizesWhole := by
  induction f using inductionOn generalizing path index start r with
  | word w => exact List.forall_mem_singleton.2 hwidths.own
  | bitfield b =>
    obtain ⟨-, placed, hplaced, -⟩ := place_bitfield_eq_ok_iff.1 h
    refine List.forall_mem_singleton.2 ⟨hwidths.own, fun i hi => ?_⟩
    obtain ⟨width, named, stop, -, hnamed, -⟩ := placeBitField_eq_ok hplaced
    exact ⟨_, Value.eq_int_of_one_le_whole (width_of_nameItems hnamed i hi)⟩
  | blob b =>
    obtain ⟨-, placed, hplaced, -⟩ := place_blob_eq_ok_iff.1 h
    obtain ⟨hone, -⟩ := placeBlob_eq_ok hplaced
    exact List.forall_mem_singleton.2 ⟨_, Value.eq_int_of_one_le_whole hone⟩
  | struct header fields ih =>
    obtain ⟨-, placed, hplaced, -, -⟩ := place_struct_eq_ok_iff.1 h
    refine forall_mem_nodes.2 ⟨trivial, fun c hc => ?_⟩
    obtain ⟨_, _, _, hplace⟩ := place_of_mem_fields hplaced c hc
    exact ih c hc (hwidths.child hc) hplace
  | union header members ih =>
    obtain ⟨-, -, -, placed, hplaced, -⟩ := place_union_eq_ok_iff.1 h
    refine forall_mem_nodes.2 ⟨trivial, fun c hc => ?_⟩
    obtain ⟨_, _, _, hplace⟩ := place_of_mem_members hplaced c hc
    exact ih c hc (hwidths.child hc) hplace
  | stray i => exact absurd h place_stray_ne_ok

/-! ## What placing fails with -/

/-- The own values of all nodes can be written if the numbers are short. -/
def PartsShort (short : Prop) (f : Field) : Prop :=
  short → ∀ g ∈ f.nodes, ∀ v ∈ g.ownParts, v.isWritable = true

/-- What is known of a tree that is to be placed. -/
structure Expected (short : Prop) (f : Field) : Prop where
  typed : f.WellTyped
  widths : f.WidthsWhole
  parts : f.PartsShort short

theorem Expected.child {f c : Field} (h : f.Expected short) (hc : c ∈ f.children) :
    c.Expected short :=
  ⟨h.typed.child hc, h.widths.child hc, fun hs => (forall_mem_nodes.1 (h.parts hs)).2 c hc⟩

theorem Expected.ownParts {f : Field} (h : f.Expected short) (hs : short) :
    ∀ v ∈ f.ownParts, v.isWritable = true :=
  (forall_mem_nodes.1 (h.parts hs)).1

/-- Placing a tree fails as foreseen from every offset from which it ends within a limit. -/
def PlacedAsForeseen (short : Prop) (limit : Int) (f : Field) : Prop :=
  ∀ (path : Path) (index : Nat) (start : Int), 0 ≤ start → 8 * start + f.extent ≤ limit →
    FailsOnly (Foreseen short) (place path index (.int start) f)

section

variable {limit : Int} {path : Path} {parent : Text} {start : Int}

theorem isWritable_childValue {h : Header} (ht : h.WellTyped) {index : Nat}
    (hindex : (Value.int index).isWritable = true) : (childValue h index).isWritable = true := by
  unfold childValue
  cases hgiven : h.givenName? with
  | none => exact hindex
  | some name =>
    exact isWritable_of_isText (isText_of_filled? (fun w hw => (ht.name w hw).isText) hgiven)

theorem fieldFault?_values {index : Nat} {start : Number} {f : Field} {cause : Cause}
    (h : fieldFault? index start f = some cause) :
    ∀ v ∈ cause.values, v = childValue f.header index ∨ f.header.offset = some v ∨
      v = .num start := by
  have hoffset : ∀ {given : Value}, f.header.offset = some given →
      cause = .fieldOffset (childValue f.header index) given start →
      ∀ v ∈ cause.values, v = childValue f.header index ∨ f.header.offset = some v ∨
        v = .num start := by
    rintro given hgiven rfl
    simp [Cause.values, hgiven]
  cases f with
  | struct header fields =>
    obtain rfl := Option.some.inj h
    exact List.forall_mem_singleton.2 (.inl rfl)
  | _ =>
    unfold fieldFault? at h
    dsimp only at h
    split at h
    · cases h
    · next given hgiven =>
      split at h
      · cases h
      · exact hoffset hgiven (Option.some.inj h).symm

theorem memberFault?_values {union : Text} {f : Field} {cause : Cause}
    (h : memberFault? union f = some cause) : cause.values = [] := by
  unfold memberFault? at h
  split at h
  · exact Option.some.inj h ▸ rfl
  · split at h
    · split at h
      · exact Option.some.inj h ▸ rfl
      · cases h
    · split at h
      · exact Option.some.inj h ▸ rfl
      · cases h

/-- A tree ends within its extent. -/
theorem stop_of_place {f : Field} (he : f.Expected short) {index : Nat} {r : Field × Number}
    (h : place path index (.int start) f = .ok r) :
    ∃ stop, r.2 = .int stop ∧ start ≤ stop ∧ 8 * stop < 8 * start + f.extent := by
  have hsizes := sizesWhole_of_place he.widths h
  obtain ⟨hplaceable, rfl⟩ := (place_eq_ok_iff hsizes path index start r).1 h
  have hbytes := (hplaceable.wholeBytes hsizes).eq_byteCount
  have hcount := bitCount_lt_extent he.typed hsizes
  exact ⟨_, rfl, by omega, by omega⟩

theorem sum_extent_nonneg {fs : List Field} (h : ∀ f ∈ fs, f.Expected short) :
    0 ≤ (fs.map extent).sum := by
  refine List.sum_nonneg fun n hn => ?_
  obtain ⟨f, hf, rfl⟩ := List.mem_map.1 hn
  exact Int.le_trans (by decide) (extent_pos (h f hf).typed)

theorem failsOnly_placeFields (hlimit : short → (Value.int limit).isWritable = true)
    {fields : List Field} (he : ∀ f ∈ fields, f.Expected short)
    (hfields : ∀ f ∈ fields, f.PlacedAsForeseen short limit) {index : Nat} (hstart : 0 ≤ start)
    (hle : index + 8 * start + (fields.map extent).sum ≤ limit) :
    FailsOnly (Foreseen short) (placeFields parent path index (.int start) fields) := by
  induction fields generalizing index start with
  | nil => exact .ok
  | cons f fs ih =>
    obtain ⟨hf, hfs⟩ := List.forall_mem_cons.1 he
    obtain ⟨hplace, hrest⟩ := List.forall_mem_cons.1 hfields
    have hpos := extent_pos hf.typed
    have hnonneg := sum_extent_nonneg hfs
    rw [List.map_cons, List.sum_cons] at hle
    rw [placeFields]
    cases hfault : fieldFault? index (.int start) f with
    | some cause =>
      refine .throw (foreseen_ofCause fun hs v hv => ?_)
      rcases fieldFault?_values hfault v hv with rfl | hgiven | rfl
      · exact isWritable_childValue hf.typed.own.header
          (isWritable_upTo (by omega) (by omega) (hlimit hs))
      · refine hf.ownParts hs v (List.mem_append_left _ ?_)
        rw [hgiven]
        exact List.mem_singleton.2 rfl
      · exact isWritable_upTo hstart (by omega) (hlimit hs)
    | none =>
      refine (hplace path index start hstart (by omega)).bind fun r hr => ?_
      obtain ⟨stop, hstop, hbelow, hend⟩ := stop_of_place hf hr
      dsimp only
      rw [hstop]
      have hmore := @ih stop hfs hrest (index + 1) (by omega) (by omega)
      exact hmore.bind fun _ _ => .pure

theorem failsOnly_placeMembers {members : List Field} (he : ∀ f ∈ members, f.Expected short)
    (hmembers : ∀ f ∈ members, f.PlacedAsForeseen short limit) {index : Nat} {longest : Number}
    (hstart : 0 ≤ start) (hle : 8 * start + (members.map extent).sum ≤ limit) :
    FailsOnly (Foreseen short) (placeMembers parent path index (.int start) longest members) := by
  induction members generalizing index longest with
  | nil => exact .ok
  | cons f fs ih =>
    obtain ⟨hf, hfs⟩ := List.forall_mem_cons.1 he
    obtain ⟨hplace, hrest⟩ := List.forall_mem_cons.1 hmembers
    have hpos := extent_pos hf.typed
    have hnonneg := sum_extent_nonneg hfs
    rw [List.map_cons, List.sum_cons] at hle
    rw [placeMembers]
    refine (hplace path index start hstart (by omega)).bind fun r hr => ?_
    dsimp only
    cases hfault : memberFault? parent f with
    | some cause =>
      refine .throw (foreseen_ofCause fun _ v hv => ?_)
      rw [memberFault?_values hfault] at hv
      cases hv
    | none => exact (ih hfs hrest (by omega)).bind fun _ _ => .pure

/-- The sizes of placed fields can be added up. -/
theorem sumSizes_of_placeFields {fields : List Field} (he : ∀ f ∈ fields, f.Expected short)
    {index : Nat} {r : List Field × Number}
    (h : placeFields parent path index (.int start) fields = .ok r) :
    ∃ size, sumSizes 0 r.1 = .ok size := by
  have hsizes : ∀ f ∈ fields, f.SizesWhole := by
    intro f hf
    obtain ⟨_, _, _, hplace⟩ := place_of_mem_fields h f hf
    exact sizesWhole_of_place (he f hf).widths hplace
  obtain ⟨-, rfl⟩ := (placeFields_eq_ok_iff fun f hf => place_eq_ok_iff (hsizes f hf)).1 h
  rw [sumSizes_congr (forall₂_locatedFields fun f _ _ _ => sizeBits_located f _ _ _)]
  exact ⟨_, sumSizes_eq (fun f hf => sizeBits_eq (hsizes f hf)) 0⟩

/-- **Placing a tree fails as foreseen.** -/
theorem failsOnly_place (hlimit : short → (Value.int limit).isWritable = true) {f : Field}
    (he : f.Expected short) : f.PlacedAsForeseen short limit := by
  induction f using inductionOn with
  | word w =>
    intro path index start hstart hle
    obtain ⟨n, hn⟩ := he.widths.own
    have hpos := extent_pos he.typed
    rw [place]
    refine (failsOnly_nodeName he.typed.own.header path index).bind fun r _ => ?_
    refine (failsOnly_placeWord he.typed.own hn
      (fun hs => isWritable_upTo hstart (by omega) (hlimit hs))
      fun hs v hv => he.ownParts hs v (List.mem_append_right _ hv)).bind fun _ _ => .pure
  | bitfield b =>
    intro path index start hstart hle
    obtain ⟨n, hn⟩ := he.widths.own
    have hown := ownBits_nonneg he.typed.own
    rw [extent_of_leaf rfl, ownBits, hn, Value.whole_int] at hle
    rw [ownBits, hn, Value.whole_int] at hown
    rw [place]
    refine (failsOnly_nodeName he.typed.own.header path index).bind fun r _ => ?_
    refine (failsOnly_placeBitField he.typed.own hn
      (fun hs => isWritable_upTo hown (by omega) (hlimit hs))
      fun hs i hi v hv => he.ownParts hs v ?_).bind fun _ _ => .pure
    exact List.mem_append_right _ (List.mem_flatMap.2 ⟨i, hi, hv⟩)
  | blob b =>
    intro path index start hstart hle
    rw [place]
    refine (failsOnly_nodeName he.typed.own.header path index).bind fun r _ => ?_
    exact (failsOnly_placeBlob he.typed.own).bind fun _ _ => .pure
  | struct header fields ih =>
    intro path index start hstart hle
    have hchildren : ∀ f ∈ fields, f.Expected short := fun f hf => he.child hf
    rw [extent_eq, ownBits, children] at hle
    rw [place]
    refine (failsOnly_nodeName he.typed.own.header path index).bind fun r _ => ?_
    have hfields := @failsOnly_placeFields short limit r.2 r.1 start hlimit fields hchildren
      (fun f hf => ih f hf (hchildren f hf)) 0 hstart (by omega)
    refine hfields.bind fun placed hplaced => ?_
    obtain ⟨size, hsize⟩ := sumSizes_of_placeFields hchildren hplaced
    dsimp only
    rw [hsize]
    exact .ok
  | union header members ih =>
    intro path index start hstart hle
    have hchildren : ∀ f ∈ members, f.Expected short := fun f hf => he.child hf
    rw [extent_eq, ownBits, children] at hle
    rw [place]
    refine (failsOnly_nodeName he.typed.own.header path index).bind fun r _ => ?_
    refine .refuse (fun _ => foreseen_ofCause fun _ => List.forall_mem_nil _) fun _ => ?_
    refine .refuse (fun _ => foreseen_ofCause fun _ => List.forall_mem_nil _) fun _ => ?_
    exact (failsOnly_placeMembers hchildren (fun f hf => ih f hf (hchildren f hf)) hstart
      (by omega)).bind fun _ _ => .pure
  | stray i => exact he.typed.own.elim

end

/-! ## Whole trees -/

theorem failsOnly_checkRootOffset {root : Field} (he : root.Expected short) :
    FailsOnly (Foreseen short) root.checkRootOffset := by
  unfold checkRootOffset
  split
  · exact .ok
  · next given hgiven =>
    split
    · exact .ok
    · refine .error (foreseen_atNode ?_ fun hs => List.forall_mem_singleton.2 ?_)
      · cases hlabel : filled? root.header.label? with
        | none => rfl
        | some v =>
          refine isWritable_of_isText (isText_of_filled? (fun w hw => ?_) hlabel)
          unfold Header.label? at hw
          split at hw
          · next short hshort =>
            obtain rfl := Option.some.inj hw
            have hsome := (Option.filter_eq_some_iff.1 hshort).1
            exact (he.typed.own.header.shortName _ hsome).isText
          · exact (he.typed.own.header.name _ hw).isText
      · refine he.ownParts hs given (List.mem_append_left _ ?_)
        rw [hgiven]
        exact List.mem_singleton.2 rfl

end Field

theorem foreseen_clash {x : Introduced} (hx : x.isWritable = true) : Foreseen short x.clash := by
  cases x with
  | node fullName => exact foreseen_ofNode fun _ => List.forall_mem_nil _
  | constant fullName key => exact foreseen_ofNode fun _ => List.forall_mem_singleton.2 hx

theorem failsOnly_checkIntroduced {seen : List (Option Text)} {xs : List Introduced}
    (h : short → ∀ x ∈ xs, x.isWritable = true) :
    FailsOnly (Foreseen short) (checkIntroduced seen xs) := by
  induction xs generalizing seen with
  | nil => exact .ok
  | cons x xs ih =>
    rw [checkIntroduced]
    by_cases hx : x.isWritable = true
    · rw [hx, if_neg (by decide)]
      split
      · exact .error (foreseen_clash hx)
      · exact ih fun hs y hy => h hs y (List.mem_cons_of_mem _ hy)
    · rw [Bool.eq_false_of_not_eq_true hx, if_pos (by decide)]
      exact .error (.inr ⟨rfl, fun hs => hx (h hs x List.mem_cons_self)⟩)

namespace Field

/-- **Resolving a tree fails as foreseen, and what it succeeds with has whole sizes.** -/
theorem failsOnly_resolve {root : Field} (he : root.Expected short)
    (hextent : short → (Value.int root.extent).isWritable = true) :
    FailsOnly (Foreseen short) root.resolve ∧ ∀ r, root.resolve = .ok r → root.SizesWhole := by
  have hplace := failsOnly_place hextent he [] 0 0 (Int.le_refl 0) (by omega)
  constructor
  · refine (failsOnly_checkRootOffset he).bind fun _ _ => hplace.bind fun r hr => ?_
    have hsizes := sizesWhole_of_place he.widths hr
    obtain ⟨-, rfl⟩ := (place_eq_ok_iff hsizes [] 0 0 r).1 hr
    have hkeys : short → ∀ x ∈ (root.located [] 0 0).introduced, x.isWritable = true := by
      intro hs
      refine introduced_isWritable (keysWritable_of_parts ?_)
      refine forall_mem_nodes_located (fun g hg path index start => ?_) (he.parts hs) [] 0 0
      rw [ownParts_located]
      exact hg
    have hnames : FailsOnly (Foreseen short) (checkUniqueNames (root.located [] 0 0)) := by
      rw [checkUniqueNames_eq]
      exact failsOnly_checkIntroduced hkeys
    exact hnames.bind fun _ _ => .pure
  · intro r hr
    unfold resolve at hr
    simp only [bind_eq_ok_iff] at hr
    obtain ⟨-, -, placed, hplaced, -⟩ := hr
    exact sizesWhole_of_place he.widths hplaced

end Field

end RegisterLayout
