import RegisterLayout.Proofs.DiagramPlacement
import RegisterLayout.Proofs.TreeFailures

/-!
# Failures of diagrams

The diagram of a tree that was placed fails with an error of the layout only, unless the bits at
which a field stands have too many digits to be written.  No field reaches beyond the end of the
tree that it is in, so these bits are below the extent of the tree.

Principal definition: `Field.Within`.
Principal results: `Field.within_located`, `Field.failsOnly_diagram`.
-/

namespace RegisterLayout

open Failure (Foreseen)

namespace Field

/-! ## Where the nodes of a tree end -/

/-- A node between two offsets. -/
structure Within (f : Field) (first stop : Int) : Prop where
  first : first ≤ f.header.byteOffset
  nonneg : 0 ≤ f.bitCount
  stop : 8 * f.header.byteOffset + f.bitCount ≤ 8 * stop

section

variable {path : Path} {index : Nat} {start : Int}

theorem bytesBefore_nonneg {fields : List Field} (h : ∀ f ∈ fields, 0 ≤ f.byteCount) (k : Nat) :
    0 ≤ bytesBefore fields k := by
  refine List.sum_nonneg fun n hn => ?_
  obtain ⟨f, hf, rfl⟩ := List.mem_map.1 hn
  exact h f (List.mem_of_mem_take hf)

/-- A field and those before it are no longer than all fields. -/
theorem bytesBefore_add_le {fields : List Field} (h : ∀ f ∈ fields, 0 ≤ f.byteCount) {k : Nat}
    {f : Field} (hk : fields[k]? = some f) :
    bytesBefore fields k + f.byteCount ≤ (fields.map byteCount).sum := by
  induction fields generalizing k with
  | nil => cases hk
  | cons g fs ih =>
    obtain ⟨hg, hfs⟩ := List.forall_mem_cons.1 h
    rw [List.map_cons, List.sum_cons]
    cases k with
    | zero =>
      obtain rfl := Option.some.inj hk
      have hrest : 0 ≤ (fs.map byteCount).sum := List.sum_nonneg fun n hn => by
        obtain ⟨f, hf, rfl⟩ := List.mem_map.1 hn
        exact hfs f hf
      have hnone : bytesBefore (g :: fs) 0 = 0 := rfl
      omega
    | succ k =>
      have hle := ih hfs hk
      rw [bytesBefore_cons_succ]
      omega

theorem byteCount_member_le {h : Header} {members : List Field}
    (hwhole : ∀ f ∈ members, f.SizesWhole) {f : Field} (hf : f ∈ members) :
    f.byteCount ≤ (union h members).byteCount := by
  have hle : f.bitCount ≤ (union h members).bitCount := by
    rw [bitCount_union hwhole]
    cases hmax : (members.map bitCount).max? with
    | none =>
      rw [List.max?_eq_none_iff, List.map_eq_nil_iff] at hmax
      exact absurd (hmax ▸ hf) List.not_mem_nil
    | some n => exact (List.max?_eq_some_iff.1 hmax).2 _ (List.mem_map_of_mem hf)
  unfold byteCount
  omega

/-- What is below a located node lies within it. -/
theorem exists_within_of_mem_children {f c : Field} (h : f.Placeable start) (hf : f.SizesWhole)
    (hc : c ∈ (f.located path index start).children) :
    ∃ g ∈ f.children, ∃ index' start',
      c = g.located (f.header.pathUnder path index) index' start' ∧ g.Placeable start' ∧
        start ≤ start' ∧ start' + g.byteCount ≤ start + f.byteCount := by
  obtain ⟨k, hk⟩ := List.mem_iff_getElem?.1 hc
  cases f with
  | struct header fields =>
    obtain ⟨g, hg, rfl⟩ := Option.map_eq_some_iff.1 (getElem?_locatedFields fields k ▸ hk)
    have hbytes : ∀ f ∈ fields, f.WholeBytes := by
      intro f hm
      obtain ⟨j, hj⟩ := List.mem_iff_getElem?.1 hm
      exact (h.field hj).wholeBytes (hf.child hm)
    have hnonneg : ∀ f ∈ fields, 0 ≤ f.byteCount := fun f hm => by
      have := (hbytes f hm).nonneg
      unfold byteCount
      omega
    have hbefore := bytesBefore_nonneg hnonneg k
    have hle := bytesBefore_add_le hnonneg hg
    have htotal : (struct header fields).byteCount = (fields.map byteCount).sum :=
      byteCount_struct (fun f hm => hf.child hm) hbytes
    exact ⟨g, List.mem_of_getElem? hg, _, _, rfl, h.field hg, by omega, by omega⟩
  | union header members =>
    obtain ⟨g, hg, rfl⟩ := Option.map_eq_some_iff.1 (getElem?_locatedMembers members k ▸ hk)
    have hmem := List.mem_of_getElem? hg
    have hwhole : ∀ f ∈ members, f.SizesWhole := fun f hm => hf.child hm
    have hle : g.byteCount ≤ (union header members).byteCount := byteCount_member_le hwhole hmem
    exact ⟨g, hmem, _, _, rfl, h.member hmem, Int.le_refl start, by omega⟩
  | _ => cases hc

/-- **No node of a tree begins before the tree or ends behind it.** -/
theorem within_located {f : Field} (h : f.Placeable start) (hf : f.SizesWhole) :
    ∀ g ∈ (f.located path index start).nodes, g.Within start (start + f.byteCount) := by
  induction f using inductionOnChildren generalizing path index start with
  | node f ih =>
    have hbytes := h.wholeBytes hf
    refine forall_mem_nodes.2 ⟨⟨?_, ?_, ?_⟩, fun c hc => ?_⟩
    · rw [header_located, Header.byteOffset_placedAt]
    · rw [bitCount_located]
      exact hbytes.nonneg
    · have hcount := hbytes.eq_byteCount
      rw [header_located, Header.byteOffset_placedAt, bitCount_located]
      omega
    · obtain ⟨g, hg, index', start', rfl, hplaceable, hfirst, hstop⟩ :=
        exists_within_of_mem_children h hf hc
      intro d hd
      have hwithin := ih g hg hplaceable (hf.child hg) d hd
      exact ⟨Int.le_trans hfirst hwithin.first, hwithin.nonneg,
        Int.le_trans hwithin.stop (by omega)⟩

end

/-! ## Entries -/

/-- The nodes that the entries of a tree are about. -/
theorem node_of_mem_entries {f : Field} {e : Entry} (he : e ∈ f.entries) :
    (∀ b, e = .heading b → bitfield b ∈ f.nodes) ∧ ∀ g, e = .cell g → g ∈ f.nodes := by
  induction f using inductionOn with
  | bitfield b =>
    rw [entries, List.mem_cons, List.mem_map] at he
    rcases he with rfl | ⟨i, -, rfl⟩
    · refine ⟨fun b' heq => ?_, by simp⟩
      obtain rfl := Entry.heading.inj heq
      exact mem_nodes_self _
    · exact ⟨by simp, by simp⟩
  | struct header fields ih =>
    rw [entries, mem_entriesOf] at he
    obtain ⟨f, hf, he⟩ := he
    obtain ⟨hheading, hcell⟩ := ih f hf he
    exact ⟨fun b heq => mem_nodes.2 (.inr ⟨f, hf, hheading b heq⟩),
      fun g heq => mem_nodes.2 (.inr ⟨f, hf, hcell g heq⟩)⟩
  | _ =>
    rw [entries, List.mem_singleton] at he
    · subst he
      refine ⟨by simp, fun g heq => ?_⟩
      obtain rfl := Entry.cell.inj heq
      exact mem_nodes_self _
    · simp
    · simp

/-- What has to be written about a field before a short end is not too long. -/
theorem not_overlong {e : Entry} {stop : Int}
    (hstop : (Number.int (8 * stop)).isWritable = true) (he : e.Sound)
    (hheading : ∀ b, e = .heading b → (bitfield b).Within 0 stop)
    (hcell : ∀ g, e = .cell g → g.Within 0 stop) : ¬e.Overlong := by
  have hwritable : ∀ {n : Int}, 0 ≤ n → n ≤ 8 * stop → (Number.int n).isWritable = true :=
    fun hn hle => isWritable_mono (by omega) hstop
  intro hlong
  cases hlong with
  | @size f run long =>
    obtain ⟨hfirst, hnonneg, hend⟩ := hcell f rfl
    exact long (hwritable hnonneg (by omega))
  | @bitFieldEnds b narrow crosses long =>
    obtain ⟨hfirst, hnonneg, hend⟩ := hheading b rfl
    cases he with
    | heading name bits width =>
      rw [bitCount_bitfield bits] at hnonneg hend
      rw [bits, Value.whole_int] at long
      simp only [Field.header] at hfirst hend
      exact long ⟨hwritable (by omega) (by omega), hwritable (by omega) hend⟩
  | @runEnds f run narrow crosses long =>
    obtain ⟨hfirst, hnonneg, hend⟩ := hcell f rfl
    exact long ⟨hwritable (by omega) (by omega), hwritable (by omega) hend⟩

/-! ## Diagrams -/

section

variable {short : Prop} {raw root : Field}

/-- **The diagram of a tree that was placed fails as foreseen.** -/
theorem failsOnly_diagram (ht : raw.WellTyped) (hraw : raw.SizesWhole)
    (h : raw.resolve = .ok root) (hlimit : short → (Value.int raw.extent).isWritable = true) :
    FailsOnly (Foreseen short) root.diagram := by
  have hes := consecutive_of_resolve hraw h
  have hplaced := isPlaced_of_resolve hraw h
  have hallowed := nameAllowed_of_resolve hraw h
  obtain ⟨hplaceable, rfl⟩ := located_of_resolve hraw h
  have hbytes := (hplaceable.wholeBytes hraw).eq_byteCount
  have hextent := bitCount_lt_extent ht hraw
  intro e he
  rcases (diagram_eq_error_iff hplaced).1 he with ⟨c, entry, hc, hdraw⟩ | ⟨htitle, -⟩
  · obtain ⟨hsound, hbit⟩ := hc.bitOffset hes
    rcases Canvas.drawEntry_error hsound hbit hdraw with hkind | ⟨kind, -, hkind⟩ | ⟨rfl, hlong⟩
    · obtain ⟨l, rfl, -⟩ := hkind
      exact .inl ⟨l, rfl⟩
    · obtain ⟨l, rfl, -⟩ := hkind
      exact .inl ⟨l, rfl⟩
    · refine .inr ⟨rfl, fun hs => ?_⟩
      obtain ⟨before, after, heq, -⟩ := hc
      have hmem : entry ∈ (raw.located [] 0 0).entries :=
        heq ▸ List.mem_append_right _ List.mem_cons_self
      obtain ⟨hheading, hcell⟩ := node_of_mem_entries hmem
      have hwithin := @within_located [] 0 0 raw hplaceable hraw
      have hstop : (Number.int (8 * (0 + raw.byteCount))).isWritable = true := by
        have hshort := isWritable_upTo (m := 8 * (0 + raw.byteCount)) (by omega) (by omega)
          (hlimit hs)
        rwa [Value.isWritable_num] at hshort
      exact not_overlong hstop hsound (fun b hb => hwithin _ (hheading b hb))
        (fun g hg => hwithin _ (hcell g hg)) hlong
  · -- A title fails for a description that is no text.
    obtain ⟨-, desc, hdesc, hnot⟩ := title_error hallowed htitle
    rw [header_located] at hdesc
    obtain ⟨s, hs⟩ := isText_of_filled? ht.own.header.desc hdesc
    exact absurd hs (hnot s)

end

end Field

end RegisterLayout
