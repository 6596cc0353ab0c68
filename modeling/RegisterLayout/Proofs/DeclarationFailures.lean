import RegisterLayout.Proofs.Declared
import RegisterLayout.Proofs.TableRows

/-!
# Failures of declarations

The declarations for a tree that was placed fail with an error of the layout only, unless a count
of bytes or a constant has too many digits to be written.

Principal definition: `Field.Declarable` — what is known of the nodes of a placed tree.
Principal results: `Field.declarable_of_resolve`, `Field.failsOnly_declarations`.
-/

namespace RegisterLayout

open Failure (Foreseen)

variable {short : Prop} {o : DeclarationOptions}

/-! ## Values that are printed -/

theorem failsOnly_writable {v : Value} (h : short → v.isWritable = true) :
    FailsOnly (Foreseen short) v.writable := by
  unfold Value.writable
  split
  · exact .ok
  · next hlong => exact .error (.inr ⟨rfl, fun hs => hlong (h hs)⟩)

theorem failsOnly_written {v : Value} (h : short → v.isWritable = true) :
    FailsOnly (Foreseen short) v.written := by
  intro e he
  unfold Value.written at he
  cases hv : v.writable with
  | ok r =>
    rw [hv] at he
    cases he
  | error e' =>
    rw [hv] at he
    obtain rfl := Except.error.inj he
    exact failsOnly_writable h e' hv

theorem FailsOnly.optionMapM {α β : Type} {p : Failure → Prop} {f : α → Except Failure β}
    {x : Option α} (hf : ∀ a, x = some a → FailsOnly p (f a)) : FailsOnly p (x.mapM f) := by
  cases x with
  | none => exact .pure
  | some a =>
    rw [Option.mapM_some, map_eq_pure_bind]
    exact (hf a rfl).bind fun _ _ => .pure

theorem failsOnly_docOf {h : Header} (ht : h.WellTyped) :
    FailsOnly (Foreseen short) (docOf o h) := by
  unfold docOf
  split
  · refine .optionMapM fun desc hdesc => failsOnly_written fun _ => ?_
    exact isWritable_of_isText (isText_of_filled? ht.desc hdesc)
  · exact .ok

theorem failsOnly_memberName {h : Header} (ht : h.WellTyped) {unnamed : Text} :
    FailsOnly (Foreseen short) (memberName h unnamed) := by
  unfold memberName
  cases hgiven : h.givenName? with
  | none => exact .ok
  | some name =>
    refine failsOnly_written fun _ => isWritable_of_isText (isText_of_filled? ?_ hgiven)
    exact fun v hv => (ht.name v hv).isText

/-! ## Leaves -/

theorem failsOnly_declareWord {n : UnnamedMembers} {w : Word} (ht : w.WellTyped) {width : Int}
    (hwidth : w.bits = .int width) : FailsOnly (Foreseen short) (declareWord n w) := by
  have hmember : ∀ {unnamed : Text} (type : WordType), FailsOnly (Foreseen short)
      (memberName w.header unnamed >>= fun name => pure (Member.word type name)) :=
    fun _ => (failsOnly_memberName ht.header).bind fun _ _ => .pure
  unfold declareWord
  cases htypedef : filled? w.typedef with
  | none =>
    have hbits : w.bits.isWritable = true := by
      rw [hwidth]
      exact isWritable_wordWidth (mem_wordWidths_of_isWhole ht.bits hwidth)
    exact (failsOnly_writable fun _ => hbits).bind fun _ _ => hmember _
  | some given =>
    have hgiven := isWritable_of_isText (isText_of_filled? ht.typedef htypedef)
    exact (failsOnly_written fun _ => hgiven).bind fun _ _ => hmember _

theorem failsOnly_declareBlob {n : UnnamedMembers} {b : Blob} (ht : b.WellTyped)
    (hbytes : short → b.bytes.isWritable = true) :
    FailsOnly (Foreseen short) (declareBlob n b) := by
  unfold declareBlob
  cases hdecl : filled? b.decl with
  | none => exact (failsOnly_writable hbytes).bind fun _ _ => .pure
  | some decl =>
    obtain ⟨s, rfl⟩ := isText_of_filled? ht.decl hdecl
    exact .pure

/-! ## Items -/

theorem failsOnly_declareEnum {fullName : Text} {entries : Enumeration}
    (hparts : short → ∀ v ∈ Field.enumerationParts (some entries), v.isWritable = true) :
    FailsOnly (Foreseen short) (declareEnum fullName entries) := by
  refine FailsOnly.bind (.mapM fun entry hentry => ?_) fun _ _ => .pure
  have hpart : ∀ v ∈ [entry.1, entry.2], short → v.isWritable = true :=
    fun v hv hs => hparts hs v (List.mem_flatMap.2 ⟨entry, hentry, hv⟩)
  refine (failsOnly_written (hpart _ (by simp))).bind fun _ _ => ?_
  exact (failsOnly_writable (hpart _ (by simp))).bind fun _ _ => .pure

theorem wordTypeBits_of_bounds {n : Int} (h : 1 ≤ n ∧ n ≤ 64) :
    ∃ bits, wordTypeBits (.int n) = .ok bits := by
  have hin : (Number.le (.int n) 0 || (Number.int 64).lt (.int n)) = false := by
    show (Number.le (.int n) (.int 0) || (Number.int 64).lt (.int n)) = false
    rw [Number.le_int, Number.lt_int, Bool.or_eq_false_iff, decide_eq_false_iff_not,
      decide_eq_false_iff_not]
    omega
  rw [wordTypeBits, hin, if_neg Bool.false_ne_true]
  exact ⟨_, rfl⟩

theorem exists_bounds {i : Item} (hne : i.bitIndices ≠ []) : ∃ r, i.bounds = .ok r := by
  cases hrange : i.bitRange with
  | none =>
    rw [Item.bitIndices, hrange] at hne
    exact absurd rfl hne
  | some range =>
    rw [Item.bitIndices, hrange, Option.getD_some] at hne
    obtain ⟨low, hlow⟩ := Option.isSome_iff_exists.1 (List.isSome_head?.2 hne)
    obtain ⟨high, hhigh⟩ := Option.isSome_iff_exists.1 (List.getLast?_isSome.2 hne)
    refine ⟨(high, low), ?_⟩
    rw [Item.bounds, hrange]
    simp only [hlow, hhigh]

/-- An item that has its name and its bits. -/
structure Item.Declarable (short : Prop) (i : Item) : Prop where
  typed : i.WellTyped
  bits : ∃ n, i.bits = .int n
  parts : short → ∀ v ∈ Field.enumerationParts i.enumeration, v.isWritable = true
  named : i.header.position.fullName.isSome
  placed : i.bitIndices ≠ []

theorem failsOnly_declareItem {struct member : Text} {i : Item} (h : i.Declarable short) :
    FailsOnly (Foreseen short) (declareItem o struct member i) := by
  obtain ⟨fullName, hname⟩ := Option.isSome_iff_exists.1 h.named
  obtain ⟨n, hbits⟩ := h.bits
  have hwidth : 1 ≤ n ∧ n ≤ 64 := by
    obtain ⟨m, k, hm, hk, hbounds⟩ := h.typed.bits
    obtain rfl : m = .int n := Value.num.inj (hm.symm.trans hbits)
    obtain rfl : n = k := Option.some.inj hk
    exact hbounds
  obtain ⟨type, htype⟩ := wordTypeBits_of_bounds hwidth
  obtain ⟨bounds, hbounds⟩ := exists_bounds h.placed
  unfold declareItem
  refine FailsOnly.bind (.optionMapM fun entries hentries => ?_) fun enum _ => ?_
  · have henumeration := (Option.filter_eq_some_iff.1 hentries).1
    exact failsOnly_declareEnum (henumeration ▸ h.parts)
  · simp only [hname, hbits, Value.number_num, ok_bind, htype, hbounds]
    refine FailsOnly.bind ?_ fun _ _ => .pure
    exact (failsOnly_docOf h.typed.header).bind fun _ _ => .pure

theorem failsOnly_declareBitField {struct member : Text} {b : BitField} (ht : b.WellTyped)
    {width : Int} (hwidth : b.bits = .int width) (hitems : ∀ i ∈ b.items, i.Declarable short) :
    FailsOnly (Foreseen short) (declareBitField o struct member b) := by
  have hbits : b.bits.isWritable = true := by
    rw [hwidth]
    exact isWritable_wordWidth (mem_wordWidths_of_isWhole ht.bits hwidth)
  have hrest : ∀ {struct member : Text} (finish : List ItemDeclarations → BitFieldBlock),
      FailsOnly (Foreseen short) ((b.items.filter (·.header.givenName?.isSome)).mapM
        (declareItem o struct member) >>= fun items => pure (finish items)) := by
    intro struct member finish
    refine FailsOnly.bind (.mapM fun i hi => ?_) fun _ _ => .pure
    exact failsOnly_declareItem (hitems i (List.mem_of_mem_filter hi))
  unfold declareBitField
  cases hgiven : b.header.givenName? with
  | none => exact hrest _
  | some name =>
    have hname := (isText_of_filled? (fun v hv => (ht.header.name v hv).isText) hgiven)
    refine (failsOnly_written fun _ => isWritable_of_isText hname).bind fun _ _ => ?_
    exact (failsOnly_writable fun _ => hbits).bind fun _ _ => hrest _

/-! ## Trees -/

namespace Field

/-- A node of a placed tree whose numbers can be written if they are short. -/
structure Declarable (short : Prop) (f : Field) : Prop where
  typed : f.OwnTyped
  width : f.OwnWidthWhole
  bytes : short → ∀ b, f = blob b → b.bytes.isWritable = true
  items : ∀ b, f = bitfield b → ∀ i ∈ b.items, i.Declarable short

/-- The declarations for a member can fail as foreseen. -/
def DeclaredAsForeseen (short : Prop) (o : DeclarationOptions) (f : Field) : Prop :=
  ∀ struct n, FailsOnly (Foreseen short) (declareField o struct n f)

theorem failsOnly_declareFields {struct : Text} {n : UnnamedMembers} {fs : List Field}
    (htyped : ∀ f ∈ fs, f.OwnTyped) (h : ∀ f ∈ fs, f.DeclaredAsForeseen short o) :
    FailsOnly (Foreseen short) (declareFields o struct n fs) := by
  induction fs generalizing n with
  | nil => exact .ok
  | cons f fs ih =>
    obtain ⟨hf, hfs⟩ := List.forall_mem_cons.1 h
    obtain ⟨hown, hmore⟩ := List.forall_mem_cons.1 htyped
    rw [declareFields]
    refine (failsOnly_docOf hown.header).bind fun _ _ => ?_
    exact (hf struct n).bind fun _ _ => (ih hmore hfs).bind fun _ _ => .pure

theorem declaredAsForeseen {f : Field} (h : ∀ g ∈ f.nodes, g.Declarable short) :
    f.DeclaredAsForeseen short o := by
  induction f using inductionOn with
  | word w =>
    intro struct n
    have hown := (forall_mem_nodes.1 h).1
    obtain ⟨width, hwidth⟩ : ∃ n, w.bits = .int n := hown.width
    rw [declareField]
    exact (failsOnly_declareWord hown.typed hwidth).bind fun _ _ => .pure
  | bitfield b =>
    intro struct n
    have hown := (forall_mem_nodes.1 h).1
    have htyped : b.WellTyped := hown.typed
    obtain ⟨width, hwidth⟩ : ∃ n, b.bits = .int n := hown.width
    have hbits : b.bits.isWritable = true := by
      rw [hwidth]
      exact isWritable_wordWidth (mem_wordWidths_of_isWhole htyped.bits hwidth)
    rw [declareField]
    refine (failsOnly_memberName htyped.header).bind fun _ _ => ?_
    refine (failsOnly_declareBitField htyped hwidth (hown.items b rfl)).bind fun _ _ => ?_
    exact (failsOnly_writable fun _ => hbits).bind fun _ _ => .pure
  | blob b =>
    intro struct n
    have hown := (forall_mem_nodes.1 h).1
    rw [declareField]
    exact (failsOnly_declareBlob hown.typed fun hs => hown.bytes hs b rfl).bind fun _ _ => .pure
  | struct header fields ih =>
    intro struct n
    rw [declareField]
    exact .error (foreseen_ofNode fun _ => List.forall_mem_nil _)
  | union header members ih =>
    intro struct n
    obtain ⟨hown, hbelow⟩ := forall_mem_nodes.1 h
    have htyped : header.WellTyped := hown.typed
    rw [declareField]
    refine (failsOnly_declareFields (fun f hf => (forall_mem_nodes.1 (hbelow f hf)).1.typed)
      fun f hf => ih f hf (hbelow f hf)).bind fun _ _ => ?_
    refine FailsOnly.bind (.optionMapM fun name hname => ?_) fun _ _ => .pure
    exact failsOnly_written fun _ => isWritable_of_isText (htyped.name name hname).isText
  | stray i => exact ((forall_mem_nodes.1 h).1.typed).elim

/-- **The declarations for a placed tree fail as foreseen.** -/
theorem failsOnly_declarations_of_nodes {root : Field} (hplaced : root.isPlaced = true)
    (h : ∀ g ∈ root.nodes, g.Declarable short) :
    FailsOnly (Foreseen short) (root.declarations o) := by
  obtain ⟨hown, hbelow⟩ := forall_mem_nodes.1 h
  cases root with
  | struct header fields =>
    have htyped : header.WellTyped := hown.typed
    rw [declarations]
    cases hgiven : header.givenName? with
    | none => exact .throw (foreseen_ofCause fun _ => List.forall_mem_nil _)
    | some name =>
      have hname := isText_of_filled? (fun v hv => (htyped.name v hv).isText) hgiven
      refine .refuse (fun hnot => absurd hplaced (by simpa using hnot)) fun _ => ?_
      refine (failsOnly_written fun _ => isWritable_of_isText hname).bind fun _ _ => ?_
      refine (failsOnly_declareFields (fun f hf => (forall_mem_nodes.1 (hbelow f hf)).1.typed)
        fun f hf => declaredAsForeseen (hbelow f hf)).bind fun _ _ => .pure
  | _ =>
    rw [declarations]
    · exact .throw (foreseen_ofCause fun _ => List.forall_mem_nil _)
    · simp

/-! ## Trees that were placed -/

variable {raw root : Field}

/-- What is known of a node before its items are placed. -/
structure Sizable (short : Prop) (f : Field) : Prop where
  typed : f.OwnTyped
  size : f.OwnSizeWhole
  parts : short → ∀ v ∈ f.ownParts, v.isWritable = true
  bytes : short → ∀ b, f = blob b → b.bytes.isWritable = true

theorem OwnSizeWhole.located {f : Field} (h : f.OwnSizeWhole) (path : Path) (index : Nat)
    (start : Int) : (f.located path index start).OwnSizeWhole := by
  cases f with
  | bitfield b =>
    obtain ⟨hbits, hitems⟩ := h
    refine ⟨hbits, fun p hp => ?_⟩
    obtain ⟨i, hi, _, _, rfl⟩ := exists_of_mem_locatedItems hp
    exact hitems i hi
  | _ => exact h

theorem Sizable.located {f : Field} (h : f.Sizable short) (path : Path) (index : Nat)
    (start : Int) : (f.located path index start).Sizable short := by
  refine ⟨h.typed.located path index start, h.size.located path index start, ?_, ?_⟩
  · rw [ownParts_located]
    exact h.parts
  · intro hs b heq
    cases f with
    | blob b' =>
      obtain rfl := blob.inj heq
      exact h.bytes hs b' rfl
    | _ => cases heq

theorem sizable_of_wellTyped {f : Field} (ht : f.WellTyped) (hsizes : f.SizesWhole)
    (hparts : f.PartsShort short) (hlimit : short → (Value.int f.extent).isWritable = true) :
    ∀ g ∈ f.nodes, g.Sizable short := by
  intro g hg
  refine ⟨ht g hg, hsizes g hg, fun hs => hparts hs g hg, ?_⟩
  rintro hs b rfl
  obtain ⟨n, hn⟩ : ∃ n, b.bytes = .int n := hsizes _ hg
  have hbelow := ownBits_lt_extent ht hg
  have hnonneg := ownBits_nonneg (ht _ hg)
  rw [ownBits, hn, Value.whole_int] at hbelow hnonneg
  rw [hn]
  exact isWritable_upTo (by omega) (by omega) (hlimit hs)

/-- **The nodes of a tree that was placed can be declared.** -/
theorem declarable_of_resolve (hsizable : ∀ g ∈ raw.nodes, g.Sizable short)
    (hsizes : raw.SizesWhole) (h : raw.resolve = .ok root) :
    ∀ g ∈ root.nodes, g.Declarable short := by
  intro g hg
  obtain ⟨path, index, hplaced⟩ := (resolve_eq_ok h).1.node_of_mem g hg
  obtain ⟨-, -, rfl⟩ := (resolve_eq_ok_iff hsizes).1 h
  have hnode : g.Sizable short :=
    forall_mem_nodes_located (fun _ hg path index start => hg.located path index start) hsizable
      [] 0 0 g hg
  refine ⟨hnode.typed, ?_, hnode.bytes, ?_⟩
  · have hsize := hnode.size
    cases g with
    | word w => exact hsize
    | bitfield b => exact hsize.1
    | _ => trivial
  · rintro b rfl i hi
    have htyped : b.WellTyped := hnode.typed
    obtain ⟨path, index, hitem⟩ := hplaced.item hi
    refine ⟨htyped.items i hi, hnode.size.2 i hi, fun hs v hv => ?_, ?_, ?_⟩
    · exact hnode.parts hs v (List.mem_append_right _ (List.mem_flatMap.2 ⟨i, hi, hv⟩))
    · rw [hitem.header.fullName]
      rfl
    · exact hitem.bitIndices_ne_nil

/-- **The declarations for a tree that was placed fail as foreseen.** -/
theorem failsOnly_declarations (hsizable : ∀ g ∈ raw.nodes, g.Sizable short)
    (hsizes : raw.SizesWhole) (h : raw.resolve = .ok root) :
    FailsOnly (Foreseen short) (root.declarations o) := by
  refine failsOnly_declarations_of_nodes ?_ (declarable_of_resolve hsizable hsizes h)
  obtain ⟨-, -, rfl⟩ := (resolve_eq_ok_iff hsizes).1 h
  rw [isPlaced, header_located]
  rfl

end Field

end RegisterLayout
