import RegisterLayout.Proofs.Acceptance
import RegisterLayout.Proofs.Label
import RegisterLayout.Proofs.NodeFailures

/-!
# Fields behind others

What is placed and what is drawn of a field depends on the fields before it alone.  A struct that
is accepted is accepted without its last fields too, and those that are left are placed and drawn
as before.  A struct that is refused is refused for the same reason with more fields behind, unless
two of its names are one: a field behind can be at fault before names are compared.

Principal definition: `Canvas.Extends`.
Principal results: `Field.placeFields_append`, `Canvas.extends_of_drawFields`,
`Field.resolve_append`.
-/

namespace RegisterLayout

/-! ## Sizes and names -/

namespace Field

theorem sumSizes_append (total : Value) (fs gs : List Field) :
    sumSizes total (fs ++ gs) = sumSizes total fs >>= fun sum => sumSizes sum gs := by
  induction fs generalizing total with
  | nil => rfl
  | cons f fs ih => simp only [List.cons_append, sumSizes, ih, bind_assoc]

theorem introducedAll_append (fs gs : List Field) :
    introducedAll (fs ++ gs) = introducedAll fs ++ introducedAll gs := by
  induction fs with
  | nil => rfl
  | cons f fs ih => rw [List.cons_append, introducedAll, introducedAll, ih, List.append_assoc]

end Field

/-- Names are compared with those before them alone. -/
theorem checkIntroduced_append (seen : List (Option Text)) (xs ys : List Introduced) :
    checkIntroduced seen (xs ++ ys) = checkIntroduced seen xs >>= fun _ =>
      checkIntroduced ((xs.map Introduced.text).reverse ++ seen) ys := by
  induction xs generalizing seen with
  | nil => rfl
  | cons x xs ih =>
    rw [List.cons_append, checkIntroduced, checkIntroduced]
    by_cases hwritable : (!x.isWritable) = true
    · rw [if_pos hwritable, if_pos hwritable]
      rfl
    · rw [if_neg hwritable, if_neg hwritable]
      by_cases hseen : x.text ∈ seen
      · rw [if_pos hseen, if_pos hseen]
        rfl
      · rw [if_neg hseen, if_neg hseen, ih, List.map_cons, List.reverse_cons, List.append_assoc]
        rfl

/-! ## Placing -/

namespace Field

section

variable {h : Header} {fs gs : List Field} {parent : Text} {path : Path} {index : Nat}
  {start : Number}

/-- **Fields are placed behind those before them**, as if these were all there is. -/
theorem placeFields_append :
    placeFields parent path index start (fs ++ gs) = (do
      let before ← placeFields parent path index start fs
      let after ← placeFields parent path (index + fs.length) before.2 gs
      return (before.1 ++ after.1, after.2)) := by
  induction fs generalizing index start with
  | nil =>
    rw [List.nil_append, placeFields, ok_bind]
    exact (bind_pure _).symm
  | cons f fs ih =>
    rw [List.cons_append, placeFields, placeFields]
    cases fieldFault? index start f with
    | some cause => rfl
    | none =>
      simp only [ih, bind_assoc, pure_bind, List.length_cons, List.cons_append,
        Nat.add_comm fs.length 1, Nat.add_assoc]

theorem length_of_placeFields {r : List Field × Number}
    (h : placeFields parent path index start fs = .ok r) : r.1.length = fs.length := by
  induction fs generalizing index start r with
  | nil =>
    rw [placeFields, Except.ok.injEq] at h
    subst h
    rfl
  | cons f fs ih =>
    obtain ⟨-, first, -, rest, hrest, rfl⟩ := placeFields_cons_eq_ok_iff.1 h
    rw [List.length_cons, List.length_cons, ih hrest]

/-- The steps in which a struct is resolved. -/
theorem resolve_struct :
    (struct h fs).resolve = (do
      (struct h []).checkRootOffset
      let named ← nodeName h [] 0
      let placed ← placeFields named.1 named.2 0 0 fs
      let _ ← sumSizes 0 placed.1
      checkUniqueNames (struct (h.placedAt named.1 0) placed.1)
      return struct (h.placedAt named.1 0) placed.1) := by
  simp only [resolve, place, bind_assoc, pure_bind]
  rfl

end

end Field

/-! ## Drawing -/

/-- A canvas that holds all that another one holds, and what was drawn after. -/
structure Canvas.Extends (c c' : Canvas) : Prop where
  cells : c.cells <+: c'.cells
  legend : c.legend <+: c'.legend

namespace Canvas

namespace Extends

theorem refl (c : Canvas) : Extends c c := ⟨List.prefix_refl _, List.prefix_refl _⟩

theorem trans {c₁ c₂ c₃ : Canvas} (h : Extends c₁ c₂) (h' : Extends c₂ c₃) : Extends c₁ c₃ :=
  ⟨h.cells.trans h'.cells, h.legend.trans h'.legend⟩

/-- Names, labels and the bit that is reached are no part of what was drawn. -/
theorem of_eq {c c' : Canvas} (hcells : c'.cells = c.cells) (hlegend : c'.legend = c.legend) :
    Extends c c' :=
  ⟨hcells ▸ List.prefix_refl _, hlegend ▸ List.prefix_refl _⟩

end Extends

variable {c c' : Canvas}

theorem extends_addCell (c : Canvas) (cell : Cell) : c.Extends (c.addCell cell) :=
  ⟨List.prefix_append _ _, List.prefix_refl _⟩

theorem extends_addLegend (c : Canvas) (line : LegendLine) : c.Extends (c.addLegend line) :=
  ⟨List.prefix_refl _, List.prefix_append _ _⟩

theorem extends_nameField (c : Canvas) (h : Header) : c.Extends (c.nameField h).2 := by
  unfold nameField
  split
  · exact .refl c
  · exact .of_eq rfl rfl

theorem extends_nameBitField (c : Canvas) (h : Header) : c.Extends (c.nameBitField h).2 := by
  unfold nameBitField
  split
  · exact .refl c
  · exact .of_eq rfl rfl

theorem extends_of_chooseLabel {h : Header} {bits : Number} {r : Text × Value × Canvas}
    (hr : c.chooseLabel h bits = .ok r) : c.Extends r.2.2 := by
  simp only [chooseLabel, bind_eq_ok_iff, pure_eq_ok_iff] at hr
  obtain ⟨label, -, rfl⟩ := hr
  exact (c.extends_nameField h).trans (.of_eq rfl rfl)

theorem extends_of_advance {bits : Number} (h : c.advance bits = .ok c') : c.Extends c' := by
  simp only [advance, bind_eq_ok_iff, pure_eq_ok_iff] at h
  obtain ⟨stop, -, rfl⟩ := h
  exact .of_eq rfl rfl

theorem extends_of_drawOver {label : Text} {bits : Number} {finish : Text → Except Failure Cell}
    (h : c.drawOver label bits finish = .ok c') : c.Extends c' := by
  unfold drawOver at h
  split at h
  · cases h
  · rename_i moved hmoved
    split at h
    · rename_i cell _
      obtain rfl := Except.ok.inj h
      exact (extends_of_advance hmoved).trans (moved.extends_addCell cell)
    · cases h

theorem extends_of_pushCell {label : Text} {fullName : Option Text} {bits : Number}
    (h : c.pushCell label fullName bits = .ok c') : c.Extends c' := by
  unfold pushCell at h
  dsimp only at h
  split at h
  · split at h
    · exact extends_of_drawOver h
    all_goals cases h
  · split at h
    · cases h
    · split at h
      · cases h
      · split at h
        · exact extends_of_drawOver h
        · split at h <;> cases h

theorem extends_of_drawItem {wordBits : Number} {i : Item} (h : c.drawItem wordBits i = .ok c') :
    c.Extends c' := by
  simp only [drawItem, bind_eq_ok_iff, pure_eq_ok_iff] at h
  obtain ⟨bits, -, chosen, hchosen, moved, hmoved, row, -, shown, -, rfl⟩ := h
  exact (((extends_of_chooseLabel hchosen).trans (extends_of_advance hmoved)).trans
    (extends_addCell _ _)).trans (extends_addLegend _ _)

theorem extends_of_drawCell {h : Header} {size : Value} {enumeration : Option Enumeration}
    {typedef : Option Value} (hc : c.drawCell h size enumeration typedef = .ok c') :
    c.Extends c' := by
  simp only [drawCell, bind_eq_ok_iff] at hc
  obtain ⟨bits, -, chosen, hchosen, shown, -, hc⟩ := hc
  split at hc
  · rename_i drawn hdrawn
    obtain rfl := pure_eq_ok_iff.1 hc
    exact ((extends_of_chooseLabel hchosen).trans (extends_addLegend _ _)).trans
      (extends_of_pushCell hdrawn)
  · exact absurd hc throw_ne_ok

theorem extends_of_foldlM {α : Type} {draw : Canvas → α → Except Failure Canvas}
    (hdraw : ∀ c x c', draw c x = .ok c' → c.Extends c') {xs : List α}
    (h : xs.foldlM draw c = .ok c') : c.Extends c' := by
  induction xs generalizing c with
  | nil =>
    obtain rfl := pure_eq_ok_iff.1 h
    exact .refl c'
  | cons x xs ih =>
    rw [List.foldlM_cons, bind_eq_ok_iff] at h
    obtain ⟨next, hnext, h⟩ := h
    exact (hdraw c x next hnext).trans (ih h)

theorem extends_of_drawBitField {b : BitField} (h : c.drawBitField b = .ok c') :
    c.Extends c' := by
  simp only [drawBitField, bind_eq_ok_iff, refuse_eq_ok_iff] at h
  obtain ⟨bits, -, -, stays, -, h⟩ := h
  split at h
  · obtain ⟨stop, -, h⟩ := bind_eq_ok_iff.1 h
    exact absurd h throw_ne_ok
  · obtain ⟨shown, -, h⟩ := bind_eq_ok_iff.1 h
    exact ((c.extends_nameBitField b.header).trans (extends_addLegend _ _)).trans
      (extends_of_foldlM (fun _ _ _ => extends_of_drawItem) h)

theorem extends_of_drawWord {w : Word} (h : c.drawWord w = .ok c') : c.Extends c' := by
  simp only [drawWord, bind_eq_ok_iff, refuse_eq_ok_iff] at h
  obtain ⟨bits, -, -, h⟩ := h
  exact extends_of_drawCell h

theorem extends_of_drawWhole {f : Field} (h : c.drawWhole f = .ok c') : c.Extends c' := by
  simp only [drawWhole, bind_eq_ok_iff] at h
  obtain ⟨size, -, h⟩ := h
  exact extends_of_drawCell h

theorem extends_of_drawField {f : Field} (h : c.drawField f = .ok c') : c.Extends c' := by
  induction f using Field.inductionOn generalizing c c' with
  | word w => exact extends_of_drawWord h
  | bitfield b => exact extends_of_drawBitField h
  | blob b => exact extends_of_drawWhole h
  | struct header fields ih =>
    rw [drawField] at h
    induction fields generalizing c with
    | nil =>
      obtain rfl := Except.ok.inj h
      exact .refl _
    | cons f fs ihs =>
      obtain ⟨hf, hfs⟩ := List.forall_mem_cons.1 ih
      rw [drawFields, bind_eq_ok_iff] at h
      obtain ⟨next, hnext, h⟩ := h
      exact (hf hnext).trans (ihs hfs h)
  | union header members ih => exact extends_of_drawWhole h
  | stray i => cases h

theorem drawFields_append (c : Canvas) (fs gs : List Field) :
    c.drawFields (fs ++ gs) = c.drawFields fs >>= fun c => c.drawFields gs := by
  induction fs generalizing c with
  | nil => rfl
  | cons f fs ih => simp only [List.cons_append, drawFields, ih, bind_assoc]

/-- **Drawing adds to a canvas.** -/
theorem extends_of_drawFields {fs : List Field} (h : c.drawFields fs = .ok c') : c.Extends c' := by
  have hstruct : c.drawField (.struct {} fs) = .ok c' := by rw [drawField, h]
  exact extends_of_drawField hstruct

end Canvas

namespace Field

/-- A struct without its last fields has the first cells and lines of its diagram. -/
theorem diagram_of_append {h : Header} {fs gs : List Field} {d : Diagram}
    (hd : (struct h (fs ++ gs)).diagram = .ok d) :
    ∃ d', (struct h fs).diagram = .ok d' ∧ d'.cells <+: d.cells ∧ d'.legend <+: d.legend := by
  simp only [diagram, refuse_eq_ok_iff, Canvas.drawField, Canvas.drawFields_append, bind_assoc,
    bind_eq_ok_iff, pure_eq_ok_iff] at hd ⊢
  obtain ⟨hplaced, c, hc, c', hc', title, htitle, rfl⟩ := hd
  have hextends := Canvas.extends_of_drawFields hc'
  exact ⟨_, ⟨hplaced, c, hc, title, htitle, rfl⟩, hextends.cells, hextends.legend⟩

/-! ## Failures behind the placing of the fields -/

theorem failsOnly_number (v : Value) : FailsOnly (¬·.IsLayout) v.number := by
  unfold Value.number
  split
  · exact .ok
  · exact .error nofun

theorem failsOnly_plus (m n : Number) : FailsOnly (¬·.IsLayout) (m.plus n) := by
  unfold Number.plus
  cases m.add? n with
  | some sum => exact .ok
  | none => exact .error nofun

theorem failsOnly_addSize (v w : Value) : FailsOnly (¬·.IsLayout) (v.addSize w) :=
  (failsOnly_number v).bind fun _ _ => (failsOnly_number w).bind fun _ _ =>
    (failsOnly_plus _ _).bind fun _ _ => .pure

theorem failsOnly_maxSize (v w : Value) : FailsOnly (¬·.IsLayout) (v.maxSize w) :=
  (failsOnly_number v).bind fun _ _ => (failsOnly_number w).bind fun _ _ => .pure

theorem failsOnly_sumSizes {fs : List Field} (h : ∀ f ∈ fs, FailsOnly (¬·.IsLayout) f.sizeBits)
    (total : Value) : FailsOnly (¬·.IsLayout) (sumSizes total fs) := by
  induction fs generalizing total with
  | nil => exact .ok
  | cons f fs ih =>
    obtain ⟨hf, hfs⟩ := List.forall_mem_cons.1 h
    exact hf.bind fun _ _ => (failsOnly_addSize _ _).bind fun _ _ => ih hfs _

theorem failsOnly_maxSizes {fs : List Field} (h : ∀ f ∈ fs, FailsOnly (¬·.IsLayout) f.sizeBits)
    (largest : Value) : FailsOnly (¬·.IsLayout) (maxSizes largest fs) := by
  induction fs generalizing largest with
  | nil => exact .ok
  | cons f fs ih =>
    obtain ⟨hf, hfs⟩ := List.forall_mem_cons.1 h
    exact hf.bind fun _ _ => (failsOnly_maxSize _ _).bind fun _ _ => ih hfs _

/-- A size that cannot be told is no error of the layout. -/
theorem failsOnly_sizeBits (f : Field) : FailsOnly (¬·.IsLayout) f.sizeBits := by
  induction f using inductionOn with
  | word w => exact .ok
  | bitfield b => exact .ok
  | blob b => exact (failsOnly_number _).bind fun _ _ => .pure
  | struct header fields ih => exact failsOnly_sumSizes ih 0
  | union header members ih =>
    cases members with
    | nil => exact .ok
    | cons f fs =>
      obtain ⟨hf, hfs⟩ := List.forall_mem_cons.1 ih
      exact hf.bind fun _ _ => failsOnly_maxSizes hfs _
  | stray i => exact .ok

end Field

theorem atNode_eq_layout {v : Value} {cause : Cause} (hv : v.isWritable = true)
    (hcause : cause.isWritable = true) : Failure.atNode v cause = .layout ⟨v, cause⟩ := by
  rw [Failure.atNode, hv, hcause]
  rfl

theorem hasKind_clash {x : Introduced} (hx : x.isWritable = true) :
    x.clash.HasKind .duplicateName := by
  have hname (fullName : Option Text) :
      ((fullName.map Value.str).getD .null).isWritable = true := by
    cases fullName <;> rfl
  cases x with
  | node fullName => exact ⟨_, atNode_eq_layout (hname fullName) rfl, rfl⟩
  | constant fullName key =>
    refine ⟨_, atNode_eq_layout (hname fullName) ?_, rfl⟩
    have hkey : key.isWritable = true := hx
    simp [Cause.isWritable, Cause.values, hkey]

/-- Names are refused for being there twice, or for a key that has no text. -/
theorem failsOnly_checkIntroduced_duplicate (seen : List (Option Text)) (xs : List Introduced) :
    FailsOnly (fun e => e.HasKind .duplicateName ∨
      e = .longNumber ∧ ∃ x ∈ xs, ¬x.isWritable) (checkIntroduced seen xs) := by
  induction xs generalizing seen with
  | nil => exact .ok
  | cons x xs ih =>
    rw [checkIntroduced]
    by_cases hx : x.isWritable = true
    · rw [hx, if_neg (by decide)]
      split
      · exact .error (.inl (hasKind_clash hx))
      · refine fun e he => (ih _ e he).imp_right ?_
        rintro ⟨hlong, y, hy, hkey⟩
        exact ⟨hlong, y, List.mem_cons_of_mem _ hy, hkey⟩
    · rw [Bool.eq_false_of_not_eq_true hx, if_pos (by decide)]
      exact .error (.inr ⟨rfl, x, List.mem_cons_self, hx⟩)

/-! ## Whole trees -/

namespace Field

section

variable {h : Header} {fs gs : List Field}

theorem resolve_of_append {root : Field} (hroot : (struct h (fs ++ gs)).resolve = .ok root) :
    ∃ k before after, root = struct k (before ++ after) ∧ before.length = fs.length ∧
      after.length = gs.length ∧ (struct h fs).resolve = .ok (struct k before) := by
  simp only [resolve_struct, placeFields_append, bind_assoc, pure_bind, sumSizes_append,
    checkUniqueNames_eq, introduced, introducedAll_append, ← List.cons_append,
    checkIntroduced_append] at hroot ⊢
  simp only [bind_eq_ok_iff, pure_eq_ok_iff] at hroot ⊢
  obtain ⟨u, hoffset, named, hnamed, before, hbefore, after, hafter, sum, hsum, -, -, v, hunique,
    -, -, rfl⟩ := hroot
  exact ⟨_, before.1, after.1, rfl, length_of_placeFields hbefore, length_of_placeFields hafter, u,
    hoffset, named, hnamed, before, hbefore, sum, hsum, v, hunique, rfl⟩

/-- The sizes of placed fields can be added up, and their keys have texts, if those of the fields
do. -/
theorem sizable_writable_of_placeFields {fields : List Field × Number} {parent : Text}
    {path : Path} (hsizes : (struct h fs).SizesWhole) (hkeys : (struct h fs).KeysAreTexts)
    (hfields : placeFields parent path 0 0 fs = .ok fields) :
    (∃ total, sumSizes 0 fields.1 = .ok total) ∧
      ∀ x ∈ introducedAll fields.1, x.isWritable := by
  have hwhole : ∀ f ∈ fs, f.SizesWhole := fun f hf => hsizes.child hf
  obtain ⟨-, rfl⟩ := (placeFields_eq_ok_iff fun f hf => place_eq_ok_iff (hwhole f hf)).1 hfields
  constructor
  · rw [sumSizes_congr (forall₂_locatedFields fun f _ _ _ => sizeBits_located f _ _ _)]
    exact ⟨_, sumSizes_eq (fun f hf => sizeBits_eq (hwhole f hf)) 0⟩
  · intro x hx
    obtain ⟨f, hf, hx⟩ := mem_introducedAll.1 hx
    obtain ⟨k, hk⟩ := List.mem_iff_getElem?.1 hf
    rw [getElem?_locatedFields, Option.map_eq_some_iff] at hk
    obtain ⟨g, hg, rfl⟩ := hk
    exact isWritable_located (hkeys.child (List.mem_of_getElem? hg)) _ _ _ x hx

/-- A failure stays what it is with more fields behind, unless it is of two names that are one. -/
theorem resolve_append_eq_error {e : Failure} (he : (struct h fs).resolve = .error e)
    (hkind : ¬e.HasKind .duplicateName)
    (hsort : e.IsLayout ∨ (struct h fs).SizesWhole ∧ (struct h fs).KeysAreTexts) :
    (struct h (fs ++ gs)).resolve = .error e := by
  simp only [resolve_struct, placeFields_append, bind_assoc, pure_bind] at he ⊢
  rcases bind_eq_error_iff.1 he with hoffset | ⟨u, hoffset, he⟩
  · rw [hoffset, error_bind]
  rw [hoffset, ok_bind]
  rcases bind_eq_error_iff.1 he with hnamed | ⟨named, hnamed, he⟩
  · rw [hnamed, error_bind]
  rw [hnamed, ok_bind]
  rcases bind_eq_error_iff.1 he with hfields | ⟨fields, hfields, he⟩
  · rw [hfields, error_bind]
  exfalso
  rcases bind_eq_error_iff.1 he with hsum | ⟨total, -, he⟩
  · rcases hsort with hlayout | ⟨hsizes, hkeys⟩
    · exact failsOnly_sumSizes (fun f _ => failsOnly_sizeBits f) 0 e hsum hlayout
    · obtain ⟨⟨total, htotal⟩, -⟩ := sizable_writable_of_placeFields hsizes hkeys hfields
      cases htotal.symm.trans hsum
  rcases bind_eq_error_iff.1 he with hunique | ⟨-, -, he⟩
  · rw [checkUniqueNames_eq] at hunique
    rcases failsOnly_checkIntroduced_duplicate _ _ e hunique with hdup | ⟨rfl, x, hx, hkey⟩
    · exact hkind hdup
    · rcases hsort with ⟨l, hl⟩ | ⟨hsizes, hkeys⟩
      · cases hl
      · obtain ⟨-, hwritable⟩ := sizable_writable_of_placeFields hsizes hkeys hfields
        rcases List.mem_cons.1 hx with rfl | hx
        · exact hkey rfl
        · exact hkey (hwritable x hx)
  · cases he

/-- **Fields behind others leave them as they are.**  If a struct is accepted, so is the struct of
its first fields, which are placed as before, and what is drawn of them is the beginning of what is
drawn of all.  If the struct of its first fields is refused for anything but two names that are
one, the struct is refused with the same error. -/
theorem resolve_append :
    ∀ (h : Header) (fs gs : List Field),
      (∀ root, (struct h (fs ++ gs)).resolve = .ok root →
        ∃ k before after, root = struct k (before ++ after) ∧ before.length = fs.length ∧
          after.length = gs.length ∧ (struct h fs).resolve = .ok (struct k before) ∧
          ∀ d, root.diagram = .ok d → ∃ d', (struct k before).diagram = .ok d' ∧
            d'.cells <+: d.cells ∧ d'.legend <+: d.legend) ∧
      ∀ e, (struct h fs).resolve = .error e → ¬e.HasKind .duplicateName →
        e.IsLayout ∨ (struct h fs).SizesWhole ∧ (struct h fs).KeysAreTexts →
        (struct h (fs ++ gs)).resolve = .error e := by
  intro h fs gs
  refine ⟨fun root hroot => ?_, fun e he hkind hsort => resolve_append_eq_error he hkind hsort⟩
  obtain ⟨k, before, after, rfl, hbefore, hafter, hresolve⟩ := resolve_of_append hroot
  exact ⟨k, before, after, rfl, hbefore, hafter, hresolve, fun d hd => diagram_of_append hd⟩

end

/-- A byte for the mode of a port. -/
def modeField : Field := word { header := { name := some (.str "mode") }, bits := 8 }

/-- A byte without a name. -/
def spareField : Field := word { bits := 8 }

/-- A byte without a name that is to be signed. -/
def signedSpareField : Field := word { bits := 8, signed := some (.bool true) }

/-- A struct of some fields with a name. -/
def port (fields : List Field) : Field := struct { name := some (.str "port") } fields

theorem resolve_append_modeField :
    (∃ root d, (port ([modeField] ++ [spareField])).resolve = .ok root ∧ root.diagram = .ok d ∧
      ∃ k before, (port [modeField]).resolve = .ok (struct k before) ∧
        ∃ d', (struct k before).diagram = .ok d' ∧ d'.cells <+: d.cells ∧
          d'.legend <+: d.legend) ∧
      ∃ e, (port [signedSpareField]).resolve = .error e ∧ ¬e.HasKind .duplicateName ∧ e.IsLayout ∧
        (port ([signedSpareField] ++ [modeField])).resolve = .error e := by
  constructor
  · have hresolve : (port ([modeField] ++ [spareField])).resolve
        = .ok ((port ([modeField] ++ [spareField])).located [] 0 0) := rfl
    have hdrawn : ((port ([modeField] ++ [spareField])).located [] 0 0).diagram.isOk = true := by
      decide +kernel
    obtain ⟨d, hd⟩ := exists_of_isOk hdrawn
    obtain ⟨k, before, after, -, -, -, hbefore, hdiagram⟩ :=
      (resolve_append _ _ _).1 _ hresolve
    exact ⟨_, d, hresolve, hd, k, before, hbefore, hdiagram d hd⟩
  · have hresolve : (port [signedSpareField]).resolve
        = .error (.layout ⟨.str "port_f0", .signedUnused⟩) := rfl
    have hkind : ¬Failure.HasKind (.layout ⟨.str "port_f0", .signedUnused⟩)
        .duplicateName := by
      rintro ⟨l, hl, hkind⟩
      obtain rfl := Failure.layout.inj hl
      cases hkind
    exact ⟨_, hresolve, hkind, ⟨_, rfl⟩,
      (resolve_append _ _ [modeField]).2 _ hresolve hkind (.inl ⟨_, rfl⟩)⟩

end Field

end RegisterLayout
