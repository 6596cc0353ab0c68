import RegisterLayout.Proofs.Misfit

/-!
# Diagrams follow the placement

The bit at which a diagram has arrived is counted by the drawing alone, and the byte offset of a
field by the placement of its tree.  In an accepted tree the two agree wherever the drawing comes
to: the next field starts at the bit of its byte offset, and the next item above its bits in the
word.  What a diagram can fail for is known from the placement.

Principal definitions: `Field.ComesTo`, `Field.DrawnAsPlaced`.
Principal results: `bitOffset_of_foldlM`, `Field.diagram_hasKind_iff`,
`Field.drawnAsPlaced_of_resolve`.
-/

namespace RegisterLayout

open Entry (Consecutive)

/-- **A drawing arrives at the bit at which the entries that were drawn end.** -/
theorem bitOffset_of_foldlM {es : List Entry} {stop : Int} {c : Canvas}
    (hes : Consecutive 0 es stop) (h : es.foldlM Canvas.drawEntry {} = .ok c) :
    c.bitOffset = .int stop := by
  obtain ⟨ds, -, rfl, rfl⟩ := inOrder_of_foldlM hes h
  exact canvasOf_bitOffset hes

theorem Canvas.labelFor_of_own {c : Canvas} {e : Entry} (hcell : e.hasCell = true)
    (hown : IsOwnLabel (c.nameFor e) (cellLetters e.width) c.taken) :
    c.labelFor e = .ok (some (c.nameFor e)) := by
  rw [labelFor, if_pos hcell, findLabel_of_own hown, ok_bind]

namespace Field

/-! ## The fields of a struct -/

section

variable {path : Path} {start : Int} {fields : List Field}

theorem take_locatedFields (index k : Nat) :
    (locatedFields path index start fields).take k
      = locatedFields path index start (fields.take k) := by
  induction fields generalizing index start k with
  | nil => simp [locatedFields]
  | cons f fs ih =>
    cases k with
    | zero => rfl
    | succ k => rw [locatedFields, List.take_succ_cons, ih, List.take_succ_cons, locatedFields]

theorem forall_mem_fieldSpots_take {P : Spot → Prop} (h : ∀ s ∈ fieldSpots start fields, P s)
    (k : Nat) : ∀ s ∈ fieldSpots start (fields.take k), P s := by
  induction fields generalizing start k with
  | nil => simpa using h
  | cons f fs ih =>
    cases k with
    | zero => exact fun _ hs => nomatch hs
    | succ k =>
      obtain ⟨hf, hbelow, hfs⟩ := forall_mem_fieldSpots_cons.1 h
      exact forall_mem_fieldSpots_cons.2 ⟨hf, hbelow, ih hfs k⟩

/-- The entries of the fields before one of them end where this one stands. -/
theorem consecutive_before {header : Header} (h : (struct header fields).Placeable start)
    (hf : (struct header fields).SizesWhole) (path : Path) (k : Nat) :
    Consecutive (8 * start) (entriesOf ((locatedFields path 0 start fields).take k))
      (8 * (start + bytesBefore fields k)) := by
  rw [take_locatedFields]
  refine consecutive_locatedFields (forall_mem_fieldSpots_take h.below k) ?_
  intro f hm path index start hplaceable
  exact consecutive_located hplaceable (hf.child (List.mem_of_mem_take hm)) path index

end

theorem eq_of_singleton_eq_append {f g : Field} {before after : List Field}
    (h : [g] = before ++ f :: after) : before = [] ∧ f = g := by
  cases before with
  | nil => exact ⟨rfl, (List.cons.inj h).1.symm⟩
  | cons b before => simp at h

/-! ## The diagram of an accepted tree -/

/-- Drawing a tree comes to an entry on a canvas. -/
def ComesTo (root : Field) (c : Canvas) (e : Entry) : Prop :=
  ∃ before after, root.entries = before ++ e :: after ∧
    before.foldlM Canvas.drawEntry {} = .ok c

/-- What a diagram owes to the placement of its tree. -/
structure DrawnAsPlaced (root : Field) : Prop where
  /-- The drawing comes to a field of the root at the bit of its byte offset. -/
  fields : ∀ header before f after c, root.asStruct = struct header (before ++ f :: after) →
    Canvas.drawFields {} before = .ok c → c.bitOffset = .int (8 * f.header.byteOffset)
  /-- The drawing comes to an item at its highest bit, the highest of the word first. -/
  items : ∀ b i c, root.ComesTo c (.item b i) →
    c.bitOffset = .int (8 * i.header.byteOffset + (b.bits.whole - 1 - i.high))
  words : ∀ w c e, root.ComesTo c (.cell (word w)) → c.drawEntry (.cell (word w)) = .error e →
    e.HasKind .labelsExhausted
  failures : ∀ e, root.diagram = .error e ↔
    (∃ c entry, root.ComesTo c entry ∧ c.drawEntry entry = .error e) ∨
      root.title = .error e ∧ ∃ c, root.entries.foldlM Canvas.drawEntry {} = .ok c
  entryFailures : ∀ c entry e, root.ComesTo c entry → c.drawEntry entry = .error e →
    e.HasKind .labelsExhausted ∨ (∃ kind, entry.Misfit kind ∧ e.HasKind kind) ∨
      e = .longNumber ∧ entry.Overlong
  /-- A diagram is refused for a place exactly when it comes to an entry that has none. -/
  misfits : ∀ kind, kind ≠ .labelsExhausted →
    ((∃ e, root.diagram = .error e ∧ e.HasKind kind) ↔
      ∃ c entry, root.ComesTo c entry ∧ (∃ label, c.labelFor entry = .ok label) ∧
        entry.Misfit kind ∧ ¬entry.Overlong)
  /-- Only a description that is no text is in the way of a title. -/
  titles : ∀ e, root.title = .error e → e = .wrongType ∧
    ∃ desc, filled? root.header.desc = some desc ∧ ∀ s, desc ≠ .str s
  /-- Where every entry has its place, a diagram can but be short of labels. -/
  fitting : (∀ entry ∈ root.entries, (∀ kind, ¬entry.Misfit kind) ∧ ¬entry.Overlong) →
    ∀ e, root.diagram = .error e → e.HasKind .labelsExhausted ∨ root.title = .error e
  total : ∀ d, root.diagram = .ok d → root.sizeBits = .ok (.num d.totalBits)

section

variable {raw root : Field}

theorem ComesTo.bitOffset {stop : Int} (hes : Consecutive 0 root.entries stop) {c : Canvas}
    {e : Entry} (h : root.ComesTo c e) : e.Sound ∧ c.bitOffset = .int e.firstBit := by
  obtain ⟨before, after, heq, hbefore⟩ := h
  rw [heq] at hes
  obtain ⟨middle, hes, hrest⟩ := Consecutive.append_iff.1 hes
  obtain ⟨hsound, hfirst, -⟩ := Consecutive.cons_iff.1 hrest
  exact ⟨hsound, hfirst ▸ bitOffset_of_foldlM hes hbefore⟩

/-- The drawing comes to a field of the root at the bit of its byte offset. -/
theorem bitOffset_of_drawFields (hraw : raw.SizesWhole) (h : raw.resolve = .ok root)
    {header : Header} {before after : List Field} {f : Field} {c : Canvas}
    (hroot : root.asStruct = struct header (before ++ f :: after))
    (hc : Canvas.drawFields {} before = .ok c) :
    c.bitOffset = .int (8 * f.header.byteOffset) := by
  obtain ⟨hplaceable, rfl⟩ := located_of_resolve hraw h
  cases raw with
  | struct header' fields =>
    obtain ⟨-, hfields⟩ := struct.inj hroot
    have hbefore : (locatedFields (header'.pathUnder [] 0) 0 0 fields).take before.length
        = before := by
      rw [hfields, List.take_left]
    have hdraw : (entriesOf before).foldlM Canvas.drawEntry {} = .ok c := by
      rw [← hc]
      exact (Canvas.drawField_eq_foldlM {} (struct header before)).symm
    have hes := consecutive_before hplaceable hraw (header'.pathUnder [] 0) before.length
    rw [hbefore] at hes
    have hplaced : (locatedFields (header'.pathUnder [] 0) 0 0 fields)[before.length]?
        = some f := by
      rw [hfields, List.getElem?_append_right (Nat.le_refl _), Nat.sub_self,
        List.getElem?_cons_zero]
    rw [getElem?_locatedFields] at hplaced
    obtain ⟨g, -, rfl⟩ := Option.map_eq_some_iff.1 hplaced
    rw [bitOffset_of_foldlM hes hdraw, header_located, Header.byteOffset_placedAt]
  | _ =>
    obtain ⟨-, hfields⟩ := struct.inj hroot
    obtain ⟨rfl, rfl⟩ := eq_of_singleton_eq_append hfields
    obtain rfl := Except.ok.inj hc
    rfl

/-- The title is a text unless the description is not. -/
theorem title_error {e : Failure} (ha : root.header.NameAllowed) (h : root.title = .error e) :
    e = .wrongType ∧ ∃ desc, filled? root.header.desc = some desc ∧ ∀ s, desc ≠ .str s := by
  obtain ⟨name, hname⟩ : ∃ name, root.header.givenName?.getD (.str root.fullName) = .str name := by
    cases hgiven : root.header.givenName? with
    | none => exact ⟨_, rfl⟩
    | some v =>
      obtain ⟨s, rfl, -⟩ := ha.name v hgiven
      exact ⟨s, rfl⟩
  rw [title, hname] at h
  cases hdesc : filled? root.header.desc with
  | none =>
    rw [hdesc] at h
    cases h
  | some desc =>
    rw [hdesc] at h
    refine ⟨?_, desc, rfl, ?_⟩
    · cases desc with
      | str s => cases h
      | _ => exact (Except.error.inj h).symm
    · rintro s rfl
      cases h

theorem nameAllowed_of_resolve (hraw : raw.SizesWhole) (h : raw.resolve = .ok root) :
    root.header.NameAllowed := by
  obtain ⟨hplaceable, rfl⟩ := located_of_resolve hraw h
  rw [header_located]
  exact hplaceable.name.placedAt _ _

/-- A diagram fails where the drawing does, and behind it with its title. -/
theorem diagram_eq_error_iff (hplaced : root.isPlaced = true) {e : Failure} :
    root.diagram = .error e ↔
      (∃ c entry, root.ComesTo c entry ∧ c.drawEntry entry = .error e) ∨
        root.title = .error e ∧ ∃ c, root.entries.foldlM Canvas.drawEntry {} = .ok c := by
  have htitle : ∀ c : Canvas,
      (root.title >>= fun t => pure (⟨t, c.cells, c.legend, c.bitOffset⟩ : Diagram)) = .error e ↔
        root.title = .error e := fun c => error_eq_bind_ok_iff
  rw [diagram_eq hplaced, bind_eq_error_iff, foldlM_eq_error_iff]
  simp only [htitle]
  constructor
  · rintro (⟨before, entry, after, c, heq, hbefore, hdraw⟩ | ⟨c, hc, he⟩)
    · exact .inl ⟨c, entry, ⟨before, after, heq, hbefore⟩, hdraw⟩
    · exact .inr ⟨he, c, hc⟩
  · rintro (⟨c, entry, ⟨before, after, heq, hbefore⟩, hdraw⟩ | ⟨he, c, hc⟩)
    · exact .inl ⟨before, entry, after, c, heq, hbefore, hdraw⟩
    · exact .inr ⟨c, hc, he⟩

/-- Of a word, nothing but its label can be missing. -/
theorem ComesTo.word_error {stop : Int} (hes : Consecutive 0 root.entries stop) {c : Canvas}
    {w : Word} {e : Failure} (hc : root.ComesTo c (.cell (word w)))
    (he : c.drawEntry (.cell (word w)) = .error e) : e.HasKind .labelsExhausted := by
  obtain ⟨hsound, hbit⟩ := hc.bitOffset hes
  rcases (Canvas.drawEntry_eq_error_iff hsound hbit).1 he with hlabel | ⟨-, hrefusal⟩
  · exact Canvas.labelFor_error hsound hlabel
  · cases hrefusal

/-- A diagram is refused for a place exactly when it comes to an entry that has none. -/
theorem diagram_hasKind_iff {stop : Int} (hes : Consecutive 0 root.entries stop)
    (hplaced : root.isPlaced = true) (ha : root.header.NameAllowed) {kind : ErrorKind}
    (hkind : kind ≠ .labelsExhausted) :
    (∃ e, root.diagram = .error e ∧ e.HasKind kind) ↔
      ∃ c entry, root.ComesTo c entry ∧ (∃ label, c.labelFor entry = .ok label) ∧
        entry.Misfit kind ∧ ¬entry.Overlong := by
  constructor
  · rintro ⟨e, he, hkinded⟩
    rcases (diagram_eq_error_iff hplaced).1 he with ⟨c, entry, hc, hdraw⟩ | ⟨htitle, -⟩
    · obtain ⟨hsound, hbit⟩ := hc.bitOffset hes
      exact ⟨c, entry, hc,
        (Canvas.drawEntry_hasKind_iff hsound hbit hkind).1 ⟨e, hdraw, hkinded⟩⟩
    · -- A title fails with no error of a layout.
      obtain ⟨l, rfl, -⟩ := hkinded
      cases (title_error ha htitle).1
  · rintro ⟨c, entry, hc, hmisfit⟩
    obtain ⟨hsound, hbit⟩ := hc.bitOffset hes
    obtain ⟨e, hdraw, hkinded⟩ := (Canvas.drawEntry_hasKind_iff hsound hbit hkind).2 hmisfit
    exact ⟨e, (diagram_eq_error_iff hplaced).2 (.inl ⟨c, entry, hc, hdraw⟩), hkinded⟩

/-- Where every entry has its place, a diagram can but be short of labels. -/
theorem diagram_error_of_fitting {stop : Int} (hes : Consecutive 0 root.entries stop)
    (hplaced : root.isPlaced = true)
    (hfit : ∀ entry ∈ root.entries, (∀ kind, ¬entry.Misfit kind) ∧ ¬entry.Overlong)
    {e : Failure} (he : root.diagram = .error e) :
    e.HasKind .labelsExhausted ∨ root.title = .error e := by
  rcases (diagram_eq_error_iff hplaced).1 he with ⟨c, entry, hc, hdraw⟩ | ⟨htitle, -⟩
  · obtain ⟨hsound, hbit⟩ := hc.bitOffset hes
    obtain ⟨before, after, heq, -⟩ := hc
    obtain ⟨hfits, hshort⟩ := hfit entry (heq ▸ List.mem_append_right _ List.mem_cons_self)
    rcases Canvas.drawEntry_error hsound hbit hdraw with hlabel | ⟨kind, hmisfit, -⟩ | ⟨-, hlong⟩
    · exact .inl hlabel
    · exact absurd hmisfit (hfits kind)
    · exact absurd hlong hshort
  · exact .inr htitle

/-- **The diagram of an accepted tree follows its placement.** -/
theorem drawnAsPlaced_of_resolve (hraw : raw.SizesWhole) (h : raw.resolve = .ok root) :
    root.DrawnAsPlaced := by
  have hes := consecutive_of_resolve hraw h
  have hplaced := isPlaced_of_resolve hraw h
  have ha := nameAllowed_of_resolve hraw h
  constructor
  case fields =>
    intro header before f after c hroot hc
    exact bitOffset_of_drawFields hraw h hroot hc
  case items =>
    intro b i c hc
    exact (hc.bitOffset hes).2
  case words =>
    intro w c e hc he
    exact hc.word_error hes he
  case failures =>
    intro e
    exact diagram_eq_error_iff hplaced
  case entryFailures =>
    intro c entry e hc he
    obtain ⟨hsound, hbit⟩ := hc.bitOffset hes
    exact Canvas.drawEntry_error hsound hbit he
  case misfits =>
    intro kind hkind
    exact diagram_hasKind_iff hes hplaced ha hkind
  case titles =>
    intro e he
    exact title_error ha he
  case fitting =>
    intro hfit e he
    exact diagram_error_of_fitting hes hplaced hfit he
  case total =>
    intro d hd
    obtain ⟨ds, -, -, -, htotal⟩ := exists_of_diagram_eq_ok hraw h hd
    obtain ⟨-, -, rfl⟩ := (resolve_eq_ok_iff hraw).1 h
    rw [htotal, sizeBits_located, sizeBits_eq hraw, bitCount_located]

theorem drawnAsPlaced_statusBlock :
    statusBlock.SizesWhole ∧ statusBlock.resolve = .ok (statusBlock.located [] 0 0) ∧
      (statusBlock.located [] 0 0).DrawnAsPlaced := by
  have hwhole : statusBlock.SizesWhole := by decide
  exact ⟨hwhole, rfl, drawnAsPlaced_of_resolve hwhole rfl⟩

end

/-! ## Sizes that cannot be written -/

/-- Bytes that make up no whole rows, with too many bits for their number to be written. -/
def overlongBlob : Field :=
  blob { header := { name := some (.str "a") },
         bytes := .int ((9 * 10 ^ (Number.maxDigits - 1) + 1 : Nat) : Int) }

theorem not_isWritable_eight_mul {digits : Nat} (h : Number.maxDigits = digits + 1) :
    ¬(Number.int ((9 * 10 ^ digits + 1 : Nat) * 8)).isWritable = true := by
  have hpow : Nat.pow 10 (digits + 1) = 10 ^ digits * 10 := pow_succ 10 digits
  rw [Number.isWritable, decide_eq_true_eq, h, hpow]
  generalize 10 ^ digits = p
  omega

theorem sizesWhole_overlongBlob : overlongBlob.SizesWhole := by
  intro g hg
  obtain rfl := List.mem_singleton.1 hg
  exact ⟨_, rfl⟩

theorem resolve_overlongBlob : overlongBlob.resolve = .ok (overlongBlob.located [] 0 0) := by
  refine (resolve_eq_ok_iff sizesWhole_overlongBlob).2 ⟨?_, rfl, rfl⟩
  intro s hs
  obtain rfl := List.mem_singleton.1 hs
  refine ⟨nofun, by decide, ?_⟩
  show (1 : Int) ≤ ((9 * 10 ^ (Number.maxDigits - 1) + 1 : Nat) : Int)
  omega

theorem bitCount_overlongBlob :
    (overlongBlob.located [] 0 0).bitCount = (9 * 10 ^ (Number.maxDigits - 1) + 1 : Nat) * 8 := by
  rw [bitCount_located]
  exact bitCount_blob rfl

theorem misfit_overlongBlob :
    Entry.Misfit (.cell (overlongBlob.located [] 0 0)) .unalignedBlob := by
  have hdigits : 2 ≤ Number.maxDigits - 1 := by
    unfold Number.maxDigits
    omega
  have hrows : 10 ^ 2 ∣ 10 ^ (Number.maxDigits - 1) := Nat.pow_dvd_pow 10 hdigits
  have hpos : 0 < 10 ^ (Number.maxDigits - 1) := Nat.pow_pos (by decide)
  refine .runNotRows trivial ?_ ?_
  · rw [bitCount_overlongBlob]
    generalize 10 ^ (Number.maxDigits - 1) = p at hpos ⊢
    omega
  · rw [bitCount_overlongBlob]
    generalize 10 ^ (Number.maxDigits - 1) = p at hrows ⊢
    omega

/-- **A blob that is no whole rows can be refused for another reason than that**: the count of its
bits is too long for the legend. -/
theorem diagram_overlongBlob :
    overlongBlob.SizesWhole ∧ ∃ root, overlongBlob.resolve = .ok root ∧
      (∃ label, Canvas.labelFor {} (.cell root) = .ok label) ∧
      Entry.Misfit (.cell root) .unalignedBlob ∧ root.diagram = .error .longNumber ∧
      ¬Failure.longNumber.HasKind .unalignedBlob := by
  have hsound : (Entry.cell (overlongBlob.located [] 0 0)).Sound :=
    (consecutive_of_resolve sizesWhole_overlongBlob resolve_overlongBlob).sound _
      (List.mem_singleton.2 rfl)
  have hlong : ¬(Number.int (overlongBlob.located [] 0 0).bitCount).isWritable = true := by
    rw [bitCount_overlongBlob]
    exact not_isWritable_eight_mul rfl
  have hrefusal : (Entry.cell (overlongBlob.located [] 0 0)).refusal? = some .longNumber := by
    cases hsound.outcome with
    | placed _ short _ => exact absurd (.size trivial hlong) short
    | long refusal _ => exact refusal
    | refused _ _ _ short => exact absurd (.size trivial hlong) short
  have hname : Canvas.nameFor {} (.cell (overlongBlob.located [] 0 0)) = "a" := rfl
  have hroom : 1 ≤ cellLetters (overlongBlob.located [] 0 0).bitCount := by
    refine one_le_cellLetters ?_
    rw [bitCount_overlongBlob]
    omega
  have hlabel := Canvas.labelFor_of_own (c := {}) (e := .cell (overlongBlob.located [] 0 0)) rfl
    (hname ▸ ⟨hroom, List.not_mem_nil⟩)
  refine ⟨sizesWhole_overlongBlob, _, resolve_overlongBlob, ⟨_, hlabel⟩, misfit_overlongBlob, ?_,
    hasKind_longNumber⟩
  refine (diagram_eq_error_iff rfl).2 (.inl ⟨{}, _, ⟨[], [], rfl, rfl⟩, ?_⟩)
  exact (Canvas.drawEntry_eq_error_iff hsound rfl).2 (.inr ⟨⟨_, hlabel⟩, hrefusal⟩)

end Field

end RegisterLayout
