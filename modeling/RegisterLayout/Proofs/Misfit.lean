import RegisterLayout.Proofs.DrawnEntries

/-!
# Entries that a diagram has no place for

A bit field has to be within a row, and so has a blob or a union of less than a row; a larger blob
or union has to be whole rows.  Anything else is refused when its turn comes, with an error of its
own kind, and words and items never are.  A refusal shows the numbers that it is about; when one
of them is too long to be written, there is a failure of another sort.

Principal definitions: `Entry.Misfit`, `Entry.Overlong`.
Principal results: `Entry.Sound.outcome`, `Canvas.drawEntry_error`,
`Canvas.drawEntry_hasKind_iff`.
-/

namespace RegisterLayout

/-- A field that a diagram shows as one run of bits, whatever is in it. -/
def Field.IsRun : Field → Prop
  | .blob _ | .union .. => True
  | _ => False

namespace Entry

/-- An entry that has no place where it stands, with the kind of error that this is. -/
inductive Misfit : Entry → ErrorKind → Prop
  | bitFieldOverRow {b : BitField} (wide : 32 < b.bits.whole) :
      Misfit (heading b) .bitfieldTooWide
  | bitFieldCrosses {b : BitField} (narrow : b.bits.whole ≤ 32)
      (crosses : CrossesRow (8 * b.header.byteOffset) b.bits.whole) :
      Misfit (heading b) .straddle
  | runCrosses {f : Field} (run : f.IsRun) (narrow : f.bitCount < 32)
      (crosses : CrossesRow (8 * f.header.byteOffset) f.bitCount) : Misfit (cell f) .straddle
  | runNotRows {f : Field} (run : f.IsRun) (tall : 32 ≤ f.bitCount) (part : ¬32 ∣ f.bitCount) :
      Misfit (cell f) .unalignedBlob
  | runOffRow {f : Field} (run : f.IsRun) (tall : 32 ≤ f.bitCount) (rows : 32 ∣ f.bitCount)
      (off : ¬4 ∣ f.header.byteOffset) : Misfit (cell f) .straddle

/-- An entry about which a number has to be written that has too many digits: the size of a blob
or a union in its line, or the bits that stand on two rows in their refusal. -/
inductive Overlong : Entry → Prop
  | size {f : Field} (run : f.IsRun) (long : ¬(Number.int f.bitCount).isWritable = true) :
      Overlong (cell f)
  | bitFieldEnds {b : BitField} (narrow : b.bits.whole ≤ 32)
      (crosses : CrossesRow (8 * b.header.byteOffset) b.bits.whole)
      (long : ¬((Number.int (8 * b.header.byteOffset)).isWritable = true ∧
        (Number.int (8 * b.header.byteOffset + b.bits.whole)).isWritable = true)) :
      Overlong (heading b)
  | runEnds {f : Field} (run : f.IsRun) (narrow : f.bitCount < 32)
      (crosses : CrossesRow (8 * f.header.byteOffset) f.bitCount)
      (long : ¬((Number.int (8 * f.header.byteOffset)).isWritable = true ∧
        (Number.int (8 * f.header.byteOffset + f.bitCount)).isWritable = true)) :
      Overlong (cell f)

/-- An entry is refused in one way. -/
theorem Misfit.unique {e : Entry} {kind kind' : ErrorKind} (h : e.Misfit kind)
    (h' : e.Misfit kind') : kind = kind' := by
  cases h with
  | bitFieldOverRow wide =>
    cases h' with
    | bitFieldOverRow _ => rfl
    | bitFieldCrosses narrow _ => omega
  | bitFieldCrosses narrow _ =>
    cases h' with
    | bitFieldOverRow wide => omega
    | bitFieldCrosses _ _ => rfl
  | runCrosses _ narrow _ =>
    cases h' with
    | runCrosses _ _ _ => rfl
    | runNotRows _ tall _ => omega
    | runOffRow _ tall _ _ => omega
  | runNotRows _ tall part =>
    cases h' with
    | runCrosses _ narrow _ => omega
    | runNotRows _ _ _ => rfl
    | runOffRow _ _ rows _ => exact absurd rows part
  | runOffRow _ tall rows _ =>
    cases h' with
    | runCrosses _ narrow _ => omega
    | runNotRows _ _ part => exact absurd rows part
    | runOffRow _ _ _ _ => rfl

end Entry

/-! ## The error of a refusal -/

theorem Failure.HasKind.unique {e : Failure} {kind kind' : ErrorKind} (h : e.HasKind kind)
    (h' : e.HasKind kind') : kind = kind' := by
  obtain ⟨l, rfl, rfl⟩ := h
  obtain ⟨l', hl, rfl⟩ := h'
  rw [Failure.layout.inj hl]

theorem hasKind_longNumber {kind : ErrorKind} : ¬Failure.longNumber.HasKind kind := by
  rintro ⟨l, hl, -⟩
  cases hl

section

variable {fullName : Option Text} {cause : Cause}

theorem ofNode_hasKind (h : cause.isWritable = true) :
    (Failure.ofNode fullName cause).HasKind cause.kind := by
  have hname : ((fullName.map Value.str).getD .null).isWritable = true := by
    cases fullName <;> rfl
  rw [Failure.ofNode, Failure.atNode, hname, h]
  exact ⟨_, rfl, rfl⟩

theorem ofNode_eq_longNumber (h : ¬cause.isWritable = true) :
    Failure.ofNode fullName cause = .longNumber := by
  rw [Failure.ofNode, Failure.atNode, Bool.eq_false_of_not_eq_true h, Bool.and_false]
  rfl

theorem isWritable_single {n : Number} (h : cause.values = [.num n]) :
    cause.isWritable = true ↔ n.isWritable = true := by
  have hn : (Value.num n).isWritable = n.isWritable := rfl
  simp [Cause.isWritable, h, hn]

theorem isWritable_pair {m n : Number} (h : cause.values = [.num m, .num n]) :
    cause.isWritable = true ↔ m.isWritable = true ∧ n.isWritable = true := by
  have hm : (Value.num m).isWritable = m.isWritable := rfl
  have hn : (Value.num n).isWritable = n.isWritable := rfl
  simp [Cause.isWritable, h, hm, hn]

end

namespace Entry

/-- What becomes of an entry: it has its place, or too long a number stands in the way, or it is
refused with an error of the kind that fits. -/
inductive Outcome (e : Entry) : Prop
  | placed (refusal : e.refusal? = none) (short : ¬e.Overlong) (fits : ∀ kind, ¬e.Misfit kind)
  | long (refusal : e.refusal? = some .longNumber) (long : e.Overlong)
  | refused {err : Failure} {kind : ErrorKind} (refusal : e.refusal? = some err)
      (hasKind : err.HasKind kind) (misfit : e.Misfit kind) (short : ¬e.Overlong)

theorem outcome_heading (b : BitField) : (heading b).Outcome := by
  have hplace : (heading b).refusal? = bitFieldRefusal? b.header.position.fullName
      (8 * b.header.byteOffset) b.bits.whole := rfl
  by_cases hwide : 32 < b.bits.whole
  · rw [bitFieldRefusal?, if_pos hwide] at hplace
    refine .refused hplace (ofNode_hasKind rfl) (.bitFieldOverRow hwide) fun h => ?_
    cases h with
    | bitFieldEnds narrow _ _ => omega
  have hnarrow : b.bits.whole ≤ 32 := by omega
  by_cases hcrosses : CrossesRow (8 * b.header.byteOffset) b.bits.whole
  · rw [bitFieldRefusal?, if_neg hwide, if_pos hcrosses] at hplace
    by_cases hshort : (Number.int (8 * b.header.byteOffset)).isWritable = true ∧
        (Number.int (8 * b.header.byteOffset + b.bits.whole)).isWritable = true
    · have hkind := @ofNode_hasKind b.header.position.fullName (.bitfieldStraddles _ _)
        ((isWritable_pair rfl).2 hshort)
      refine .refused hplace hkind (.bitFieldCrosses hnarrow hcrosses) fun h => ?_
      cases h with
      | bitFieldEnds _ _ long => exact long hshort
    · rw [ofNode_eq_longNumber fun h => hshort ((isWritable_pair rfl).1 h)] at hplace
      exact .long hplace (.bitFieldEnds hnarrow hcrosses hshort)
  · rw [bitFieldRefusal?_eq_none_iff.2 ⟨hnarrow, hcrosses⟩] at hplace
    refine .placed hplace (fun h => ?_) fun kind h => ?_
    · cases h with
      | bitFieldEnds _ crosses _ => exact hcrosses crosses
    · cases h with
      | bitFieldOverRow wide => exact hwide wide
      | bitFieldCrosses _ crosses => exact hcrosses crosses

/-- A run of less than a row. -/
theorem outcome_narrowRun {f : Field} (run : f.IsRun)
    (hplace : (cell f).refusal? = runRefusal? f.header.position.fullName (8 * f.header.byteOffset)
      f.bitCount)
    (hwritable : (Number.int f.bitCount).isWritable = true) (hnarrow : f.bitCount < 32) :
    (cell f).Outcome := by
  rw [runRefusal?, if_pos hnarrow] at hplace
  by_cases hcrosses : CrossesRow (8 * f.header.byteOffset) f.bitCount
  · rw [if_pos hcrosses] at hplace
    by_cases hshort : (Number.int (8 * f.header.byteOffset)).isWritable = true ∧
        (Number.int (8 * f.header.byteOffset + f.bitCount)).isWritable = true
    · have hkind := @ofNode_hasKind f.header.position.fullName (.blobStraddles _ _)
        ((isWritable_pair rfl).2 hshort)
      refine .refused hplace hkind (.runCrosses run hnarrow hcrosses) fun h => ?_
      cases h with
      | size _ long => exact long hwritable
      | runEnds _ _ _ long => exact long hshort
    · rw [ofNode_eq_longNumber fun h => hshort ((isWritable_pair rfl).1 h)] at hplace
      exact .long hplace (.runEnds run hnarrow hcrosses hshort)
  · rw [if_neg hcrosses] at hplace
    refine .placed hplace (fun h => ?_) fun kind h => ?_
    · cases h with
      | size _ long => exact long hwritable
      | runEnds _ _ crosses _ => exact hcrosses crosses
    · cases h with
      | runCrosses _ _ crosses => exact hcrosses crosses
      | runNotRows _ tall _ => omega
      | runOffRow _ tall _ _ => omega

/-- A run of a row or more. -/
theorem outcome_tallRun {f : Field} (run : f.IsRun)
    (hplace : (cell f).refusal? = runRefusal? f.header.position.fullName (8 * f.header.byteOffset)
      f.bitCount)
    (hwritable : (Number.int f.bitCount).isWritable = true) (htall : 32 ≤ f.bitCount) :
    (cell f).Outcome := by
  have hshort : ¬(cell f).Overlong := by
    intro h
    cases h with
    | size _ long => exact long hwritable
    | runEnds _ narrow _ _ => omega
  rw [runRefusal?, if_neg (by omega)] at hplace
  by_cases hrows : 32 ∣ f.bitCount
  · rw [if_neg (not_not.2 hrows)] at hplace
    by_cases hoff : 4 ∣ f.header.byteOffset
    · rw [if_neg (by omega)] at hplace
      refine .placed hplace hshort fun kind h => ?_
      cases h with
      | runCrosses _ narrow _ => omega
      | runNotRows _ _ part => exact part hrows
      | runOffRow _ _ _ off => exact off hoff
    · rw [if_pos (by omega)] at hplace
      have hrest : (Number.int (8 * f.header.byteOffset % 32)).isWritable = true :=
        isWritable_of_le (by omega) (by omega)
      have hkind := @ofNode_hasKind f.header.position.fullName (.blobOffRow _ _)
        ((isWritable_pair rfl).2 ⟨hwritable, hrest⟩)
      exact .refused hplace hkind (.runOffRow run htall hrows hoff) hshort
  · rw [if_pos hrows] at hplace
    have hkind := @ofNode_hasKind f.header.position.fullName (.blobNotRows _)
      ((isWritable_single rfl).2 hwritable)
    exact .refused hplace hkind (.runNotRows run htall hrows) hshort

theorem outcome_run {f : Field} (run : f.IsRun) : (cell f).Outcome := by
  have hplace : (cell f).refusal? = wholeRefusal? f.header.position.fullName
      (8 * f.header.byteOffset) f.bitCount := by
    cases f with
    | blob => rfl
    | union => rfl
    | _ => exact run.elim
  by_cases hwritable : (Number.int f.bitCount).isWritable = true
  · rw [wholeRefusal?, if_pos hwritable] at hplace
    rcases Int.lt_or_le f.bitCount 32 with hnarrow | htall
    · exact outcome_narrowRun run hplace hwritable hnarrow
    · exact outcome_tallRun run hplace hwritable htall
  · rw [wholeRefusal?, if_neg hwritable] at hplace
    exact .long hplace (.size run hwritable)

/-- **Only bit fields, blobs and unions are refused, each for what is wrong with its place.** -/
theorem Sound.outcome {e : Entry} (he : e.Sound) : e.Outcome := by
  cases he with
  | @heading b => exact outcome_heading b
  | item => exact .placed rfl nofun nofun
  | word =>
    refine .placed rfl (fun h => ?_) fun kind h => ?_
    · cases h with
      | size run _ => exact run.elim
      | runEnds run _ _ _ => exact run.elim
    · cases h with
      | runCrosses run _ _ => exact run.elim
      | runNotRows run _ _ => exact run.elim
      | runOffRow run _ _ _ => exact run.elim
  | blob => exact outcome_run trivial
  | union => exact outcome_run trivial

end Entry

/-! ## Failures of drawing -/

namespace Canvas

variable {c : Canvas} {e : Entry} {err : Failure}

/-- When an entry has no label, the labels are exhausted. -/
theorem labelFor_error (he : e.Sound) (h : c.labelFor e = .error err) :
    err.HasKind .labelsExhausted := by
  have hletters : (Number.int (cellLetters e.width)).isWritable = true := by
    have hnonneg := he.width_nonneg
    have hle := cellLetters_le e.width
    refine isWritable_of_le ?_ (by omega)
    unfold cellLetters
    omega
  cases hcell : e.hasCell with
  | false =>
    rw [labelFor, hcell, if_neg Bool.false_ne_true] at h
    cases h
  | true =>
    rw [labelFor, if_pos hcell, error_eq_bind_ok_iff] at h
    have hnamed : ∀ cause, Failure.ofCause (c.nameFor e) cause
        = Failure.ofNode (some (c.nameFor e)) cause := fun _ => rfl
    rcases findLabel_error h with herr | herr
    · rw [herr, hnamed]
      exact @ofNode_hasKind _ .noLetter rfl
    · rw [herr, hnamed]
      exact @ofNode_hasKind _ (.noLabel _) ((isWritable_single rfl).2 hletters)

/-- Drawing an entry fails for its label or, with a label, for its place. -/
theorem drawEntry_eq_error_iff (he : e.Sound) (hc : c.bitOffset = .int e.firstBit) :
    c.drawEntry e = .error err ↔
      c.labelFor e = .error err ∨
        (∃ label, c.labelFor e = .ok label) ∧ e.refusal? = some err := by
  rw [drawEntry_eq he hc]
  cases hlabel : c.labelFor e with
  | error e' => simp [error_bind]
  | ok label => cases hrefusal : e.refusal? <;> simp [ok_bind]

/-- **What drawing an entry can fail for.** -/
theorem drawEntry_error (he : e.Sound) (hc : c.bitOffset = .int e.firstBit)
    (h : c.drawEntry e = .error err) :
    err.HasKind .labelsExhausted ∨ (∃ kind, e.Misfit kind ∧ err.HasKind kind) ∨
      err = .longNumber ∧ e.Overlong := by
  rcases (drawEntry_eq_error_iff he hc).1 h with hlabel | ⟨-, hrefusal⟩
  · exact .inl (labelFor_error he hlabel)
  · refine .inr ?_
    cases he.outcome with
    | placed refusal _ _ =>
      rw [refusal] at hrefusal
      cases hrefusal
    | long refusal long =>
      rw [refusal, Option.some.injEq] at hrefusal
      exact .inr ⟨hrefusal.symm, long⟩
    | refused refusal hasKind misfit _ =>
      rw [refusal, Option.some.injEq] at hrefusal
      subst hrefusal
      exact .inl ⟨_, misfit, hasKind⟩

/-- **When drawing an entry fails for its place.** -/
theorem drawEntry_hasKind_iff (he : e.Sound) (hc : c.bitOffset = .int e.firstBit)
    {kind : ErrorKind} (hkind : kind ≠ .labelsExhausted) :
    (∃ err, c.drawEntry e = .error err ∧ err.HasKind kind) ↔
      (∃ label, c.labelFor e = .ok label) ∧ e.Misfit kind ∧ ¬e.Overlong := by
  constructor
  · rintro ⟨err, h, herr⟩
    rcases (drawEntry_eq_error_iff he hc).1 h with hlabel | ⟨hlabel, hrefusal⟩
    · exact absurd (herr.unique (labelFor_error he hlabel)) hkind
    · refine ⟨hlabel, ?_⟩
      cases he.outcome with
      | placed refusal _ _ =>
        rw [refusal] at hrefusal
        cases hrefusal
      | long refusal _ =>
        rw [refusal, Option.some.injEq] at hrefusal
        exact absurd (hrefusal ▸ herr) hasKind_longNumber
      | refused refusal hasKind misfit short =>
        rw [refusal, Option.some.injEq] at hrefusal
        subst hrefusal
        exact ⟨herr.unique hasKind ▸ misfit, short⟩
  · rintro ⟨hlabel, hmisfit, hshort⟩
    cases he.outcome with
    | placed _ _ fits => exact absurd hmisfit (fits kind)
    | long _ long => exact absurd long hshort
    | @refused err kind' refusal hasKind misfit _ =>
      refine ⟨err, (drawEntry_eq_error_iff he hc).2 (.inr ⟨hlabel, refusal⟩), ?_⟩
      exact hmisfit.unique misfit ▸ hasKind

end Canvas

end RegisterLayout
