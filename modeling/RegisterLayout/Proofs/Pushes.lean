import RegisterLayout.Proofs.EntryDrawing
import RegisterLayout.Proofs.Misfit

/-!
# Runs of bits, one after the other

Undivided runs of bits, drawn on one canvas by somebody who goes on after the errors of a layout.  A
run without a place is refused and leaves the canvas as it was; a run whose label is too long is
passed over, its bits left without a cell; any other run gets its cell, within one row or over whole
rows.  So the bit at which the canvas arrives counts the bits of all calls but the refused ones.

A refusal shows the bits between which a narrow run stands, or the width of a tall one, and only a
failure that is no error of a layout comes out where these have too many digits for a message.  The
drawing ends there: somebody who goes on does so after errors of a layout.

Principal definitions: `BitRun`, `Push`, `Canvas.pushes`, `RefusalOverlong`, `Push.Outcome`,
`Canvas.KeepsCount`.
Principal results: `Canvas.push_outcome` — what one call comes to; `Canvas.bitOffset_leftBy`,
`Canvas.length_cells_leftBy`; `Canvas.keepsCount_pushes`.
-/

namespace RegisterLayout

/-- An undivided run of bits, with the label for its cell and the name of its field. -/
structure BitRun where
  label : Text
  fullName : Option Text
  width : Int
  pos : 1 ≤ width

/-- A call that draws a run: the canvas it is made on, its error if it raises one, and the canvas
that it leaves. -/
structure Push where
  before : Canvas
  run : BitRun
  error : Option LayoutError
  after : Canvas

/-- The calls that are made for some runs, and the failure that keeps the others from being made. -/
structure Pushes where
  calls : List Push
  ending : Option Failure

/-- The calls with one more before them. -/
def Pushes.cons (p : Push) (later : Pushes) : Pushes := ⟨p :: later.calls, later.ending⟩

@[simp] theorem Pushes.calls_cons (p : Push) (later : Pushes) :
    (later.cons p).calls = p :: later.calls := rfl

@[simp] theorem Pushes.ending_cons (p : Push) (later : Pushes) :
    (later.cons p).ending = later.ending := rfl

/-- A run has no place, and the refusal would show a number of too many digits. -/
def RefusalOverlong (first width : Int) : Prop :=
  width < 32 ∧ CrossesRow first width ∧
    ¬((Number.int first).isWritable = true ∧ (Number.int (first + width)).isWritable = true) ∨
  32 ≤ width ∧ ¬(32 ∣ width ∧ 32 ∣ first) ∧ ¬(Number.int width).isWritable = true

namespace Push

/-- The bit at which the canvas is when the call is made. -/
def firstBit (p : Push) : Int := p.before.bitOffset.truncate

/-- The call raises one of the two errors about the place of a run. -/
def IsRefused (p : Push) : Prop :=
  p.error.map (·.cause.kind) = some .straddle ∨ p.error.map (·.cause.kind) = some .unalignedBlob

instance : DecidablePred IsRefused := fun _ => inferInstanceAs (Decidable (_ ∨ _))

/-- What a call comes to that is made at some bit. -/
inductive Outcome (p : Push) (bit : Int) : Prop
  | drawn {cell : Cell} (error : p.error = none) (place : HasPlace bit p.run.width)
      (shows : cell.Shows p.run.label p.run.width)
      (after : p.after = { p.before with
        bitOffset := .int (bit + p.run.width), cells := p.before.cells ++ [cell] })
  | unlabelled {l : LayoutError} (error : p.error = some l)
      (exhausted : l.cause.kind = .labelsExhausted) (place : HasPlace bit p.run.width)
      (long : cellLetters p.run.width < p.run.label.length)
      (after : p.after = { p.before with bitOffset := .int (bit + p.run.width) })
  | refused {l : LayoutError} (error : p.error = some l)
      (misplaced : l.cause.kind = .straddle ∨ l.cause.kind = .unalignedBlob)
      (displaced : ¬HasPlace bit p.run.width) (after : p.after = p.before)

/-- The bits over which the run is drawn. -/
def Covers (p : Push) (bit : Int) : Prop := p.firstBit ≤ bit ∧ bit < p.firstBit + p.run.width

/-- The run has its cell and is where it belongs. -/
structure IsDrawn (p : Push) : Prop where
  cell : ∃ cell : Cell, p.after.cells = p.before.cells ++ [cell] ∧
    cell.Shows p.run.label p.run.width ∧
    (32 ≤ p.run.width → (cell.length : Int) = 2 * (p.run.width / 32) - 1)
  withinRow : p.run.width < 32 → ∀ bit bit', p.Covers bit → p.Covers bit' → bit / 32 = bit' / 32
  wholeRows : 32 ≤ p.run.width → ∀ bit bit', p.Covers bit → bit / 32 = bit' / 32 → p.Covers bit'

end Push

/-- The bits that some runs have together. -/
def bitsOf (rs : List BitRun) : Int := (rs.map BitRun.width).sum

namespace Canvas

/-- The call that draws a run on a canvas. -/
def push (c : Canvas) (r : BitRun) : Except Failure Push := do
  let (error, left) ← goOn (c.pushCell r.label r.fullName (.int r.width))
  return ⟨c, r, error, left⟩

/-- The calls for some runs, each on the canvas that the one before it leaves. -/
def pushes (c : Canvas) : List BitRun → Pushes
  | [] => ⟨[], none⟩
  | r :: rs =>
    match c.push r with
    | .ok p => (p.after.pushes rs).cons p
    | .error e => ⟨[], some e⟩

/-- The canvas that the last of some calls leaves. -/
def leftBy (c : Canvas) (ps : List Push) : Canvas := ps.foldl (fun _ p => p.after) c

/-- What holds of the calls for some runs on a canvas, and of the canvas behind them. -/
structure KeepsCount (c : Canvas) (start : Int) (rs : List BitRun) : Prop where
  calls : (c.pushes rs).calls.map Push.run = rs.take (c.pushes rs).calls.length
  before : ∀ (k : Nat) (p : Push), (c.pushes rs).calls[k]? = some p →
    p.before = c.leftBy ((c.pushes rs).calls.take k)
  refused : ∀ p ∈ (c.pushes rs).calls, p.IsRefused → p.after = p.before
  drawn : ∀ p ∈ (c.pushes rs).calls, p.error = none → p.IsDrawn
  bitOffset : (c.leftBy (c.pushes rs).calls).bitOffset = .int (start +
    bitsOf (((c.pushes rs).calls.filter fun p => ¬p.IsRefused).map Push.run))
  cells : (c.leftBy (c.pushes rs).calls).cells.length =
    c.cells.length + (c.pushes rs).calls.countP fun p => p.error.isNone
  /-- A call is made for every run, unless the refusal of one cannot be put into words. -/
  complete : (c.pushes rs).ending = none ↔ (c.pushes rs).calls.length = rs.length
  ending : ∀ e, (c.pushes rs).ending = some e → e = .longNumber ∧
    ∃ r, rs[(c.pushes rs).calls.length]? = some r ∧
      RefusalOverlong (c.leftBy (c.pushes rs).calls).bitOffset.truncate r.width
  worded : ∀ p ∈ (c.pushes rs).calls, ¬RefusalOverlong p.firstBit p.run.width
  /-- As long as all bits have numbers that can be written, every refusal can be put into words. -/
  endless : 0 ≤ start → (Number.int (start + bitsOf rs)).isWritable = true →
    (c.pushes rs).ending = none

end Canvas

/-! ## Refusals -/

theorem HasPlace.not_refusalOverlong {first width : Int} (h : HasPlace first width) :
    ¬RefusalOverlong first width := by
  rintro (⟨hnarrow, hcrosses, -⟩ | ⟨htall, hrows, -⟩)
  · exact h.narrow hnarrow hcrosses
  · exact hrows (h.tall htall)

section

variable {fullName : Option Text} {first width : Int}

theorem refusalOverlong_of_narrow (hnarrow : width < 32) (hcrosses : CrossesRow first width) :
    RefusalOverlong first width ↔ ¬((Number.int first).isWritable = true ∧
      (Number.int (first + width)).isWritable = true) := by
  constructor
  · rintro (⟨-, -, hlong⟩ | ⟨htall, -, -⟩)
    · exact hlong
    · omega
  · intro hlong
    exact .inl ⟨hnarrow, hcrosses, hlong⟩

theorem refusalOverlong_of_tall (htall : 32 ≤ width) (hrows : ¬(32 ∣ width ∧ 32 ∣ first)) :
    RefusalOverlong first width ↔ ¬(Number.int width).isWritable = true := by
  constructor
  · rintro (⟨hnarrow, -, -⟩ | ⟨-, -, hlong⟩)
    · omega
    · exact hlong
  · intro hlong
    exact .inr ⟨htall, hrows, hlong⟩

/-- **Why a run without a place is refused.** -/
theorem exists_cause_of_not_hasPlace (h : ¬HasPlace first width) :
    ∃ cause : Cause, runRefusal? fullName first width = some (.ofNode fullName cause) ∧
      (cause.kind = .straddle ∨ cause.kind = .unalignedBlob) ∧
      (cause.isWritable = true ↔ ¬RefusalOverlong first width) := by
  by_cases hnarrow : width < 32
  · have hcrosses : CrossesRow first width := by
      apply Decidable.byContradiction
      intro hstays
      exact h ⟨fun _ => hstays, fun htall => by omega⟩
    refine ⟨.blobStraddles (.int first) (.int (first + width)), ?_, .inl rfl, ?_⟩
    · rw [runRefusal?, if_pos hnarrow, if_pos hcrosses]
    · rw [isWritable_pair rfl, refusalOverlong_of_narrow hnarrow hcrosses, not_not]
  have hrows : ¬(32 ∣ width ∧ 32 ∣ first) := by
    intro hrows
    exact h ⟨fun hlt => absurd hlt hnarrow, fun _ => hrows⟩
  have htall : 32 ≤ width := by omega
  by_cases hwhole : 32 ∣ width
  · have hoff : ¬32 ∣ first := fun hfirst => hrows ⟨hwhole, hfirst⟩
    -- The bit of a row at which the run starts can always be shown; its width may be too long.
    have hrest : (Number.int (first % 32)).isWritable = true :=
      isWritable_of_le (by omega) (by omega)
    refine ⟨.blobOffRow (.int width) (.int (first % 32)), ?_, .inl rfl, ?_⟩
    · rw [runRefusal?, if_neg hnarrow, if_neg (not_not.2 hwhole), if_pos hoff]
    · rw [isWritable_pair rfl, refusalOverlong_of_tall htall hrows, not_not]
      exact and_iff_left hrest
  · refine ⟨.blobNotRows (.int width), ?_, .inr rfl, ?_⟩
    · rw [runRefusal?, if_neg hnarrow, if_pos hwhole]
    · rw [isWritable_single rfl, refusalOverlong_of_tall htall hrows, not_not]

end

/-- Where all numbers can be written, so can those of a refusal. -/
theorem not_refusalOverlong_of_isWritable {first width total : Int} (hfirst : 0 ≤ first)
    (hwidth : 1 ≤ width) (htotal : first + width ≤ total)
    (hwritable : (Number.int total).isWritable = true) : ¬RefusalOverlong first width := by
  rintro (⟨-, -, hlong⟩ | ⟨-, -, hlong⟩)
  · exact hlong ⟨isWritable_mono (by omega) hwritable, isWritable_mono (by omega) hwritable⟩
  · exact hlong (isWritable_mono (by omega) hwritable)

/-! ## One call -/

namespace Canvas

section

variable {c : Canvas} {r : BitRun} {bit n : Int} {label : Text}

/-- A cell whose label does not fit is not drawn, but its bits are passed over. -/
theorem drawOver_of_long (hc : c.bitOffset = .int bit) (hlabel : cellLetters n < label.length)
    (finish : Text → Except Failure Cell) :
    c.drawOver label (.int n) finish =
      .error (.ofCause label (.labelTooLong (.int (cellLetters n))),
        { c with bitOffset := .int (bit + n) }) := by
  simp only [drawOver, advance_int hc, padLabel_of_long hlabel, error_bind]

theorem push_of_ok {drawn : Canvas}
    (h : c.pushCell r.label r.fullName (.int r.width) = .ok drawn) :
    c.push r = .ok ⟨c, r, none, drawn⟩ := by
  rw [push, h]
  rfl

theorem push_of_layout {l : LayoutError} {left : Canvas}
    (h : c.pushCell r.label r.fullName (.int r.width) = .error (.layout l, left)) :
    c.push r = .ok ⟨c, r, some l, left⟩ := by
  rw [push, h]
  rfl

theorem push_of_longNumber {left : Canvas}
    (h : c.pushCell r.label r.fullName (.int r.width) = .error (.longNumber, left)) :
    c.push r = .error .longNumber := by
  rw [push, h]
  rfl

/-- **What one call comes to**, unless its refusal cannot be put into words. -/
theorem push_outcome (hc : c.bitOffset = .int bit) (r : BitRun) :
    (∃ p, c.push r = .ok p ∧ p.before = c ∧ p.run = r ∧ p.Outcome bit ∧
        ¬RefusalOverlong bit r.width) ∨
      c.push r = .error .longNumber ∧ RefusalOverlong bit r.width := by
  have hpushed := @pushCell_int c bit r.width r.label hc r.pos r.fullName
  by_cases hplace : HasPlace bit r.width
  · rw [runRefusal?_eq_none_iff.2 hplace] at hpushed
    by_cases hfits : (r.label.length : Int) ≤ cellLetters r.width
    · have hdrawn := @drawOver_eq c bit r.width r.label hc hfits
        (fun row => .ok (if r.width < 32 then [row] else tallCell r.width row))
        (cellOf r.label r.width) rfl
      exact .inl ⟨_, push_of_ok (hpushed.trans hdrawn), rfl, rfl,
        .drawn rfl hplace (cellOf_shows r.pos hfits) rfl, hplace.not_refusalOverlong⟩
    · have hlong : cellLetters r.width < r.label.length := by omega
      have hletters : (Number.int (cellLetters r.width)).isWritable = true := by
        have hroom := one_le_cellLetters r.pos
        have hbound := cellLetters_le r.width
        exact isWritable_of_le (by omega) (by omega)
      obtain ⟨l, hl, hkind⟩ :=
        @ofNode_hasKind (some r.label) (.labelTooLong (.int (cellLetters r.width)))
          ((isWritable_single rfl).2 hletters)
      have hlayout : Failure.ofCause r.label (.labelTooLong (.int (cellLetters r.width)))
        = .layout l := hl
      simp only [drawOver_of_long hc hlong, hlayout] at hpushed
      exact .inl ⟨_, push_of_layout hpushed, rfl, rfl, .unlabelled rfl hkind hplace hlong rfl,
        hplace.not_refusalOverlong⟩
  · obtain ⟨cause, hrefusal, hkind, hwritable⟩ :=
      @exists_cause_of_not_hasPlace r.fullName _ _ hplace
    simp only [hrefusal] at hpushed
    by_cases hlong : RefusalOverlong bit r.width
    · have hunwritable : ¬cause.isWritable = true := fun h => hwritable.1 h hlong
      rw [ofNode_eq_longNumber hunwritable] at hpushed
      exact .inr ⟨push_of_longNumber hpushed, hlong⟩
    · obtain ⟨l, hl, hcause⟩ := @ofNode_hasKind r.fullName cause (hwritable.2 hlong)
      rw [hl] at hpushed
      rw [← hcause] at hkind
      exact .inl ⟨_, push_of_layout hpushed, rfl, rfl, .refused rfl hkind hplace rfl, hlong⟩

end

end Canvas

namespace Push

section

variable {p : Push} {bit : Int}

theorem isRefused_of_some {l : LayoutError} (h : p.error = some l) :
    p.IsRefused ↔ l.cause.kind = .straddle ∨ l.cause.kind = .unalignedBlob := by
  simp [IsRefused, h]

theorem not_isRefused_of_none (h : p.error = none) : ¬p.IsRefused := by
  simp [IsRefused, h]

theorem not_isRefused_of_exhausted {l : LayoutError} (h : p.error = some l)
    (hexhausted : l.cause.kind = .labelsExhausted) : ¬p.IsRefused := by
  rw [isRefused_of_some h, hexhausted]
  decide

namespace Outcome

variable (h : p.Outcome bit)

include h

theorem after_of_isRefused (hrefused : p.IsRefused) : p.after = p.before := by
  cases h with
  | drawn error _ _ _ => exact absurd hrefused (not_isRefused_of_none error)
  | unlabelled error exhausted _ _ _ =>
    exact absurd hrefused (not_isRefused_of_exhausted error exhausted)
  | refused _ _ _ after => exact after

theorem isDrawn (hbit : p.before.bitOffset = .int bit) (hnone : p.error = none) : p.IsDrawn := by
  have hfirst : p.firstBit = bit := by rw [firstBit, hbit]; rfl
  cases h with
  | unlabelled error _ _ _ _ => cases hnone.symm.trans error
  | refused error _ _ _ => cases hnone.symm.trans error
  | @drawn cell _ place shows after =>
    constructor
    case cell =>
      refine ⟨cell, by rw [after], shows, fun htall => ?_⟩
      obtain ⟨⟨rows, hrows⟩, -⟩ := place.tall htall
      have hlength := shows.tall rows.toNat (by omega)
      omega
    case withinRow =>
      intro hnarrow b b' hb hb'
      have hstays := place.narrow hnarrow
      rw [crossesRow_iff] at hstays
      rw [Covers, hfirst] at hb hb'
      omega
    case wholeRows =>
      intro htall b b' hb hrow
      obtain ⟨hrows, hstart⟩ := place.tall htall
      rw [Covers, hfirst] at hb ⊢
      omega

theorem length_cells :
    p.after.cells.length = p.before.cells.length + if p.error.isNone then 1 else 0 := by
  cases h with
  | drawn error _ _ after => simp [error, after]
  | unlabelled error _ _ _ after => simp [error, after]
  | refused error _ _ after => simp [error, after]

/-- The canvas is moved on unless the run is refused. -/
theorem bitOffset_after (hbit : p.before.bitOffset = .int bit) :
    p.after.bitOffset = .int (bit + if ¬p.IsRefused then p.run.width else 0) := by
  cases h with
  | drawn error _ _ after => rw [if_pos (not_isRefused_of_none error), after]
  | unlabelled error exhausted _ _ after =>
    rw [if_pos (not_isRefused_of_exhausted error exhausted), after]
  | refused error misplaced _ after =>
    rw [if_neg (not_not.2 ((isRefused_of_some error).2 misplaced)), after, hbit, Int.add_zero]

end Outcome

end

end Push

/-! ## All calls -/

theorem bitsOf_cons (r : BitRun) (rs : List BitRun) : bitsOf (r :: rs) = r.width + bitsOf rs := by
  simp [bitsOf]

theorem bitsOf_nonneg (rs : List BitRun) : 0 ≤ bitsOf rs := by
  refine List.sum_nonneg ?_
  rintro width hwidth
  obtain ⟨r, -, rfl⟩ := List.mem_map.1 hwidth
  exact Int.le_trans (by decide) r.pos

namespace Canvas

section

variable {c : Canvas} {start : Int}

theorem leftBy_cons (p : Push) (ps : List Push) : c.leftBy (p :: ps) = p.after.leftBy ps := rfl

/-- The calls for a run and for those behind it: the drawing goes on where the first call leaves the
canvas, or it ends with the first run. -/
theorem pushes_cons (hc : c.bitOffset = .int start) (r : BitRun) (rs : List BitRun) :
    (∃ p : Push, p.before = c ∧ p.run = r ∧ p.Outcome start ∧ ¬RefusalOverlong start r.width ∧
        c.pushes (r :: rs) = (p.after.pushes rs).cons p) ∨
      c.pushes (r :: rs) = ⟨[], some .longNumber⟩ ∧ RefusalOverlong start r.width := by
  rcases push_outcome hc r with ⟨p, hpush, hbefore, hrun, houtcome, hworded⟩ | ⟨hpush, hlong⟩
  · exact .inl ⟨p, hbefore, hrun, houtcome, hworded, by rw [pushes, hpush]⟩
  · exact .inr ⟨by rw [pushes, hpush], hlong⟩

/-- The bit at which the canvas is behind one call, told from the bit before it. -/
theorem bitOffset_after_push {p : Push} (hc : c.bitOffset = .int start) (hbefore : p.before = c)
    (h : p.Outcome start) :
    p.after.bitOffset = .int (start + if ¬p.IsRefused then p.run.width else 0) :=
  h.bitOffset_after (hbefore ▸ hc)

theorem map_run_calls (hc : c.bitOffset = .int start) (rs : List BitRun) :
    (c.pushes rs).calls.map Push.run = rs.take (c.pushes rs).calls.length := by
  induction rs generalizing c start with
  | nil => rfl
  | cons r rs ih =>
    rcases pushes_cons hc r rs with ⟨p, hbefore, hrun, h, -, hpushes⟩ | ⟨hpushes, -⟩
    · rw [hpushes, Pushes.calls_cons, List.map_cons, List.length_cons, List.take_succ_cons, hrun,
        ih (bitOffset_after_push hc hbefore h)]
    · rw [hpushes]
      rfl

theorem before_of_getElem?_calls (hc : c.bitOffset = .int start) {rs : List BitRun} {k : Nat}
    {p : Push} (hp : (c.pushes rs).calls[k]? = some p) :
    p.before = c.leftBy ((c.pushes rs).calls.take k) := by
  induction rs generalizing c start k with
  | nil => cases hp
  | cons r rs ih =>
    rcases pushes_cons hc r rs with ⟨q, hbefore, -, h, -, hpushes⟩ | ⟨hpushes, -⟩
    · rw [hpushes, Pushes.calls_cons] at hp ⊢
      cases k with
      | zero =>
        obtain rfl := Option.some.inj hp
        exact hbefore
      | succ k =>
        rw [List.take_succ_cons, leftBy_cons]
        exact ih (bitOffset_after_push hc hbefore h) hp
    · rw [hpushes] at hp
      cases hp

/-- Every one of the calls is made at some bit, and comes to what one call can come to. -/
theorem outcome_of_mem_calls (hc : c.bitOffset = .int start) {rs : List BitRun} {p : Push}
    (hp : p ∈ (c.pushes rs).calls) :
    ∃ bit, p.before.bitOffset = .int bit ∧ p.Outcome bit ∧ ¬RefusalOverlong bit p.run.width := by
  induction rs generalizing c start with
  | nil => cases hp
  | cons r rs ih =>
    rcases pushes_cons hc r rs with ⟨q, hbefore, hrun, h, hworded, hpushes⟩ | ⟨hpushes, -⟩
    · rw [hpushes, Pushes.calls_cons, List.mem_cons] at hp
      rcases hp with rfl | hp
      · exact ⟨start, hbefore ▸ hc, h, hrun ▸ hworded⟩
      · exact ih (bitOffset_after_push hc hbefore h) hp
    · rw [hpushes] at hp
      cases hp

/-- **Where the canvas is behind all calls.** -/
theorem bitOffset_leftBy (hc : c.bitOffset = .int start) (rs : List BitRun) :
    (c.leftBy (c.pushes rs).calls).bitOffset = .int (start +
      bitsOf (((c.pushes rs).calls.filter fun p => ¬p.IsRefused).map Push.run)) := by
  induction rs generalizing c start with
  | nil => simpa [leftBy, pushes, bitsOf] using hc
  | cons r rs ih =>
    rcases pushes_cons hc r rs with ⟨p, hbefore, -, h, -, hpushes⟩ | ⟨hpushes, -⟩
    · have hafter := bitOffset_after_push hc hbefore h
      rw [hpushes, Pushes.calls_cons, leftBy_cons, ih hafter]
      by_cases hmoves : ¬p.IsRefused
      · rw [if_pos hmoves, List.filter_cons_of_pos (by simpa using hmoves), List.map_cons,
          bitsOf_cons, Int.add_assoc]
      · rw [if_neg hmoves, List.filter_cons_of_neg (by simpa using hmoves), Int.add_zero]
    · simpa [hpushes, leftBy, bitsOf] using hc

/-- **How many cells there are behind all calls.** -/
theorem length_cells_leftBy (hc : c.bitOffset = .int start) (rs : List BitRun) :
    (c.leftBy (c.pushes rs).calls).cells.length =
      c.cells.length + (c.pushes rs).calls.countP fun p => p.error.isNone := by
  induction rs generalizing c start with
  | nil => rfl
  | cons r rs ih =>
    rcases pushes_cons hc r rs with ⟨p, hbefore, -, h, -, hpushes⟩ | ⟨hpushes, -⟩
    · have hone := h.length_cells
      rw [hbefore] at hone
      rw [hpushes, Pushes.calls_cons, leftBy_cons, ih (bitOffset_after_push hc hbefore h), hone,
        List.countP_cons]
      omega
    · rw [hpushes]
      rfl

theorem ending_eq_none_iff (hc : c.bitOffset = .int start) (rs : List BitRun) :
    (c.pushes rs).ending = none ↔ (c.pushes rs).calls.length = rs.length := by
  induction rs generalizing c start with
  | nil => exact iff_of_true rfl rfl
  | cons r rs ih =>
    rcases pushes_cons hc r rs with ⟨p, hbefore, -, h, -, hpushes⟩ | ⟨hpushes, -⟩
    · rw [hpushes, Pushes.calls_cons, Pushes.ending_cons, List.length_cons, List.length_cons,
        ih (bitOffset_after_push hc hbefore h)]
      omega
    · rw [hpushes]
      exact iff_of_false (by simp) (by simp)

/-- **Why a drawing ends early**: the run that follows on the calls has no place, and its refusal
cannot be put into words. -/
theorem overlong_of_ending (hc : c.bitOffset = .int start) {rs : List BitRun} {e : Failure}
    (he : (c.pushes rs).ending = some e) :
    e = .longNumber ∧ ∃ r, rs[(c.pushes rs).calls.length]? = some r ∧
      RefusalOverlong (c.leftBy (c.pushes rs).calls).bitOffset.truncate r.width := by
  induction rs generalizing c start with
  | nil => cases he
  | cons r rs ih =>
    rcases pushes_cons hc r rs with ⟨p, hbefore, -, h, -, hpushes⟩ | ⟨hpushes, hlong⟩
    · rw [hpushes] at he ⊢
      exact ih (bitOffset_after_push hc hbefore h) he
    · rw [hpushes] at he ⊢
      refine ⟨(Option.some.inj he).symm, r, rfl, ?_⟩
      have hleft : (c.leftBy []).bitOffset = .int start := hc
      rw [hleft]
      exact hlong

theorem ending_of_isWritable (hc : c.bitOffset = .int start) {rs : List BitRun} {total : Int}
    (hstart : 0 ≤ start) (htotal : start + bitsOf rs ≤ total)
    (hwritable : (Number.int total).isWritable = true) : (c.pushes rs).ending = none := by
  induction rs generalizing c start with
  | nil => rfl
  | cons r rs ih =>
    have hwidth := r.pos
    have hrest := bitsOf_nonneg rs
    rw [bitsOf_cons] at htotal
    rcases pushes_cons hc r rs with ⟨p, hbefore, hrun, h, -, hpushes⟩ | ⟨-, hlong⟩
    · rw [hpushes]
      have hafter := bitOffset_after_push hc hbefore h
      rw [hrun] at hafter
      refine ih hafter ?_ ?_ <;> split <;> omega
    · exact absurd hlong
        (not_refusalOverlong_of_isWritable hstart hwidth (by omega) hwritable)

/-- **Only refused runs do not move the canvas on.**  Every run is drawn, passed over or refused,
one after the other, up to a refusal that cannot be put into words. -/
theorem keepsCount_pushes (hc : c.bitOffset = .int start) (rs : List BitRun) :
    c.KeepsCount start rs := by
  constructor
  case calls => exact map_run_calls hc rs
  case before => exact fun _ _ hp => before_of_getElem?_calls hc hp
  case refused =>
    intro p hp hrefused
    obtain ⟨bit, -, h, -⟩ := outcome_of_mem_calls hc hp
    exact h.after_of_isRefused hrefused
  case drawn =>
    intro p hp hnone
    obtain ⟨bit, hbit, h, -⟩ := outcome_of_mem_calls hc hp
    exact h.isDrawn hbit hnone
  case bitOffset => exact bitOffset_leftBy hc rs
  case cells => exact length_cells_leftBy hc rs
  case complete => exact ending_eq_none_iff hc rs
  case ending => exact fun _ he => overlong_of_ending hc he
  case worded =>
    intro p hp
    obtain ⟨bit, hbit, -, hworded⟩ := outcome_of_mem_calls hc hp
    rw [Push.firstBit, hbit]
    exact hworded
  case endless => exact fun hstart hwritable =>
    ending_of_isWritable hc hstart (Int.le_refl _) hwritable

end

/-- Runs that cross a row, fit, are whole rows, are none, and have too long a label. -/
def unevenRuns : List BitRun :=
  [⟨"a", some "s_a", 16, by decide⟩, ⟨"b", some "s_b", 8, by decide⟩,
    ⟨"c", none, 64, by decide⟩, ⟨"d", some "s_d", 40, by decide⟩,
    ⟨"status", some "s_status", 2, by decide⟩]

theorem keepsCount_unevenRuns :
    ({ bitOffset := .int 24 } : Canvas).bitOffset = .int 24 ∧
      ({ bitOffset := .int 24 } : Canvas).KeepsCount 24 unevenRuns :=
  ⟨rfl, keepsCount_pushes rfl unevenRuns⟩

end Canvas

end RegisterLayout
