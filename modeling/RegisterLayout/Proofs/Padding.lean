import RegisterLayout.Declaration.Basic
import RegisterLayout.Proofs.EntryDrawing
import RegisterLayout.Proofs.Misfit

/-!
# White space that sets a text in its place

A label has blanks on both sides of it to the length of its cell, and what stands in a line before
a column has tabs behind it up to the column.  In either case the texts themselves stay as they are,
and white space is all that is added: as much as is missing, which is never more than a label leaves
free, and one blank where the column has been reached already.

Principal definitions: `Text.Fills`, `endColumn`, `IsIndented`.
Principal results: `padLabel_fills`, `tabbed_setsColumn`.
-/

namespace RegisterLayout

/-! ## Labels in cells -/

/-- A row of some length with a label in the middle: of an odd count of blanks one more stands
before the label. -/
structure Text.Fills (row label : Text) (length : Int) : Prop where
  fits : (row.length : Int) = length
  middle : ∃ missing : Nat, label.length + missing = length ∧
    row = Text.blanks ((missing + 1) / 2) ++ label ++ Text.blanks (missing / 2)

theorem centred_fills {label : Text} {length : Int} (h : label.length ≤ length) :
    (centred length.toNat label).Fills label length where
  fits := by
    rw [length_centred (by omega)]
    omega
  middle := ⟨length.toNat - label.length, by omega, rfl⟩

section

variable {label : Text} {n : Int}

theorem padLabel_hasKind (hn : 0 < n) (h : cellLetters n < label.length) :
    ∃ e, padLabel label (.int n) = .error e ∧ e.HasKind .labelsExhausted := by
  have hroom := one_le_cellLetters hn
  have hletters : (Number.int (cellLetters n)).isWritable = true :=
    isWritable_of_le (by omega) (Int.le_trans (cellLetters_le n) (by decide))
  have hkind := @ofNode_hasKind (some label) (.labelTooLong (.int (cellLetters n)))
    ((isWritable_single rfl).2 hletters)
  exact ⟨_, padLabel_of_long h, hkind⟩

/-- **A label is refused exactly if it is longer than its cell, and it is in the middle of its cell
otherwise.**  A cell of at most a row is as long as its bits and the borders between them, and
without a label it is blank. -/
theorem padLabel_fills (label : Text) (hn : 0 < n) :
    ((∃ e, padLabel label (.int n) = .error e ∧ e.HasKind .labelsExhausted) ↔
      2 * min n 32 - 1 < label.length) ∧
    (label.length ≤ 2 * min n 32 - 1 →
      ∃ row, padLabel label (.int n) = .ok row ∧ row.Fills label (2 * min n 32 - 1)) ∧
    (n ≤ 32 →
      (∀ row, padLabel label (.int n) = .ok row → .int row.length = maxLetters (.int n)) ∧
      padLabel [] (.int n) = .ok (blankCell n)) := by
  refine ⟨⟨fun ⟨e, he, _⟩ => ?_, padLabel_hasKind hn⟩, fun h => ?_, fun hnarrow => ⟨?_, ?_⟩⟩
  · by_contra hle
    rw [padLabel_int (Int.not_lt.1 hle)] at he
    cases he
  · exact ⟨_, padLabel_int h, centred_fills h⟩
  · intro row hrow
    have hletters : maxLetters (.int n) = .int (cellLetters n) := by
      rw [← maxLetters_int, Number.min_int, rowBits, Int.min_eq_left hnarrow]
    have hle : label.length ≤ cellLetters n := by
      by_contra hlong
      rw [padLabel_of_long (Int.not_le.1 hlong)] at hrow
      cases hrow
    obtain rfl := Except.ok.inj ((padLabel_int hle).symm.trans hrow)
    rw [hletters, (centred_fills hle).fits]
  · have hempty : ([] : Text).length ≤ cellLetters n :=
      Int.le_trans (by decide) (one_le_cellLetters hn)
    have hlength : (cellLetters n).toNat = (n * 2 - 1).toNat := by
      unfold cellLetters
      omega
    have hblank : ∀ m, centred m [] = Text.blanks m := by
      intro m
      rw [centred, List.append_nil, Text.blanks, Text.blanks, List.replicate_append_replicate]
      congr 1
      rw [List.length_nil]
      omega
    rw [padLabel_int hempty, hblank, blankCell, hlength]

theorem padLabel_fills_nibble :
    (0 : Int) < 4 ∧ padLabel "mode" (.int 4) = .ok "  mode " ∧
      (∃ row, padLabel "mode" (.int 4) = .ok row ∧ row.Fills "mode" 7) ∧
      padLabel [] (.int 4) = .ok (blankCell 4) ∧
      ∃ e, padLabel "selected" (.int 4) = .error e ∧ e.HasKind .labelsExhausted := by
  obtain ⟨-, hfills, hnarrow⟩ := @padLabel_fills 4 "mode" (by decide)
  obtain ⟨hrefused, -, -⟩ := @padLabel_fills 4 "selected" (by decide)
  exact ⟨by decide, rfl, hfills (by decide), (hnarrow (by decide)).2, hrefused.2 (by decide)⟩

end

/-! ## Columns with tabs -/

/-- The column at which a text ends that begins at some column: a tab goes on to the next multiple
of eight, and anything else takes one column. -/
def endColumn (start : Nat) (s : Text) : Nat :=
  s.foldl (fun column c => if c = .char '\t' then (column / 8 + 1) * 8 else column + 1) start

/-- A text without tabs behind any number of them. -/
def IsIndented (s : Text) : Prop :=
  ∃ (tabs : Nat) (rest : Text), .char '\t' ∉ rest ∧ s = List.replicate tabs (.char '\t') ++ rest

theorem endColumn_append (start : Nat) (s t : Text) :
    endColumn start (s ++ t) = endColumn (endColumn start s) t :=
  List.foldl_append

/-- Tabs behind a column: the first goes to the next stop, and every other eight columns on. -/
theorem endColumn_replicate (start tabs : Nat) :
    endColumn start (List.replicate (tabs + 1) (.char '\t')) = (start / 8 + 1 + tabs) * 8 := by
  induction tabs with
  | zero => rfl
  | succ tabs ih =>
    rw [List.replicate_succ', endColumn_append, ih]
    show ((start / 8 + 1 + tabs) * 8 / 8 + 1) * 8 = _
    omega

theorem endColumn_concat {c : CodePoint} (hc : c ≠ .char '\t') (start : Nat) (s : Text) :
    endColumn start (s ++ [c]) = endColumn start s + 1 := by
  rw [endColumn_append]
  exact if_neg hc

theorem lengthWithTabs_concat (s : Text) (c : CodePoint) :
    lengthWithTabs (s ++ [c]) = lengthWithTabs s + if c = .char '\t' then 8 else 1 :=
  List.foldl_append

theorem lengthWithTabs_replicate (tabs : Nat) :
    lengthWithTabs (List.replicate tabs (.char '\t')) = tabs * 8 := by
  induction tabs with
  | zero => rfl
  | succ tabs ih =>
    rw [List.replicate_succ', lengthWithTabs_concat, ih, if_pos rfl]
    omega

/-- Where only leading tabs are, counting eight columns for every tab gives the column. -/
theorem lengthWithTabs_eq_endColumn {left : Text} (h : IsIndented left) :
    lengthWithTabs left = endColumn 0 left := by
  obtain ⟨tabs, rest, hrest, rfl⟩ := h
  induction rest using List.reverseRecOn with
  | nil =>
    rw [List.append_nil, lengthWithTabs_replicate]
    cases tabs with
    | zero => rfl
    | succ tabs =>
      rw [endColumn_replicate]
      omega
  | append_singleton rest c ih =>
    rw [List.mem_append, List.mem_singleton, not_or] at hrest
    have hc : c ≠ .char '\t' := Ne.symm hrest.2
    rw [← List.append_assoc, lengthWithTabs_concat, endColumn_concat hc, ih hrest.1, if_neg hc]

/-- **The second text begins at its column**, if the first ends before it, and one blank behind the
first otherwise. -/
theorem tabbed_setsColumn {left : Text} (h : IsIndented left) (right : Text) :
    (endColumn 0 left < 56 → ∃ tabs : Nat,
      tabbed left right = left ++ List.replicate tabs (.char '\t') ++ right ∧
      endColumn 0 (left ++ List.replicate tabs (.char '\t')) = 56) ∧
    (56 ≤ endColumn 0 left → tabbed left right = left ++ " " ++ right) := by
  have hreached : lengthWithTabs left / tabWidth = endColumn 0 left / 8 := by
    rw [lengthWithTabs_eq_endColumn h, tabWidth]
  have hstops : tabColumn / tabWidth = 7 := rfl
  constructor
  · intro hbefore
    -- At least one tab is missing, and it goes to the stop behind the one that has been reached.
    obtain ⟨more, hmore⟩ : ∃ more, 7 - endColumn 0 left / 8 = more + 1 :=
      ⟨7 - endColumn 0 left / 8 - 1, by omega⟩
    refine ⟨more + 1, ?_, ?_⟩
    · rw [tabbed, columnGap, hreached, hstops, if_pos (by omega), hmore]
    · rw [endColumn_append, endColumn_replicate]
      omega
  · intro hbehind
    rw [tabbed, columnGap, hreached, hstops, if_neg (by omega)]

/-- The beginning of a line for a constant. -/
def constantStart : Text := "\tPKT_MODE_OFF"

theorem tabbed_setsColumn_constantStart :
    IsIndented constantStart ∧ endColumn 0 constantStart = 20 ∧
      (∃ tabs : Nat,
        tabbed constantStart "= 0," =
          constantStart ++ List.replicate tabs (.char '\t') ++ ("= 0," : Text) ∧
        endColumn 0 (constantStart ++ List.replicate tabs (.char '\t')) = 56) ∧
      tabbed constantStart "= 0," = "\tPKT_MODE_OFF\t\t\t\t\t= 0," := by
  have hindented : IsIndented constantStart := ⟨1, "PKT_MODE_OFF", by decide, rfl⟩
  exact ⟨hindented, rfl, (tabbed_setsColumn hindented "= 0,").1 (by decide), rfl⟩

end RegisterLayout
