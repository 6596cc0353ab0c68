import Mathlib.Data.List.Basic
import RegisterLayout.Diagram.Canvas

/-!
# The text of a cell

A cell of less than a row has one row of text, a cell of several rows one for each of them and one
for each border that it covers.  All rows of a cell are equally long; the label stands in the
middle of the one in the middle, and the others are blank.

Principal definitions: `cellLetters`, `centred`, `cellOf`, `Cell.Shows`.
Principal results: `padLabel_int`, `cellOf_shows`.
-/

namespace RegisterLayout

/-- The letters in a row of a cell: one for each bit and one between neighbours. -/
def cellLetters (bits : Int) : Int := 2 * min bits 32 - 1

theorem maxLetters_int (n : Int) :
    maxLetters ((Number.int n).min (.int rowBits)) = .int (cellLetters n) := by
  rw [Number.min_int]
  show Number.int (min n 32 * 2 + -1) = _
  rw [cellLetters, Int.mul_comm, Int.sub_eq_add_neg]

theorem cellLetters_le (n : Int) : cellLetters n ≤ 63 := by
  unfold cellLetters
  omega

theorem one_le_cellLetters {n : Int} (h : 1 ≤ n) : 1 ≤ cellLetters n := by
  unfold cellLetters
  omega

/-- Only a cell of some bits has room, be it for an empty label. -/
theorem one_le_of_fits {label : Text} {n : Int} (h : label.length ≤ cellLetters n) : 1 ≤ n := by
  unfold cellLetters at h
  omega

/-! ## Labels in the middle -/

/-- A label in the middle of a row; of an odd count of blanks, one more stands before it. -/
def centred (length : Nat) (label : Text) : Text :=
  Text.blanks ((length - label.length + 1) / 2) ++ label ++
    Text.blanks ((length - label.length) / 2)

theorem Text.length_blanks (n : Nat) : (Text.blanks n).length = n := List.length_replicate

theorem Text.blanks_succ (n : Nat) : Text.blanks (n + 1) = Text.blanks n ++ [.char ' '] :=
  List.replicate_succ'

theorem length_centred {length : Nat} {label : Text} (h : label.length ≤ length) :
    (centred length label).length = length := by
  simp only [centred, List.length_append, Text.length_blanks]
  omega

/-- Blanks that are added in turn end up on both sides in equal numbers; an odd one stands on the
side of the first. -/
theorem addBlanks_eq (n : Nat) (left : Bool) (s : Text) :
    addBlanks n left s =
      if left then Text.blanks ((n + 1) / 2) ++ s ++ Text.blanks (n / 2)
      else Text.blanks (n / 2) ++ s ++ Text.blanks ((n + 1) / 2) := by
  induction n generalizing left s with
  | zero => cases left <;> simp [addBlanks, Text.blanks]
  | succ n ih =>
    have hhalf : (n + 1 + 1) / 2 = n / 2 + 1 := by omega
    cases left with
    | true =>
      rw [addBlanks, ih, if_neg Bool.false_ne_true, if_pos rfl, hhalf, Text.blanks_succ]
      simp only [List.append_assoc, List.singleton_append]
    | false =>
      have hfeed : Text.blanks (n / 2 + 1) = .char ' ' :: Text.blanks (n / 2) :=
        List.replicate_succ
      rw [addBlanks, ih, if_neg Bool.false_ne_true, if_pos rfl, hhalf, hfeed]
      simp only [List.append_assoc]
      rfl

/-- **A label that fits is put in the middle.** -/
theorem padLabel_int {label : Text} {n : Int} (h : label.length ≤ cellLetters n) :
    padLabel label (.int n) = .ok (centred (cellLetters n).toNat label) := by
  have hfits : ¬(Number.int (cellLetters n)).lt (.int label.length) = true := by
    simpa using h
  have hblanks : ((Number.int (cellLetters n)).ceiling - label.length).toNat
      = (cellLetters n).toNat - label.length := by
    rw [Number.ceiling_int]
    omega
  simp only [padLabel, maxLetters_int, if_neg hfits, hblanks, addBlanks_eq, if_true]
  rfl

theorem padLabel_of_long {label : Text} {n : Int} (h : cellLetters n < label.length) :
    padLabel label (.int n) =
      .error (.ofCause label (.labelTooLong (.int (cellLetters n)))) := by
  have hlong : (Number.int (cellLetters n)).lt (.int label.length) = true := by
    simpa using h
  simp only [padLabel, maxLetters_int, if_pos hlong]

/-! ## Cells -/

namespace Canvas

theorem blankRows_succ (count : Nat) :
    blankRows (count + 1) =
      if count % 2 = 1 then
        ((blankRows count).1 ++ [blankCell rowBits], (blankRows count).2)
      else ((blankRows count).1, (blankRows count).2 ++ [blankCell rowBits]) := by
  rw [blankRows, List.range_succ, List.foldl_append]
  rfl

/-- An even number of blank rows is halved. -/
theorem blankRows_two_mul (n : Nat) :
    blankRows (2 * n) =
      (List.replicate n (blankCell rowBits), List.replicate n (blankCell rowBits)) := by
  induction n with
  | zero => rfl
  | succ n ih =>
    have hcount : 2 * (n + 1) = 2 * n + 1 + 1 := by omega
    have heven : ¬2 * n % 2 = 1 := by omega
    have hodd : (2 * n + 1) % 2 = 1 := by omega
    rw [hcount, blankRows_succ, if_pos hodd, blankRows_succ, if_neg heven, ih,
      List.replicate_succ']

/-- The label of a cell of whole rows stands between as many blank rows above as below. -/
theorem tallCell_eq (bits : Int) (middle : Text) :
    tallCell bits middle =
      List.replicate (bits.fdiv rowBits - 1).toNat (blankCell rowBits) ++ [middle] ++
        List.replicate (bits.fdiv rowBits - 1).toNat (blankCell rowBits) := by
  have hrows : (bits.fdiv rowBits * 2 - 1 - 1).toNat = 2 * (bits.fdiv rowBits - 1).toNat := by
    omega
  rw [tallCell, hrows, blankRows_two_mul]

end Canvas

/-- The text of a cell of some bits with a label. -/
def cellOf (label : Text) (bits : Int) : Cell :=
  let row := centred (cellLetters bits).toNat label
  if bits < 32 then [row] else Canvas.tallCell bits row

/-- A cell of some bits that shows a label. -/
structure Cell.Shows (cell : Cell) (label : Text) (bits : Int) : Prop where
  narrow : bits < 32 → cell.length = 1
  tall : ∀ rows : Nat, bits = 32 * rows → cell.length = 2 * rows - 1
  letters : ∀ row ∈ cell, (row.length : Int) = 2 * min bits 32 - 1
  /-- The label in the middle row, in the middle of blanks. -/
  middle : ∃ before after, cell[cell.length / 2]? =
    some (Text.blanks before ++ label ++ Text.blanks after) ∧ after ≤ before ∧ before ≤ after + 1
  blank : ∀ (k : Nat) (row : Text), k ≠ cell.length / 2 → cell[k]? = some row →
    row = Text.blanks row.length

theorem centred_eq (length : Nat) (label : Text) :
    ∃ before after, centred length label = Text.blanks before ++ label ++ Text.blanks after ∧
      after ≤ before ∧ before ≤ after + 1 :=
  ⟨_, _, rfl, by omega, by omega⟩

/-- The row of the label between as many blank rows above as below. -/
theorem cellOf_eq (label : Text) (bits : Int) :
    ∃ around, cellOf label bits =
        List.replicate around (Text.blanks (cellLetters bits).toNat) ++
          centred (cellLetters bits).toNat label ::
            List.replicate around (Text.blanks (cellLetters bits).toNat) ∧
      (bits < 32 → around = 0) ∧ ∀ rows : Nat, bits = 32 * rows → around = rows - 1 := by
  by_cases hnarrow : bits < 32
  · refine ⟨0, by simp [cellOf, hnarrow], fun _ => rfl, fun rows h => by omega⟩
  · have hletters : (cellLetters bits).toNat = 63 := by
      unfold cellLetters
      omega
    have haround : bits.fdiv rowBits - 1 = bits / 32 - 1 := by
      rw [rowBits, Int.fdiv_eq_ediv_of_nonneg _ (by decide)]
    refine ⟨(bits / 32 - 1).toNat, ?_, fun h => absurd h hnarrow, fun rows h => by omega⟩
    rw [hletters, cellOf, if_neg hnarrow, hletters, Canvas.tallCell_eq, haround, List.append_assoc,
      List.singleton_append]
    rfl

/-- **The cell of a label that fits shows it.** -/
theorem cellOf_shows {label : Text} {bits : Int} (hpos : 1 ≤ bits)
    (hfits : label.length ≤ cellLetters bits) : (cellOf label bits).Shows label bits := by
  have hletters : ((cellLetters bits).toNat : Int) = 2 * min bits 32 - 1 := by
    unfold cellLetters
    omega
  obtain ⟨around, hcell, hnarrow, htall⟩ := cellOf_eq label bits
  have hlength : (cellOf label bits).length = 2 * around + 1 := by
    rw [hcell, List.length_append, List.length_cons, List.length_replicate]
    omega
  have hmiddle : (cellOf label bits).length / 2 = around := by omega
  constructor
  case narrow =>
    intro h
    have := hnarrow h
    omega
  case tall =>
    intro rows h
    have := htall rows h
    omega
  case letters =>
    intro row hrow
    have hrowLength : row.length = (cellLetters bits).toNat := by
      rw [hcell, List.mem_append, List.mem_cons] at hrow
      rcases hrow with h | rfl | h
      · rw [List.eq_of_mem_replicate h, Text.length_blanks]
      · exact length_centred (by omega)
      · rw [List.eq_of_mem_replicate h, Text.length_blanks]
    rw [hrowLength, hletters]
  case middle =>
    obtain ⟨before, after, heq, hbalanced⟩ := centred_eq (cellLetters bits).toNat label
    refine ⟨before, after, ?_, hbalanced⟩
    rw [hmiddle, hcell, List.getElem?_append_right (by simp), List.length_replicate,
      Nat.sub_self, List.getElem?_cons_zero, heq]
  case blank =>
    intro k row hk hrow
    rw [hmiddle] at hk
    have hmem : row ∈ List.replicate around (Text.blanks (cellLetters bits).toNat) := by
      rw [hcell] at hrow
      by_cases habove : k < around
      · rw [List.getElem?_append_left (by simpa using habove)] at hrow
        exact List.mem_of_getElem? hrow
      · obtain ⟨j, rfl⟩ : ∃ j, k = around + (j + 1) := ⟨k - around - 1, by omega⟩
        rw [List.getElem?_append_right (by simp), List.length_replicate,
          Nat.add_sub_cancel_left, List.getElem?_cons_succ] at hrow
        exact List.mem_of_getElem? hrow
    rw [List.eq_of_mem_replicate hmem, Text.length_blanks]

end RegisterLayout
