import Mathlib.Algebra.Order.Ring.Int
import Mathlib.Data.Nat.Find
import RegisterLayout.Proofs.Offsets

/-!
# Alignment classes

The alignment of a node is found by doubling a power of two as long as it divides the offset, and
the check of a word divides the offset by the bytes of the word.  The two agree: the alignment is
the largest power of two up to 64 that divides the offset, so that a word that may stand somewhere
also divides its alignment there.

Principal definitions: `IsAlignmentOf`, `Field.AlignedAt`.
Principal results: `alignmentAt_int` — the search is for the greatest exponent;
`isAlignmentOf_iff`, `IsAlignmentOf.pow_dvd_iff`, `Field.resolve_alignedAt`.
-/

namespace RegisterLayout

/-! ## The largest power of two that divides an offset -/

/-- The exponent of the greatest alignment. -/
def maxAlignExponent : Nat := 6

/-- The largest power of two up to 64 that divides an offset. -/
structure IsAlignmentOf (a n : Int) : Prop where
  power : ∃ k : Nat, a = 2 ^ k
  le : a ≤ 64
  dvd : a ∣ n
  largest : ∀ k : Nat, (2 : Int) ^ k ≤ 64 → 2 ^ k ∣ n → 2 ^ k ≤ a

theorem pow_le_sixtyFour_iff {k : Nat} : (2 : Int) ^ k ≤ 64 ↔ k ≤ maxAlignExponent :=
  pow_le_pow_iff_right₀ (by decide : (1 : Int) < 2) (n := k) (m := maxAlignExponent)

/-- Of powers of two, the one with the greater exponent is a multiple of the other. -/
theorem pow_dvd_of_pow_le {j k : Nat} (h : (2 : Int) ^ j ≤ 2 ^ k) : (2 : Int) ^ j ∣ 2 ^ k :=
  pow_dvd_pow 2 ((pow_le_pow_iff_right₀ (by decide)).1 h)

/-- The largest power is the one that cannot be doubled. -/
theorem isAlignmentOf_iff {a n : Int} :
    IsAlignmentOf a n ↔
      (∃ k : Nat, a = 2 ^ k) ∧ a ≤ 64 ∧ a ∣ n ∧ (a = 64 ∨ ¬2 * a ∣ n) := by
  constructor
  · rintro ⟨⟨k, rfl⟩, hle, hdvd, hlargest⟩
    refine ⟨⟨k, rfl⟩, hle, hdvd, ?_⟩
    by_contra hdouble
    obtain ⟨hne, htwice⟩ := not_or.1 hdouble
    have hk : k < maxAlignExponent := by
      refine lt_of_le_of_ne (pow_le_sixtyFour_iff.1 hle) ?_
      rintro rfl
      exact hne rfl
    have hnext : (2 : Int) ^ (k + 1) ≤ 2 ^ k :=
      hlargest (k + 1) (pow_le_sixtyFour_iff.2 hk) (by rw [pow_succ']; exact not_not.1 htwice)
    have hpos : (0 : Int) < 2 ^ k := Int.pow_pos (by decide)
    rw [pow_succ'] at hnext
    omega
  · rintro ⟨⟨k, rfl⟩, hle, hdvd, hdouble⟩
    refine ⟨⟨k, rfl⟩, hle, hdvd, fun j hj hjdvd => ?_⟩
    rcases hdouble with hmax | hdouble
    · exact hmax ▸ hj
    · by_contra hlt
      -- A larger power that divides the offset is a multiple of twice this one.
      have hkj : k + 1 ≤ j := by
        have := (pow_lt_pow_iff_right₀ (by decide : (1 : Int) < 2)).1 (not_le.1 hlt)
        omega
      apply hdouble
      rw [← pow_succ']
      exact (pow_dvd_pow 2 hkj).trans hjdvd

/-- **A power of two divides an offset exactly if it divides the alignment.** -/
theorem IsAlignmentOf.pow_dvd_iff {a n : Int} (h : IsAlignmentOf a n) {k : Nat}
    (hk : (2 : Int) ^ k ≤ 64) : (2 : Int) ^ k ∣ n ↔ (2 : Int) ^ k ∣ a := by
  constructor
  · intro hdvd
    obtain ⟨m, rfl⟩ := h.power
    exact pow_dvd_of_pow_le (h.largest k hk hdvd)
  · intro hdvd
    exact hdvd.trans h.dvd

/-! ## The search for it -/

/-- The powers of two that are tried. -/
theorem powers_eq :
    ([1, 2, 4, 8, 16, 32, 64] : List Int)
      = (List.range (maxAlignExponent + 1)).map fun k => (2 : Int) ^ k := rfl

/-- A test that fails from some number on passes the numbers below. -/
theorem takeWhile_range {p : Nat → Bool} {count bound : Nat} (hle : count ≤ bound)
    (hpass : ∀ k < count, p k = true) (hfail : count < bound → p count = false) :
    (List.range bound).takeWhile p = List.range count := by
  have hsplit : List.range bound
      = List.range count ++ (List.range (bound - count)).map (count + ·) := by
    rw [← List.range_add, Nat.add_sub_cancel' hle]
  rw [hsplit, List.takeWhile_append_of_pos (by simpa using hpass)]
  rcases Nat.eq_zero_or_pos (bound - count) with hnone | hsome
  · simp [hnone]
  · obtain ⟨more, hmore⟩ := Nat.exists_eq_succ_of_ne_zero hsome.ne'
    have hstop : ¬p (count + 0) = true := by simp [hfail (by omega)]
    rw [hmore, List.range_succ_eq_map, List.map_cons, List.takeWhile_cons_of_neg hstop,
      List.append_nil]

/-- The alignment is the power with the greatest exponent that divides. -/
theorem alignmentAt_int (n : Int) :
    alignmentAt (.int n)
      = 2 ^ Nat.findGreatest (fun k => (2 : Int) ^ k ∣ n) maxAlignExponent := by
  set k := Nat.findGreatest (fun k => (2 : Int) ^ k ∣ n) maxAlignExponent
  have hdvd : (2 : Int) ^ k ∣ n :=
    Nat.findGreatest_spec (P := fun k => (2 : Int) ^ k ∣ n) (Nat.zero_le _) (one_dvd n)
  have htaken : (List.range (maxAlignExponent + 1)).takeWhile
      (fun k => ((Number.int n).mod (2 ^ k)).isZero) = List.range (k + 1) := by
    refine takeWhile_range (Nat.succ_le_succ (Nat.findGreatest_le _)) ?_ ?_
    · intro j hj
      rw [Number.isZero_mod_int (pow_nonneg (by decide) _), decide_eq_true_eq]
      exact (pow_dvd_pow 2 (Nat.le_of_lt_succ hj)).trans hdvd
    · intro hlt
      rw [Number.isZero_mod_int (pow_nonneg (by decide) _), decide_eq_false_iff_not]
      exact Nat.findGreatest_is_greatest (Nat.lt_succ_self k) (Nat.le_of_lt_succ hlt)
  rw [alignmentAt, powers_eq, List.takeWhile_map]
  show (List.getLast? (((List.range (maxAlignExponent + 1)).takeWhile
    fun k => ((Number.int n).mod (2 ^ k)).isZero).map fun k => (2 : Int) ^ k)).getD 0 = 2 ^ k
  rw [htaken, List.range_succ, List.map_append, List.map_singleton, List.getLast?_concat,
    Option.getD_some]

/-- **The alignment at an offset is the largest power of two up to 64 that divides it.** -/
theorem isAlignmentOf_alignmentAt (n : Int) : IsAlignmentOf (alignmentAt (.int n)) n := by
  rw [alignmentAt_int]
  constructor
  case power => exact ⟨_, rfl⟩
  case le => exact pow_le_sixtyFour_iff.2 (Nat.findGreatest_le _)
  case dvd =>
    exact Nat.findGreatest_spec (P := fun k => (2 : Int) ^ k ∣ n) (Nat.zero_le _) (one_dvd n)
  case largest =>
    intro k hk hdvd
    exact pow_le_pow_right₀ (by decide)
      (Nat.le_findGreatest (pow_le_sixtyFour_iff.1 hk) hdvd)

/-- Any power of two divides the offset of a root. -/
theorem IsAlignmentOf.eq_of_zero {a : Int} (h : IsAlignmentOf a 0) : a = 64 :=
  le_antisymm h.le (h.largest maxAlignExponent le_rfl (dvd_zero _))

/-! ## Words -/

/-- The bytes of a word are a power of two. -/
theorem exists_pow_of_mem_wordWidths {n : Int} (hn : n ∈ wordWidths) :
    ∃ k : Nat, n / 8 = 2 ^ k ∧ (2 : Int) ^ k ≤ 64 := by
  simp only [wordWidths, List.mem_cons, List.not_mem_nil, or_false] at hn
  rcases hn with rfl | rfl | rfl | rfl
  · exact ⟨0, by decide, by decide⟩
  · exact ⟨1, by decide, by decide⟩
  · exact ⟨2, by decide, by decide⟩
  · exact ⟨3, by decide, by decide⟩

/-- A word may stand at an offset exactly if its bytes divide the alignment there. -/
theorem IsAlignmentOf.word_dvd_iff {a start n : Int} (h : IsAlignmentOf a start)
    (hn : n ∈ wordWidths) : n / 8 ∣ start ↔ n / 8 ∣ a := by
  obtain ⟨k, hbytes, hk⟩ := exists_pow_of_mem_wordWidths hn
  rw [hbytes]
  exact h.pow_dvd_iff hk

/-! ## Trees -/

/-- A node that carries an alignment. -/
def Header.AlignedTo (h : Header) (a : Int) : Prop := h.position.align = some (.int a)

theorem alignedTo_locatedItems {path : Path} {index : Nat} {start endBit : Int}
    {items : List Item} :
    ∀ i ∈ locatedItems path (.int start) index endBit items,
      i.header.AlignedTo (alignmentAt (.int start)) := by
  induction items generalizing index endBit with
  | nil => exact List.forall_mem_nil _
  | cons i rest ih =>
    rw [locatedItems, List.forall_mem_cons]
    exact ⟨rfl, ih⟩

namespace Field

/-- A node at a byte offset with the alignment of the offset, which its items share and which the
bytes of a word divide. -/
structure AlignedAt (f : Field) (start a : Int) : Prop where
  offset : f.header.StandsAt start
  align : f.header.AlignedTo a
  largest : IsAlignmentOf a start
  items : ∀ b, f = bitfield b → ∀ i ∈ b.items, i.header.StandsAt start ∧ i.header.AlignedTo a
  word : ∀ w, f = word w → w.bits.whole / 8 ∣ a

theorem Placeable.alignedAt_root {f : Field} {start : Int} (h : f.Placeable start) (path : Path)
    (index : Nat) :
    (f.located path index start).AlignedAt start (alignmentAt (.int start)) := by
  constructor
  case offset => exact standsAt_located f path index start
  case align =>
    rw [header_located]
    rfl
  case largest => exact isAlignmentOf_alignmentAt start
  case items =>
    intro b heq
    cases f with
    | bitfield b' =>
      obtain rfl := bitfield.inj heq
      exact fun i hi => ⟨standsAt_locatedItems i hi, alignedTo_locatedItems i hi⟩
    | _ => cases heq
  case word =>
    intro w heq
    cases f with
    | word w' =>
      obtain rfl := word.inj heq
      have hword : w'.Admissible start := h.kind
      exact ((isAlignmentOf_alignmentAt start).word_dvd_iff hword.width).1 hword.aligned
    | _ => cases heq

theorem alignedAt_of_resolve {raw root : Field} (hraw : raw.SizesWhole)
    (h : raw.resolve = .ok root) : ∀ g ∈ root.nodes, ∃ start a, g.AlignedAt start a :=
  forall_mem_nodes_of_resolve
    (fun _ path index start h _ => ⟨start, _, h.alignedAt_root path index⟩) hraw h

/-- **Every node of an accepted tree carries the alignment of its offset**: the largest power of
two up to 64 that divides the offset, which is 64 at the start.  At any offset that is the power
found by doubling one until it no longer divides. -/
theorem resolve_alignedAt {raw root : Field} (hraw : raw.SizesWhole) (h : raw.resolve = .ok root) :
    (∀ g ∈ root.nodes, ∃ start a, g.AlignedAt start a ∧ (start = 0 → a = 64)) ∧
      ∀ n : Nat, IsAlignmentOf (alignmentAt (.int n)) n ∧
        (alignmentAt (.int n) = 64 ∨ ¬2 * alignmentAt (.int n) ∣ n) := by
  constructor
  · intro g hg
    obtain ⟨start, a, haligned⟩ := alignedAt_of_resolve hraw h g hg
    refine ⟨start, a, haligned, ?_⟩
    rintro rfl
    exact haligned.largest.eq_of_zero
  · intro n
    have hlargest := isAlignmentOf_alignmentAt n
    obtain ⟨-, -, -, hdouble⟩ := isAlignmentOf_iff.1 hlargest
    exact ⟨hlargest, hdouble⟩

/-- Words and a bit field behind blobs that fill 64 bytes and some more. -/
def steppedRoot : Field :=
  struct { name := some (.str "r") }
    [blob { header := { name := some (.str "page") }, bytes := 64 },
      word { header := { name := some (.str "a") }, bits := 64 },
      bitfield { header := { name := some (.str "b") }, bits := 16,
                 items := [{ bits := 9 }, { bits := 7 }] },
      union { name := some (.str "u") }
        [word { header := { name := some (.str "v") }, bits := 16 },
          blob { bytes := 3, decl := some (.str "T t") }]]

theorem resolve_alignedAt_steppedRoot :
    steppedRoot.SizesWhole ∧ ∃ root, steppedRoot.resolve = .ok root ∧
      (∀ g ∈ root.nodes, ∃ start a, g.AlignedAt start a ∧ (start = 0 → a = 64)) ∧
      ∀ n : Nat, IsAlignmentOf (alignmentAt (.int n)) n ∧
        (alignmentAt (.int n) = 64 ∨ ¬2 * alignmentAt (.int n) ∣ n) := by
  have hwhole : steppedRoot.SizesWhole := by decide
  have hresolve : steppedRoot.resolve = .ok (steppedRoot.located [] 0 0) := rfl
  exact ⟨hwhole, _, hresolve, resolve_alignedAt hwhole hresolve⟩

end Field

end RegisterLayout
