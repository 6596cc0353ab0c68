import Mathlib.Algebra.Order.Group.Int
import Mathlib.Data.List.Chain

/-!
# Natural alignment

How a compiler lays out a struct that says nothing about its layout: every member goes to the next
multiple of its alignment.  A word is aligned to its size, an array of bytes to nothing, and a
union to the strictest of its members, up to which its size is rounded as well.

Principal definitions: `alignUp`, `CType`, `CType.align`, `CType.size`, `CType.spans`.
Principal results: `alignUp_le_iff` — the next multiple is the least; `CType.sizeAll_le_iff`.
-/

namespace RegisterLayout

/-- The next multiple of an alignment. -/
def alignUp (x align : Int) : Int := x + -x % align

section

variable {x y a : Int}

theorem le_alignUp (ha : 0 < a) : x ≤ alignUp x a := by
  have hrem := Int.emod_nonneg (-x) (by omega : a ≠ 0)
  unfold alignUp
  omega

theorem dvd_alignUp : a ∣ alignUp x a := by
  have hdiv := Int.emod_add_mul_ediv (-x) a
  refine ⟨-(-x / a), ?_⟩
  rw [alignUp, Int.mul_neg]
  omega

theorem alignUp_lt (ha : 0 < a) : alignUp x a < x + a := by
  have hrem := Int.emod_lt_of_pos (-x) ha
  unfold alignUp
  omega

theorem alignUp_eq_self_iff : alignUp x a = x ↔ a ∣ x := by
  constructor
  · intro h
    exact h ▸ dvd_alignUp
  · intro h
    rw [alignUp, Int.emod_eq_zero_of_dvd (Int.dvd_neg.2 h), Int.add_zero]

theorem alignUp_le_iff (ha : 0 < a) (hy : a ∣ y) : alignUp x a ≤ y ↔ x ≤ y := by
  constructor
  · exact Int.le_trans (le_alignUp ha)
  · intro hxy
    by_contra hlt
    -- Two multiples of `a` with one above the other are at least `a` apart.
    have hstep : a ≤ alignUp x a - y :=
      Int.le_of_dvd (by omega) (Int.dvd_sub dvd_alignUp hy)
    have hnear := @alignUp_lt x a ha
    omega

end

/-- A type of a member, as far as its layout depends on it. -/
inductive CType where
  | word (bits : Int)
  | bytes (count : Int)
  | union (members : List CType)

namespace CType

mutual

def align : CType → Int
  | word bits => bits / 8
  | bytes _ => 1
  | union members => alignAll members
termination_by structural t => t

/-- The strictest alignment of the members of a union. -/
def alignAll : List CType → Int
  | [] => 1
  | t :: ts => max (align t) (alignAll ts)
termination_by structural ts => ts

end

mutual

/-- The size in bytes. -/
def size : CType → Int
  | word bits => bits / 8
  | bytes count => count
  | union members => alignUp (sizeAll members) (alignAll members)
termination_by structural t => t

/-- The size of the largest member of a union. -/
def sizeAll : List CType → Int
  | [] => 0
  | t :: ts => max (size t) (sizeAll ts)
termination_by structural ts => ts

end

/-- Where a member begins, and where it ends. -/
structure Span where
  start : Int
  stop : Int
  deriving DecidableEq

/-- The members of a struct, the first of which goes to an offset or behind it. -/
def spans (offset : Int) : List CType → List Span
  | [] => []
  | t :: ts =>
    let start := alignUp offset t.align
    ⟨start, start + t.size⟩ :: spans (start + t.size) ts

/-- A union of four bytes and five takes eight. -/
example : spans 0 [.union [.word 32, .bytes 5], .word 8] = [⟨0, 8⟩, ⟨8, 9⟩] := by decide

/-- Members between which nothing is left free. -/
def Gapless (spans : List Span) : Prop := spans.IsChain fun s t => s.stop = t.start

theorem sizeAll_le_iff {ts : List CType} {y : Int} :
    sizeAll ts ≤ y ↔ 0 ≤ y ∧ ∀ t ∈ ts, t.size ≤ y := by
  induction ts with
  | nil => simp [sizeAll]
  | cons t ts ih =>
    rw [sizeAll, Int.max_le, ih, List.forall_mem_cons]
    exact and_left_comm

end CType

end RegisterLayout
