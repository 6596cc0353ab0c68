/-!
# Structures with loops

A document may hold a part that contains itself.  Such a part is kept apart from the tree: the
tree has a mark where the part stands, and beside it there is a list of the parts with their
bodies, in which the same marks stand.  Every body is a finite tree, so whatever is done to a tree
can be done to a body, and only the marks need care.

Principal definitions: `Loop`, `Looped`, `Loops.enter`.
Principal result: `Loops.enter_eq`.
-/

namespace RegisterLayout

/-- The mark of a part that contains itself, told from others by its number. -/
structure Loop where
  number : Nat
  isMapping : Bool
  deriving DecidableEq, Inhabited, Repr

/-- The bodies of the parts that contain themselves. -/
abbrev Loops (α : Type) := List (Loop × α)

/-- A tree and the bodies of the marks in it. -/
structure Looped (α : Type) where
  root : α
  loops : Loops α := []
  deriving Inhabited, Repr

namespace Loops

variable {α β : Type}

/-- The bodies without that of one mark. -/
def without (loops : Loops α) (l : Loop) : Loops α := loops.filter fun entry => entry.1 ≠ l

/-- The bodies with that of one mark set. -/
def put (loops : Loops α) (l : Loop) (body : α) : Loops α := (l, body) :: loops.without l

private def enterFrom (again : Loop → β) (inside : (Loop → β) → α → β) :
    Nat → Loops α → Loop → β
  | 0, _, l => again l
  | fuel + 1, loops, l =>
    match loops.lookup l with
    | none => again l
    | some body => inside (enterFrom again inside fuel (loops.without l)) body

/-- What becomes of a mark, when `inside` tells what becomes of a body by what becomes of the
marks in it.  On the way down every body is entered once; `again` is what becomes of its mark where
that is met within. -/
def enter (again : Loop → β) (inside : (Loop → β) → α → β) (loops : Loops α) : Loop → β :=
  enterFrom again inside loops.length loops

@[simp] theorem enter_nil (again : Loop → β) (inside : (Loop → β) → α → β) (l : Loop) :
    enter again inside [] l = again l := rfl

theorem lookup_without_self (loops : Loops α) (l : Loop) : (loops.without l).lookup l = none := by
  rw [List.lookup_eq_none_iff]
  intro entry hentry
  have hne : entry.1 ≠ l := of_decide_eq_true (List.mem_filter.1 hentry).2
  simpa using hne.symm

theorem lookup_without_of_ne (loops : Loops α) {l k : Loop} (h : k ≠ l) :
    (loops.without l).lookup k = loops.lookup k := by
  induction loops with
  | nil => rfl
  | cons entry loops ih =>
    unfold without at ih ⊢
    by_cases hentry : entry.1 = l
    · have hk : (k == entry.1) = false := by simpa [hentry] using h
      rw [List.filter_cons_of_neg (by simpa using hentry), ih, List.lookup_cons, hk]
    · rw [List.filter_cons_of_pos (by simpa using hentry), List.lookup_cons, List.lookup_cons, ih]

theorem length_without_lt {loops : Loops α} {l : Loop} {body : α}
    (h : loops.lookup l = some body) : (loops.without l).length < loops.length := by
  obtain ⟨entry, hentry, hl⟩ : ∃ entry ∈ loops, entry.1 = l := by
    obtain ⟨before, after, rfl, -⟩ := List.lookup_eq_some_iff.1 h
    exact ⟨(l, body), by simp, rfl⟩
  exact List.length_filter_lt_length_iff_exists.2 ⟨entry, hentry, by simpa using hl⟩

/-- One step for each body is enough. -/
private theorem enterFrom_eq_of_le (again : Loop → β) (inside : (Loop → β) → α → β)
    (loops : Loops α) (fuel more : Nat) (hfuel : loops.length ≤ fuel)
    (hmore : loops.length ≤ more) :
    enterFrom again inside fuel loops = enterFrom again inside more loops := by
  induction fuel generalizing loops more with
  | zero =>
    obtain rfl : loops = [] := List.length_eq_zero_iff.1 (Nat.le_zero.1 hfuel)
    cases more <;> rfl
  | succ fuel ih =>
    cases more with
    | zero =>
      obtain rfl : loops = [] := List.length_eq_zero_iff.1 (Nat.le_zero.1 hmore)
      rfl
    | succ more =>
      funext l
      unfold enterFrom
      cases hl : loops.lookup l with
      | none => rfl
      | some body =>
        have hlt := length_without_lt hl
        simp only [ih (loops.without l) more (by omega) (by omega)]

/-- A mark with a body becomes what its body does, in which the mark itself is not entered. -/
theorem enter_eq (again : Loop → β) (inside : (Loop → β) → α → β) (loops : Loops α)
    (l : Loop) :
    enter again inside loops l = match loops.lookup l with
      | none => again l
      | some body => inside (enter again inside (loops.without l)) body := by
  cases hl : loops.lookup l with
  | none =>
    cases loops with
    | nil => rfl
    | cons entry loops =>
      unfold enter
      rw [List.length_cons, enterFrom, hl]
  | some body =>
    have hlt := length_without_lt hl
    obtain ⟨fuel, hfuel⟩ : ∃ fuel, loops.length = fuel + 1 :=
      ⟨loops.length - 1, by omega⟩
    unfold enter
    rw [hfuel, enterFrom, hl]
    simp only [enterFrom_eq_of_le again inside (loops.without l) fuel
      (loops.without l).length (by omega) (Nat.le_refl _)]

end Loops

end RegisterLayout
