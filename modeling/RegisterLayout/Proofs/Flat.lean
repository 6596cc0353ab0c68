import RegisterLayout.Proofs.Findings

/-!
# Checks of single values

Most schemas of the values under keys look at the value alone: what they find is of the value
itself and is no choice between schemas.  All that one schema finds in a value has the same mark,
which tells whether the value has the type that the schema begins with.

Principal definitions: `Schema.Plain`, `Schema.Flat`, `Schema.Marked`.
Principal results: `Schema.flat_typed`, `Schema.marked_typed`, `Schema.mem_constants`.
-/

namespace RegisterLayout

open Value

namespace Schema

open Violation

variable {w : Value} {check : Check}

/-- A keyword that only complains about the value. -/
def Plain (check : Check) : Prop := ∀ w, ∀ y ∈ check [] w, ∃ c, y = here c

/-- A check that finds nothing below the value itself, and no choice. -/
def Flat (check : Check) : Prop := ∀ w, ∀ y ∈ check [] w, y.path = [] ∧ y.branches = []

/-- What a check finds in the value itself is no choice. -/
def Unbranched (check : Check) : Prop := ∀ w, ∀ y ∈ check [] w, y.path = [] → y.branches = []

/-- What a check finds in the value itself is no choice, and tells of the type of the value. -/
def Marked (mark : Value → Bool) (check : Check) : Prop :=
  ∀ w, ∀ y ∈ check [] w, y.path = [] → y.branches = [] ∧ y.ofType = mark w

theorem Plain.flat (h : Plain check) : Flat check := by
  intro w y hy
  obtain ⟨c, rfl⟩ := h w y hy
  exact ⟨rfl, rfl⟩

theorem Plain.marked (h : Plain check) : Marked (fun _ => false) check := by
  intro w y hy _
  obtain ⟨c, rfl⟩ := h w y hy
  exact ⟨rfl, rfl⟩

theorem Flat.unbranched (h : Flat check) : Unbranched check := fun w y hy _ => (h w y hy).2

theorem plain_oneOfConstants (constants : List Value) : Plain (oneOfConstants constants) := by
  intro w y hy
  unfold oneOfConstants at hy
  split at hy
  · cases hy
  · exact ⟨_, List.mem_singleton.1 hy⟩

theorem plain_constant (c : Value) : Plain (constant c) := by
  intro w y hy
  unfold constant at hy
  split at hy
  · cases hy
  · exact ⟨_, List.mem_singleton.1 hy⟩

theorem plain_minimum (least : Int) : Plain (minimum least) := by
  intro w y hy
  unfold minimum at hy
  split at hy
  · split at hy
    · exact ⟨_, List.mem_singleton.1 hy⟩
    · cases hy
  · cases hy

theorem plain_maximum (greatest : Int) : Plain (maximum greatest) := by
  intro w y hy
  unfold maximum at hy
  split at hy
  · split at hy
    · exact ⟨_, List.mem_singleton.1 hy⟩
    · cases hy
  · cases hy

theorem plain_ofForm (form : List Char → Bool) (pattern : String) :
    Plain (ofForm form pattern) := by
  intro w y hy
  unfold ofForm at hy
  split at hy
  · split at hy
    · cases hy
    · exact ⟨_, List.mem_singleton.1 hy⟩
  · cases hy

theorem plain_nonEmpty : Plain nonEmpty := by
  intro w y hy
  unfold nonEmpty at hy
  split at hy
  · exact ⟨_, List.mem_singleton.1 hy⟩
  · cases hy

/-- A schema that begins with a type is as flat as its keywords. -/
theorem flat_typed {t : ValueKind} {keywords : List Check} (h : ∀ check ∈ keywords, Flat check) :
    Flat (typed t keywords) := by
  intro w y hy
  obtain ⟨z, rfl, hz | ⟨check, hcheck, hz⟩⟩ := exists_of_mem_typed hy
  · rw [path_tagged, branches_tagged]
    exact path_of_mem_hasType hz
  · rw [path_tagged, branches_tagged]
    exact h check hcheck w z hz

theorem marked_typed {t : ValueKind} {keywords : List Check}
    (h : ∀ check ∈ keywords, Unbranched check) : Marked t.holds (typed t keywords) := by
  intro w y hy hpath
  obtain ⟨z, rfl, hz⟩ := exists_of_mem_typed hy
  rw [path_tagged] at hpath
  rw [branches_tagged, ofType_tagged hpath]
  refine ⟨?_, rfl⟩
  rcases hz with hz | ⟨check, hcheck, hz⟩
  · exact (path_of_mem_hasType hz).2
  · exact h check hcheck w z hz hpath

theorem flat_integer : Flat (typed .integer []) := flat_typed (List.forall_mem_nil _)

theorem flat_name : Flat name := flat_typed (List.forall_mem_singleton.2 (plain_ofForm _ _).flat)

theorem marked_name : Marked ValueKind.string.holds name :=
  marked_typed (List.forall_mem_singleton.2 (plain_ofForm _ _).flat.unbranched)

theorem flat_text : Flat text := flat_typed (List.forall_mem_nil _)

theorem marked_text : Marked ValueKind.string.holds text := marked_typed (List.forall_mem_nil _)

theorem flat_offset : Flat offset := flat_typed (List.forall_mem_singleton.2 (plain_minimum 0).flat)

theorem marked_offset : Marked ValueKind.integer.holds offset :=
  marked_typed (List.forall_mem_singleton.2 (plain_minimum 0).flat.unbranched)

theorem plain_width : Plain width := plain_oneOfConstants _

theorem allProperties_of_mem {y : Violation} (hy : y ∈ allProperties check [] w) :
    ∃ cs, w = .map cs ∧ ∃ c ∈ cs, ∃ z ∈ check [] c.2, y = z.under c.1 := by
  unfold allProperties at hy
  rw [opened_nil] at hy
  split at hy
  · next _ cs =>
    obtain ⟨c, hc, hy⟩ := List.mem_flatMap.1 hy
    obtain ⟨z, hz, rfl⟩ := List.mem_map.1 hy
    exact ⟨cs, rfl, c, hc, z, hz, rfl⟩
  · cases hy

/-- What is found in an enumeration: that it is no mapping, or constants that are no whole
numbers. -/
theorem mem_constants {y : Violation} (hy : y ∈ constants [] w) :
    y.branches = [] ∧ (y.path = [] ∨
      ∃ cs, w = .map cs ∧ ∃ c ∈ cs, y.path = [c.1] ∧ ValueKind.integer.holds c.2 = false) := by
  obtain ⟨z, rfl, hz | ⟨check, hcheck, hz⟩⟩ := exists_of_mem_typed hy
  · rw [path_tagged, branches_tagged]
    obtain ⟨hpath, hbranches⟩ := path_of_mem_hasType hz
    exact ⟨hbranches, .inl hpath⟩
  · rw [path_tagged, branches_tagged]
    obtain rfl := List.mem_singleton.1 hcheck
    obtain ⟨cs, rfl, c, hc, u, hu, rfl⟩ := allProperties_of_mem hz
    obtain ⟨hpath, hbranches⟩ := flat_integer c.2 u hu
    refine ⟨by rw [branches_under, hbranches], .inr ⟨cs, rfl, c, hc, ?_, ?_⟩⟩
    · rw [path_under, hpath]
    · by_contra hholds
      have hnil : typed .integer [] [] c.2 = [] :=
        typed_eq_nil_iff.2 ⟨by rw [opened_nil]; simpa using hholds, List.forall_mem_nil _⟩
      rw [hnil] at hu
      cases hu

theorem marked_constants : Marked ValueKind.object.holds constants := by
  refine marked_typed (List.forall_mem_singleton.2 fun w y hy hpath => ?_)
  obtain ⟨_, rfl, c, _, z, _, rfl⟩ := allProperties_of_mem hy
  rw [path_under] at hpath
  cases hpath

end Schema

end RegisterLayout
