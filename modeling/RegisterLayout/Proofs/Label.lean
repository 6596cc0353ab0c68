import Mathlib.Data.List.Basic
import RegisterLayout.Diagram.Label

/-!
# Which labels are found

A label that is found fits its cell and is none of those taken.  It can be empty all the same: a
name without consonants has an abbreviation without letters, which is taken when nothing better
comes before it.

Principal definitions: `Failure.HasKind`, `Vanishes` — the names that leave nothing of themselves
in a cell.
Principal results: `findLabel_fits`, `findLabel_error`, `findLabel_eq_ok_nil_iff`.
-/

namespace RegisterLayout

/-- The failure of a layout for a cause of some kind. -/
def Failure.HasKind (e : Failure) (kind : ErrorKind) : Prop :=
  ∃ l : LayoutError, e = .layout l ∧ l.cause.kind = kind

/-! ## The search for a label -/

section

variable {name label : Text} {n : Int} {taken : List Text}

/-- The name itself serves as label. -/
def IsOwnLabel (name : Text) (n : Int) (taken : List Text) : Prop :=
  name.length ≤ n ∧ name ∉ taken

theorem findLabel_of_own (h : IsOwnLabel name n taken) :
    findLabel name (.int n) taken = .ok name := by
  obtain ⟨hfits, hfree⟩ := h
  simp [findLabel, hfits, hfree]

/-- Without room for more than a letter, the first letter that is free. -/
theorem findLabel_one (h : ¬IsOwnLabel name 1 taken) :
    findLabel name (.int 1) taken =
      match (letterChoices name).find? fun c => [CodePoint.char c] ∉ taken with
      | some letter => .ok [.char letter]
      | none => .error (.ofCause name .noLetter) := by
  have hown : ((Number.int name.length).le (.int 1) && decide (name ∉ taken)) = false := by
    rw [IsOwnLabel] at h
    simpa using h
  have hone : (Number.int 1).same 1 = true := rfl
  rw [findLabel, hown, hone]
  rfl

/-- With room for other than one letter, the first abbreviation that is usable. -/
theorem findLabel_several (h : ¬IsOwnLabel name n taken) (hn : n ≠ 1) :
    findLabel name (.int n) taken =
      match (labelCandidates name n).find? (isUsableLabel n taken) with
      | some label => .ok label
      | none => .error (.ofCause name (.noLabel (.int n))) := by
  have hown : ((Number.int name.length).le (.int n) && decide (name ∉ taken)) = false := by
    rw [IsOwnLabel] at h
    simpa using h
  have hone : (Number.int n).same 1 = false := by
    show (n == 1) = false
    simpa using hn
  rw [findLabel, hown, hone]
  rfl

theorem isUsableLabel_iff {candidate : Text} :
    isUsableLabel n taken candidate = true ↔
      candidate.length ≤ n ∧ candidate ∉ ambiguousLabels ∧ candidate ∉ taken := by
  simp [isUsableLabel, and_assoc]

/-- **A label that is found is free and fits.** -/
theorem findLabel_fits (h : findLabel name (.int n) taken = .ok label) :
    label ∉ taken ∧ label.length ≤ n := by
  by_cases hown : IsOwnLabel name n taken
  · rw [findLabel_of_own hown, Except.ok.injEq] at h
    exact h ▸ ⟨hown.2, hown.1⟩
  by_cases hn : n = 1
  · subst hn
    rw [findLabel_one hown] at h
    split at h
    · rename_i letter hletter
      rw [Except.ok.injEq] at h
      have hfree := List.find?_some hletter
      rw [decide_eq_true_eq, h] at hfree
      exact ⟨hfree, by simp [← h]⟩
    · cases h
  · rw [findLabel_several hown hn] at h
    split at h
    · rename_i candidate hcandidate
      rw [Except.ok.injEq] at h
      obtain ⟨hfits, -, hfree⟩ := isUsableLabel_iff.1 (List.find?_some hcandidate)
      exact h ▸ ⟨hfree, hfits⟩
    · cases h

/-- Where no label is found, all of them were taken or too long. -/
theorem findLabel_error {e : Failure} (h : findLabel name (.int n) taken = .error e) :
    e = .ofCause name .noLetter ∨ e = .ofCause name (.noLabel (.int n)) := by
  by_cases hown : IsOwnLabel name n taken
  · rw [findLabel_of_own hown] at h
    cases h
  by_cases hn : n = 1
  · subst hn
    rw [findLabel_one hown] at h
    split at h
    · cases h
    · exact .inl (Except.error.inj h).symm
  · rw [findLabel_several hown hn] at h
    split at h
    · cases h
    · exact .inr (Except.error.inj h).symm

end

/-! ## Labels without letters -/

/-- The letters of a name that stand outside its underscores. -/
def joinedParts (name : Text) : Text := name.filter (· ≠ .char '_')

theorem flatten_nameParts (name : Text) : (nameParts name).flatten = joinedParts name := by
  rw [nameParts, Text.splitOn, Text.flatten_splitBy, joinedParts]
  simp

/-- A name of which a cell of `n` letters shows nothing, if the empty label is free: it cannot
stand there itself, it has no consonants, and without its underscores it is nothing or no label
either. -/
structure Vanishes (name : Text) (n : Int) (taken : List Text) : Prop where
  several : n ≠ 1
  notOwn : ¬IsOwnLabel name n taken
  consonants : consonants name = []
  joined : joinedParts name = [] ∨ isUsableLabel n taken (Text.lower (joinedParts name)) = false

theorem Text.lower_eq_nil_iff {s : Text} : Text.lower s = [] ↔ s = [] := by
  constructor
  · intro h
    have hlength := Text.length_le_length_lower s
    rw [h, List.length_nil] at hlength
    exact List.eq_nil_of_length_eq_zero (Nat.le_zero.1 hlength)
  · rintro rfl
    rfl

theorem consonants_append (s t : Text) : consonants (s ++ t) = consonants s ++ consonants t :=
  List.filter_append ..

/-- Underscores are no consonants. -/
theorem consonants_joinedParts (name : Text) : consonants (joinedParts name) = consonants name := by
  rw [consonants, joinedParts, List.filter_filter, consonants]
  refine List.filter_congr fun c _ => ?_
  by_cases hc : c = .char '_'
  · subst hc
    decide
  · simp [hc]

/-- The parts of a name before the last, and the last. -/
theorem nameParts_eq (name : Text) :
    nameParts name = (nameParts name).dropLast ++ [lastPart name] := by
  have hne : nameParts name ≠ [] := Text.splitBy_ne_nil _ _
  have hlast : lastPart name = (nameParts name).getLast hne := by
    rw [lastPart, List.getLast?_eq_some_getLast hne, Option.getD_some]
  rw [hlast, List.dropLast_append_getLast]

/-- An acronym is empty only if all the parts that it is made of are. -/
theorem flatten_eq_nil_of_acronym {parts : List Text} (h : parts.flatMap (·.take 1) = []) :
    parts.flatten = [] := by
  rw [List.flatMap_eq_nil_iff] at h
  rw [List.flatten_eq_nil_iff]
  intro part hpart
  cases part with
  | nil => rfl
  | cons c rest => exact absurd (h _ hpart) (by simp)

theorem clip_eq_nil_iff {n : Int} (hn : 1 ≤ n) {s : Text} : clip n s = [] ↔ s = [] := by
  have hpos : ¬n < 0 := by omega
  rw [clip, if_neg hpos, List.take_eq_nil_iff]
  constructor
  · rintro (h | h)
    · omega
    · exact h
  · exact .inr

/-- Every abbreviation keeps the consonants of the last part and something of every other, so that
it is empty only for a name without consonants. -/
theorem consonants_eq_nil_of_candidate {name : Text} {n : Int} (hn : 1 ≤ n)
    (h : [] ∈ labelCandidates name n) : consonants name = [] := by
  have hsplit : joinedParts name = (nameParts name).dropLast.flatten ++ lastPart name := by
    rw [← flatten_nameParts]
    conv_lhs => rw [nameParts_eq]
    rw [List.flatten_append, List.flatten_singleton]
  have hparts : (nameParts name).dropLast.flatMap (·.take 1) = [] →
      consonants (lastPart name) = [] → consonants name = [] := by
    intro hacronym hlast
    rw [← consonants_joinedParts, hsplit, consonants_append, flatten_eq_nil_of_acronym hacronym,
      hlast]
    rfl
  have hall : joinedParts name = [] → consonants name = [] := by
    intro hjoined
    rw [← consonants_joinedParts, hjoined]
    rfl
  have hlast : lastPart name = [] → consonants (lastPart name) = [] := by
    intro hlast
    rw [hlast]
    rfl
  obtain ⟨s, hs, hlower⟩ := List.mem_map.1 h
  rw [Text.lower_eq_nil_iff] at hlower
  subst hlower
  -- The name in one, its consonants, and the last part or its consonants behind the acronym.
  simp only [List.mem_cons, List.not_mem_nil, or_false] at hs
  rcases hs with hwhole | hwhole | hclipped | hclipped | hfull
  · exact hall (by rw [← flatten_nameParts, ← hwhole])
  · rw [← consonants_joinedParts, ← flatten_nameParts, ← hwhole]
  · obtain ⟨hacronym, hpart⟩ := List.append_eq_nil_iff.1 ((clip_eq_nil_iff hn).1 hclipped.symm)
    exact hparts hacronym (hlast hpart)
  · obtain ⟨hacronym, hpart⟩ := List.append_eq_nil_iff.1 ((clip_eq_nil_iff hn).1 hclipped.symm)
    exact hparts hacronym hpart
  · obtain ⟨hacronym, hpart⟩ := List.append_eq_nil_iff.1 hfull.symm
    exact hparts hacronym (hlast hpart)

theorem isUsableLabel_nil {n : Int} (hn : 1 ≤ n) {taken : List Text} :
    isUsableLabel n taken [] = true ↔ [] ∉ taken := by
  have hplain : ([] : Text) ∉ ambiguousLabels := by decide
  rw [isUsableLabel_iff]
  simp only [List.length_nil, hplain, not_false_iff, true_and, and_iff_right_iff_imp]
  omega

/-- The first abbreviation is the name without underscores, the second its consonants. -/
theorem labelCandidates_eq (name : Text) (n : Int) :
    ∃ more, labelCandidates name n =
      Text.lower (joinedParts name) :: Text.lower (consonants name) :: more := by
  rw [← consonants_joinedParts, ← flatten_nameParts]
  exact ⟨_, rfl⟩

/-- **The label of a name is empty exactly if the name vanishes and no label before was empty.** -/
theorem findLabel_eq_ok_nil_iff {name : Text} {n : Int} {taken : List Text} (hname : name ≠ [])
    (hn : 1 ≤ n) :
    findLabel name (.int n) taken = .ok [] ↔ [] ∉ taken ∧ Vanishes name n taken := by
  obtain ⟨more, hcandidates⟩ := labelCandidates_eq name n
  constructor
  · intro h
    have hfree : [] ∉ taken := (findLabel_fits h).1
    have hown : ¬IsOwnLabel name n taken := by
      intro hown
      rw [findLabel_of_own hown, Except.ok.injEq] at h
      exact hname h
    have hseveral : n ≠ 1 := by
      rintro rfl
      rw [findLabel_one hown] at h
      split at h
      · cases h
      · cases h
    rw [findLabel_several hown hseveral] at h
    split at h
    · rename_i label hfound
      rw [Except.ok.injEq] at h
      subst h
      refine ⟨hfree, hseveral, hown,
        consonants_eq_nil_of_candidate hn (List.mem_of_find?_eq_some hfound), ?_⟩
      -- A usable first abbreviation with letters would have been found.
      rw [hcandidates, List.find?_cons] at hfound
      split at hfound
      · rw [Option.some.injEq, Text.lower_eq_nil_iff] at hfound
        exact .inl hfound
      · rename_i husable
        exact .inr husable
    · cases h
  · rintro ⟨hfree, hvanishes⟩
    have husable : isUsableLabel n taken (Text.lower []) = true := (isUsableLabel_nil hn).2 hfree
    rw [findLabel_several hvanishes.notOwn hvanishes.several, hcandidates, hvanishes.consonants]
    rcases hvanishes.joined with hjoined | hjoined
    · rw [hjoined, List.find?_cons_of_pos husable]
      rfl
    · rw [List.find?_cons_of_neg (by rw [hjoined]; decide), List.find?_cons_of_pos husable]
      rfl

end RegisterLayout
