import RegisterLayout.Proofs.CellKinds
import RegisterLayout.Proofs.Label

/-!
# The search for labels

What can be said of a label whatever the name, the room and the labels taken: it is free, it fits,
and it is no word that could be read as "reserved" or "unknown" unless the name is that word.  With
room for one character the search goes through the name and then through every letter but `R` and
`r`, and it fails exactly when none of them is free.  Labels that are looked for one after the
other, each taken from then on, are therefore distinct.  With more room it goes through
abbreviations of the name, and the last of them is never the one that is found.

Principal definitions: `IsSpareLetter`, `IsLabelFor`, `findLabels`, `findLabelAmong`.
Principal results: `findLabel_one_error_iff`, `nodup_findLabels`, `findLabel_suits`,
`findLabelAmong_dropLast`.
-/

namespace RegisterLayout

/-! ## Letters that stand alone -/

/-- A letter that may stand alone for any name. -/
def IsSpareLetter (c : Char) : Prop := c.isAlpha = true ∧ c ≠ 'R' ∧ c ≠ 'r'

instance (c : Char) : Decidable (IsSpareLetter c) := inferInstanceAs (Decidable (_ ∧ _))

theorem ascii_of_isAlpha {c : Char} (h : c.isAlpha = true) : c.toNat < 128 :=
  toNat_lt_of_isAlphanum (by rw [Char.isAlphanum, h, Bool.true_or])

/-- The spare letters are all letters but two. -/
theorem mem_spareLetters_iff {c : Char} : c ∈ spareLetters ↔ IsSpareLetter c := by
  constructor
  · intro h
    have hall : (spareLetters.all fun c => decide (IsSpareLetter c)) = true := by decide
    exact of_decide_eq_true (List.all_eq_true.1 hall c h)
  · intro h
    have hall : ∀ n < 128, IsSpareLetter (Char.ofNat n) → Char.ofNat n ∈ spareLetters := by
      decide +kernel
    exact forall_ascii (P := fun c => IsSpareLetter c → c ∈ spareLetters) hall
      (ascii_of_isAlpha h.1) h

example : spareLetters.length = 50 ∧ spareLetters.Nodup := by decide

/-- The capital of a plain letter is plain too. -/
theorem isSpareLetter_toUpper {c : Char} (h : isPlainLetter c = true) :
    IsSpareLetter c.toUpper := by
  have hall : ∀ n < 128, isPlainLetter (Char.ofNat n) = true →
      IsSpareLetter (Char.ofNat n).toUpper := by
    decide +kernel
  have halpha : c.isAlpha = true := by
    rw [isPlainLetter, Bool.and_eq_true] at h
    exact h.1
  exact forall_ascii (P := fun c => isPlainLetter c = true → IsSpareLetter c.toUpper) hall
    (ascii_of_isAlpha halpha) h

theorem isSpareLetter_of_mem_plainCapitals {s : Text} {c : Char} (h : c ∈ plainCapitals s) :
    IsSpareLetter c := by
  obtain ⟨p, -, hp⟩ := List.mem_filterMap.1 h
  cases p with
  | surrogate i => cases hp
  | char d =>
    simp only [Option.ite_none_right_eq_some, Option.some.injEq] at hp
    obtain ⟨hplain, rfl⟩ := hp
    exact isSpareLetter_toUpper hplain

/-- The letters of a name come first, but the choice is the same for every name. -/
theorem mem_letterChoices_iff {name : Text} {c : Char} :
    c ∈ letterChoices name ↔ IsSpareLetter c := by
  rw [letterChoices, List.mem_append, List.mem_append, mem_spareLetters_iff]
  constructor
  · rintro ((h | h) | h)
    · exact isSpareLetter_of_mem_plainCapitals h
    · exact isSpareLetter_of_mem_plainCapitals h
    · exact h
  · exact .inr

/-! ## One label -/

/-- What a label for a name has to be beside the labels that are taken. -/
structure IsLabelFor (name : Text) (n : Int) (taken : List Text) (label : Text) : Prop where
  free : label ∉ taken
  fits : label.length ≤ n
  unambiguous : label ∈ ambiguousLabels → label = name
  letter : n = 1 → label = name ∨ ∃ c, IsSpareLetter c ∧ label = [.char c]

section

variable {name label : Text} {n : Int} {taken : List Text}

/-- No single letter is an ambiguous word. -/
theorem letter_not_mem_ambiguousLabels (c : CodePoint) : [c] ∉ ambiguousLabels := by
  intro h
  have hlong : ∀ word ∈ ambiguousLabels, word.length ≠ 1 := by decide
  exact hlong [c] h rfl

/-- With room for one character, a name that does not serve itself has a spare letter as label. -/
theorem findLabel_one_eq_ok (hown : ¬IsOwnLabel name 1 taken)
    (h : findLabel name (.int 1) taken = .ok label) :
    ∃ c, IsSpareLetter c ∧ label = [.char c] := by
  rw [findLabel_one hown] at h
  split at h
  · rename_i letter hletter
    exact ⟨letter, mem_letterChoices_iff.1 (List.mem_of_find?_eq_some hletter),
      (Except.ok.inj h).symm⟩
  · cases h

/-- With more room or none, a label other than the name is a usable abbreviation. -/
theorem findLabel_several_eq_ok (hown : ¬IsOwnLabel name n taken) (hn : n ≠ 1)
    (h : findLabel name (.int n) taken = .ok label) :
    label ∈ labelCandidates name n ∧ isUsableLabel n taken label = true := by
  rw [findLabel_several hown hn] at h
  split at h
  · rename_i candidate hcandidate
    obtain rfl := Except.ok.inj h
    exact ⟨List.mem_of_find?_eq_some hcandidate, List.find?_some hcandidate⟩
  · cases h

/-- **A label that is found is one for its name.** -/
theorem isLabelFor_of_findLabel (h : findLabel name (.int n) taken = .ok label) :
    IsLabelFor name n taken label := by
  obtain ⟨hfree, hfits⟩ := findLabel_fits h
  by_cases hown : IsOwnLabel name n taken
  · have hname : label = name := by
      rw [findLabel_of_own hown] at h
      exact (Except.ok.inj h).symm
    exact ⟨hfree, hfits, fun _ => hname, fun _ => .inl hname⟩
  by_cases hn : n = 1
  · subst hn
    obtain ⟨c, hc, rfl⟩ := findLabel_one_eq_ok hown h
    exact ⟨hfree, hfits, fun hword => absurd hword (letter_not_mem_ambiguousLabels _),
      fun _ => .inr ⟨c, hc, rfl⟩⟩
  · obtain ⟨-, husable⟩ := findLabel_several_eq_ok hown hn h
    obtain ⟨-, hword, -⟩ := isUsableLabel_iff.1 husable
    exact ⟨hfree, hfits, fun hmem => absurd hmem hword, fun hone => absurd hone hn⟩

/-- With room for one character the search fails for want of labels only. -/
theorem findLabel_one_error {e : Failure} (h : findLabel name (.int 1) taken = .error e) :
    ¬IsOwnLabel name 1 taken ∧ e.HasKind .labelsExhausted := by
  have hown : ¬IsOwnLabel name 1 taken := by
    intro hown
    rw [findLabel_of_own hown] at h
    cases h
  rw [findLabel_one hown] at h
  split at h
  · cases h
  · obtain rfl := Except.error.inj h
    exact ⟨hown, _, rfl, rfl⟩

/-- **The search for one character is exhausted exactly when the name and all spare letters
are.** -/
theorem findLabel_one_error_iff :
    (∃ e, findLabel name (.int 1) taken = .error e ∧ e.HasKind .labelsExhausted) ↔
      ¬IsOwnLabel name 1 taken ∧ ∀ c, IsSpareLetter c → [CodePoint.char c] ∈ taken := by
  constructor
  · rintro ⟨e, he, -⟩
    have hown := (findLabel_one_error he).1
    refine ⟨hown, fun c hc => ?_⟩
    rw [findLabel_one hown] at he
    split at he
    · cases he
    · rename_i hnone
      have htaken := List.find?_eq_none.1 hnone c (mem_letterChoices_iff.2 hc)
      rwa [decide_eq_true_eq, not_not] at htaken
  · rintro ⟨hown, hletters⟩
    have hnone : ((letterChoices name).find? fun c => [CodePoint.char c] ∉ taken) = none := by
      rw [List.find?_eq_none]
      intro c hc
      rw [decide_eq_true_eq, not_not]
      exact hletters c (mem_letterChoices_iff.1 hc)
    have herror : findLabel name (.int 1) taken = .error (.ofCause name .noLetter) := by
      rw [findLabel_one hown, hnone]
    exact ⟨_, herror, (findLabel_one_error herror).2⟩

end

/-! ## Labels one after the other -/

/-- Labels for names with their room, in order, each taken once it is found. -/
def findLabels (taken : List Text) : List (Text × Int) → List (Except Failure Text)
  | [] => []
  | (name, n) :: rest =>
    let found := findLabel name (.int n) taken
    found :: findLabels (found.toOption.toList ++ taken) rest

/-- **Labels that are found one after the other are new and distinct**, whatever the names and the
room, and whether or not some names find none. -/
theorem nodup_findLabels (taken : List Text) (calls : List (Text × Int)) :
    ((findLabels taken calls).filterMap Except.toOption).Nodup ∧
      ∀ label ∈ (findLabels taken calls).filterMap Except.toOption, label ∉ taken := by
  induction calls generalizing taken with
  | nil => exact ⟨List.nodup_nil, List.forall_mem_nil _⟩
  | cons call rest ih =>
    obtain ⟨name, n⟩ := call
    rw [findLabels]
    cases hfound : findLabel name (.int n) taken with
    | error e => exact ih taken
    | ok label =>
      obtain ⟨hnodup, hnew⟩ := ih (label :: taken)
      simp only [List.mem_cons, not_or] at hnew
      refine ⟨List.nodup_cons.2 ⟨fun hmem => (hnew label hmem).1 rfl, hnodup⟩, ?_⟩
      exact List.forall_mem_cons.2 ⟨(findLabel_fits hfound).1, fun l hl => (hnew l hl).2⟩

/-- **Labels suit their names**: each is free, fits and is no ambiguous word but the name, with room
for one character the search fails only when it has to, and no two labels of a sequence are the
same. -/
theorem findLabel_suits (name : Text) (n : Int) (taken : List Text) :
    (∀ label, findLabel name (.int n) taken = .ok label → IsLabelFor name n taken label) ∧
    ((∃ e, findLabel name (.int 1) taken = .error e ∧ e.HasKind .labelsExhausted) ↔
      ¬IsOwnLabel name 1 taken ∧ ∀ c, IsSpareLetter c → [CodePoint.char c] ∈ taken) ∧
    (∀ e, findLabel name (.int 1) taken = .error e → e.HasKind .labelsExhausted) ∧
    ∀ calls : List (Text × Int),
      ((findLabels taken calls).filterMap Except.toOption).Nodup ∧
        ∀ label ∈ (findLabels taken calls).filterMap Except.toOption, label ∉ taken :=
  ⟨fun _ => isLabelFor_of_findLabel, findLabel_one_error_iff,
    fun _ he => (findLabel_one_error he).2,
    nodup_findLabels taken⟩

/-- All letters that may stand alone. -/
def fullAlphabet : List Text := spareLetters.map fun c => [.char c]

theorem findLabel_suits_fullAlphabet :
    findLabel "R_S_V" (.int 3) fullAlphabet = .ok "sv" ∧
      IsLabelFor "R_S_V" 3 fullAlphabet "sv" ∧
      ¬IsOwnLabel "R_S_V" 1 fullAlphabet ∧
      (∀ c, IsSpareLetter c → [CodePoint.char c] ∈ fullAlphabet) ∧
      (∃ e, findLabel "R_S_V" (.int 1) fullAlphabet = .error e ∧ e.HasKind .labelsExhausted) ∧
      ((findLabels fullAlphabet [("a", 3), ("a", 3), ("a_b", 3)]).filterMap
        Except.toOption).Nodup := by
  obtain ⟨hlabel, hexhausted, -, hdistinct⟩ := findLabel_suits "R_S_V" 3 fullAlphabet
  have hfound : findLabel "R_S_V" (.int 3) fullAlphabet = .ok "sv" := rfl
  have hown : ¬IsOwnLabel "R_S_V" 1 fullAlphabet := by
    rintro ⟨hfits, -⟩
    exact absurd hfits (by decide)
  have hletters : ∀ c, IsSpareLetter c → [CodePoint.char c] ∈ fullAlphabet :=
    fun c hc => List.mem_map_of_mem (mem_spareLetters_iff.2 hc)
  exact ⟨hfound, hlabel _ hfound, hown, hletters, hexhausted.2 ⟨hown, hletters⟩, (hdistinct _).1⟩

/-! ## The last abbreviation -/

/-- The first code points of all parts of a name but the last. -/
def acronym (name : Text) : Text := (nameParts name).dropLast.flatMap (·.take 1)

/-- The search for a label with some abbreviations to choose from. -/
def findLabelAmong (candidates : List Text) (name : Text) (n : Int) (taken : List Text) :
    Except Failure Text :=
  if name.length ≤ n ∧ name ∉ taken then .ok name
  else if n = 1 then
    match (letterChoices name).find? fun c => [CodePoint.char c] ∉ taken with
    | some letter => .ok [.char letter]
    | none => .error (.ofCause name .noLetter)
  else
    match candidates.find? (isUsableLabel n taken) with
    | some label => .ok label
    | none => .error (.ofCause name (.noLabel (.int n)))

/-- The search depends on the abbreviations only by the first that is usable. -/
theorem findLabelAmong_eq_findLabel {candidates : List Text} {name : Text} {n : Int}
    {taken : List Text} (h : candidates.find? (isUsableLabel n taken) =
      (labelCandidates name n).find? (isUsableLabel n taken)) :
    findLabelAmong candidates name n taken = findLabel name (.int n) taken := by
  unfold findLabelAmong
  by_cases hown : name.length ≤ n ∧ name ∉ taken
  · rw [if_pos hown, findLabel_of_own hown]
  rw [if_neg hown]
  by_cases hone : n = 1
  · subst hone
    rw [if_pos rfl]
    exact (findLabel_one hown).symm
  · rw [if_neg hone, h]
    exact (findLabel_several hown hone).symm

/-- What stands last in a list and also before is not needed to find an element. -/
theorem find?_append_singleton {α : Type} {p : α → Bool} {xs : List α} {a : α}
    (h : p a = true → a ∈ xs) : (xs ++ [a]).find? p = xs.find? p := by
  rw [List.find?_append]
  cases hfound : xs.find? p with
  | some b => rfl
  | none =>
    have ha : ¬p a = true := fun hp => List.find?_eq_none.1 hfound a (h hp) hp
    rw [List.find?_cons_of_neg ha]
    rfl

theorem clip_of_length_le {n : Int} {s : Text} (h : s.length ≤ n) : clip n s = s := by
  rw [clip, if_neg (by omega), List.take_of_length_le (by omega)]

/-- Lower case does not shorten a text, so the last abbreviation has room only where nothing was
clipped off it before. -/
theorem last_mem_of_isUsableLabel {name : Text} {n : Int} {taken : List Text}
    (h : isUsableLabel n taken (Text.lower (acronym name ++ lastPart name)) = true) :
    Text.lower (acronym name ++ lastPart name) ∈ (labelCandidates name n).dropLast := by
  obtain ⟨hfits, -, -⟩ := isUsableLabel_iff.1 h
  have hlower := Text.length_le_length_lower (acronym name ++ lastPart name)
  have hclip : clip n (acronym name ++ lastPart name) = acronym name ++ lastPart name :=
    clip_of_length_le (by omega)
  have hthird : (labelCandidates name n)[2]? =
      some (Text.lower (clip n (acronym name ++ lastPart name))) := rfl
  rw [hclip] at hthird
  have hbefore : (labelCandidates name n).dropLast[2]? = (labelCandidates name n)[2]? := rfl
  exact List.mem_of_getElem? (hbefore.trans hthird)

/-- **The last abbreviation is never needed**: whatever the name, the room and the labels taken,
the search finds the same label or fails in the same way without it. -/
theorem findLabelAmong_dropLast (name : Text) (n : Int) (taken : List Text) :
    (labelCandidates name n).getLast? = some (Text.lower (acronym name ++ lastPart name)) ∧
    findLabelAmong (labelCandidates name n) name n taken = findLabel name (.int n) taken ∧
    findLabelAmong (labelCandidates name n).dropLast name n taken =
      findLabel name (.int n) taken := by
  refine ⟨rfl, findLabelAmong_eq_findLabel rfl, findLabelAmong_eq_findLabel ?_⟩
  exact (find?_append_singleton last_mem_of_isUsableLabel).symm

end RegisterLayout
