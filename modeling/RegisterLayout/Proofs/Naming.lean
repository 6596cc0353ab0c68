import RegisterLayout.Naming
import RegisterLayout.Proofs.Outcome

/-!
# What names come to

The name that a node gets, and the path of its children, for a node whose own names are allowed:
a named node is known by the labels above it and its own, an unnamed one by every step.

Principal definitions: `IsIndexName`, `Header.NameAllowed`, `Header.nameUnder`,
`Header.pathUnder`.
Principal results: `isReservedName_iff`; `nodeName_eq_ok_iff` — a node is named exactly if its
names are allowed, and then by this rule.
-/

namespace RegisterLayout

/-! ## Names that are kept for indices -/

/-- The letter `f` and digits, and no more than one line feed after them. -/
def IsIndexName (s : Text) : Prop :=
  ∃ digits : List Char, digits ≠ [] ∧ (∀ c ∈ digits, c.isDigit) ∧
    (s = Text.ofChars ('f' :: digits) ∨ s = Text.ofChars ('f' :: digits ++ ['\n']))

/-- What is left of characters without a line feed at the end, in both ways. -/
theorem dropFeed_eq_iff {cs ds : List Char} (hds : ds.getLast? ≠ some '\n') :
    Text.dropFeed cs = ds ↔ cs = ds ∨ cs = ds ++ ['\n'] := by
  unfold Text.dropFeed
  constructor
  · intro h
    split at h
    · rename_i hlast
      obtain ⟨init, rfl⟩ := List.getLast?_eq_some_iff.1 hlast
      rw [List.dropLast_concat] at h
      exact .inr (h ▸ rfl)
    · exact .inl h
  · rintro (rfl | rfl)
    · rw [if_neg hds]
    · rw [List.getLast?_concat, if_pos rfl, List.dropLast_concat]

theorem getLast?_index_ne_feed {digits : List Char} (hdigits : ∀ c ∈ digits, c.isDigit) :
    ('f' :: digits).getLast? ≠ some '\n' := by
  intro h
  rcases List.mem_cons.1 (List.mem_of_getLast? h) with h | h
  · exact absurd h (by decide)
  · exact absurd (hdigits _ h) (by decide)

theorem isReservedName_iff {s : Text} : isReservedName s = true ↔ IsIndexName s := by
  unfold isReservedName Text.satisfies
  constructor
  · intro h
    cases hs : s.chars? with
    | none => simp [hs] at h
    | some cs =>
      simp only [hs, Option.map_some, Option.getD_some] at h
      split at h
      · rename_i digits hdrop
        simp only [Bool.and_eq_true, Bool.not_eq_true', List.isEmpty_eq_false_iff,
          List.all_eq_true] at h
        have hcs := (dropFeed_eq_iff (getLast?_index_ne_feed h.2)).1 hdrop
        refine ⟨digits, h.1, h.2, ?_⟩
        rw [Text.eq_ofChars_of_chars? hs]
        exact hcs.imp (congrArg Text.ofChars) (congrArg Text.ofChars)
      · exact absurd h (by simp)
  · rintro ⟨digits, hne, hdigits, hs⟩
    have hchars : ∃ cs, s.chars? = some cs ∧ Text.dropFeed cs = 'f' :: digits := by
      have hlast := getLast?_index_ne_feed hdigits
      rcases hs with rfl | rfl
      · exact ⟨_, Text.chars?_ofChars _, (dropFeed_eq_iff hlast).2 (.inl rfl)⟩
      · exact ⟨_, Text.chars?_ofChars _, (dropFeed_eq_iff hlast).2 (.inr rfl)⟩
    obtain ⟨cs, hcs, hdrop⟩ := hchars
    simp only [hcs, Option.map_some, Option.getD_some, hdrop, Bool.and_eq_true,
      Bool.not_eq_true', List.isEmpty_eq_false_iff, List.all_eq_true]
    exact ⟨hne, hdigits⟩

/-- A name that no index could produce. -/
def IsFreeName (v : Value) : Prop := ∃ s, v = .str s ∧ ¬IsIndexName s

instance (v : Value) : Decidable (IsFreeName v) :=
  decidable_of_iff ((match v with | .str s => !isReservedName s | _ => false) = true) (by
    cases v <;> simp [IsFreeName, ← isReservedName_iff])

/-! ## Names of nodes -/

/-- A name for what has none. -/
def numberedName (stem : String) (number : Nat) : Text := (stem ++ toString number : String)

namespace Header

/-- Whether a node has a name that counts. -/
def IsNamed (h : Header) : Prop := h.givenName?.isSome

instance (h : Header) : Decidable h.IsNamed := inferInstanceAs (Decidable (_ = true))

/-- The text of a name that counts. -/
def givenText? (h : Header) : Option Text := h.givenName?.map Value.text

/-- The names of a node are free, and an unnamed node has no short name either. -/
structure NameAllowed (h : Header) : Prop where
  name : ∀ v, h.givenName? = some v → IsFreeName v
  shortName : ∀ v, filled? h.shortName = some v → h.IsNamed ∧ IsFreeName v

instance (h : Header) : Decidable h.NameAllowed :=
  decidable_of_iff
    ((∀ v ∈ h.givenName?, IsFreeName v) ∧ ∀ v ∈ filled? h.shortName, h.IsNamed ∧ IsFreeName v)
    ⟨fun ⟨hname, hshort⟩ => ⟨hname, hshort⟩, fun ha => ⟨ha.name, ha.shortName⟩⟩

/-- The text of the short name, or of the name where there is none. -/
def labelText (h : Header) : Text := (h.label?.map Value.text).getD []

/-- The step from a parent to its child with an index. -/
def stepUnder (h : Header) (index : Nat) : Step :=
  if h.IsNamed then .label h.labelText else .index index

def pathUnder (h : Header) (path : Path) (index : Nat) : Path := path ++ [h.stepUnder index]

/-- The full name of a node under a path. -/
def nameUnder (h : Header) (path : Path) (index : Nat) : Text :=
  if h.IsNamed then Path.joined (path.labels ++ [h.labelText])
  else (h.pathUnder path index).fullText

/-- The name of a node among others: one that was given, or a stem with a number. -/
def nameOr (h : Header) (stem : String) (number : Nat) : Text :=
  match h.givenName? with
  | some name => name.text
  | none => numberedName stem number

/-- How many names a node needs to be given. -/
def unnamed (h : Header) : Nat := if h.givenName? = none then 1 else 0

end Header

theorem checkName_eq_ok_iff {path : Path} {v : Value} {s : Text} :
    checkName path v = .ok s ↔ v = .str s ∧ ¬IsIndexName s := by
  cases v with
  | str t =>
    rw [checkName]
    split
    · rename_i ht
      rw [isReservedName_iff] at ht
      simp only [reduceCtorEq, Value.str.injEq, false_iff, not_and, Classical.not_not]
      rintro rfl
      exact ht
    · rename_i ht
      rw [isReservedName_iff] at ht
      simp only [Except.ok.injEq, Value.str.injEq]
      exact ⟨fun h => ⟨h, h ▸ ht⟩, And.left⟩
  | _ => simp [checkName]

namespace Header

variable {h : Header} {path : Path} {index : Nat}

theorem nodeName_of_named {name : Value} (hname : h.givenName? = some name)
    (hshort : filled? h.shortName = none) {r : Text × Path} :
    nodeName h path index = .ok r ↔
      IsFreeName name ∧ r = (h.nameUnder path index, h.pathUnder path index) := by
  have hnamed : h.IsNamed := by rw [IsNamed, hname]; rfl
  have hlabel : h.labelText = name.text := by
    have hname' : h.name = some name := (Option.filter_eq_some_iff.1 hname).1
    simp [labelText, label?, hshort, hname']
  simp only [nodeName, hname, hshort, bind_eq_ok_iff, checkName_eq_ok_iff, pure_eq_ok_iff,
    nameUnder, pathUnder, stepUnder, hnamed, if_true, hlabel]
  constructor
  · rintro ⟨s, ⟨rfl, hs⟩, rfl⟩
    exact ⟨⟨s, rfl, hs⟩, rfl⟩
  · rintro ⟨⟨s, rfl, hs⟩, rfl⟩
    exact ⟨s, ⟨rfl, hs⟩, rfl⟩

theorem nodeName_of_shortName {name short : Value} (hname : h.givenName? = some name)
    (hshort : filled? h.shortName = some short) {r : Text × Path} :
    nodeName h path index = .ok r ↔
      IsFreeName name ∧ IsFreeName short ∧
        r = (h.nameUnder path index, h.pathUnder path index) := by
  have hnamed : h.IsNamed := by rw [IsNamed, hname]; rfl
  have hlabel : h.labelText = short.text := by simp [labelText, label?, hshort]
  simp only [nodeName, hname, hshort, bind_eq_ok_iff, checkName_eq_ok_iff, pure_eq_ok_iff,
    nameUnder, pathUnder, stepUnder, hnamed, if_true, hlabel]
  constructor
  · rintro ⟨t, ht, s, ⟨rfl, hs⟩, rfl⟩
    exact ⟨⟨t, ht⟩, ⟨s, rfl, hs⟩, rfl⟩
  · rintro ⟨⟨t, ht⟩, ⟨s, rfl, hs⟩, rfl⟩
    exact ⟨t, ht, s, ⟨rfl, hs⟩, rfl⟩

theorem nodeName_of_unnamed (hname : h.givenName? = none) {r : Text × Path} :
    nodeName h path index = .ok r ↔
      filled? h.shortName = none ∧ r = (h.nameUnder path index, h.pathUnder path index) := by
  have hnamed : ¬h.IsNamed := by rw [IsNamed, hname]; exact Bool.false_ne_true
  simp only [nodeName, hname, nameUnder, pathUnder, stepUnder, hnamed, if_false]
  cases filled? h.shortName with
  | none => simp [eq_comm]
  | some short => simp

end Header

/-- **A node is named exactly if its own names are allowed, and then by the rule.** -/
theorem nodeName_eq_ok_iff {h : Header} {path : Path} {index : Nat} {r : Text × Path} :
    nodeName h path index = .ok r ↔
      h.NameAllowed ∧ r = (h.nameUnder path index, h.pathUnder path index) := by
  cases hname : h.givenName? with
  | none =>
    rw [Header.nodeName_of_unnamed hname]
    refine and_congr_left fun _ => ⟨fun hs => ⟨by simp [hname], by simp [hs]⟩, fun ha => ?_⟩
    cases hs : filled? h.shortName with
    | none => rfl
    | some short => simpa [Header.IsNamed, hname] using (ha.shortName short hs).1
  | some name =>
    have hnamed : h.IsNamed := by rw [Header.IsNamed, hname]; rfl
    cases hs : filled? h.shortName with
    | none =>
      rw [Header.nodeName_of_named hname hs]
      refine and_congr_left fun _ => ⟨fun hn => ⟨by simp [hname, hn], by simp [hs]⟩, fun ha => ?_⟩
      exact ha.name name hname
    | some short =>
      rw [Header.nodeName_of_shortName hname hs, ← and_assoc]
      refine and_congr_left fun _ => ⟨?_, fun ha => ⟨ha.name name hname, (ha.shortName short hs).2⟩⟩
      rintro ⟨hn, hf⟩
      exact ⟨by simp [hname, hn], by simp [hs, hnamed, hf]⟩

/-- A step that begins with the naming of a node. -/
theorem nodeName_bind_eq_ok_iff {β : Type} {h : Header} {path : Path} {index : Nat}
    {next : Text × Path → Except Failure β} {r : β} :
    (nodeName h path index >>= next) = .ok r ↔
      h.NameAllowed ∧ next (h.nameUnder path index, h.pathUnder path index) = .ok r := by
  simp only [bind_eq_ok_iff, nodeName_eq_ok_iff]
  constructor
  · rintro ⟨_, ⟨ha, rfl⟩, hnext⟩
    exact ⟨ha, hnext⟩
  · rintro ⟨ha, hnext⟩
    exact ⟨_, ⟨ha, rfl⟩, hnext⟩

end RegisterLayout
