import Mathlib.Logic.Relation
import RegisterLayout.Proofs.Grammar

/-!
# Marks that come to an end

A mark is grounded if looking through it, and through all marks in its body, comes to an end.
Nothing is lost when grounded marks are replaced by their bodies, so a document whose marks are all
grounded has no collection that contains itself.

Principal definitions: `Value.marks`, `Grounded`, `Value.WellKeyed`.
Principal results: `Grounded.irrefl`, `Grounded.marks_enter`, `Value.lookup?_of_mem`.
-/

namespace RegisterLayout

open Value

/-! ## Marks -/

namespace Value

mutual

/-- The marks in a value, those in keys included. -/
def marks : Value → List Loop
  | list xs | tuple xs | set xs => marksOf xs
  | map entries => marksAmong entries
  | again l => [l]
  | _ => []
termination_by structural v => v

def marksOf : List Value → List Loop
  | [] => []
  | x :: xs => marks x ++ marksOf xs
termination_by structural xs => xs

def marksAmong : List (Value × Value) → List Loop
  | [] => []
  | (key, value) :: entries => marks key ++ marks value ++ marksAmong entries
termination_by structural entries => entries

end

theorem mem_marksOf {xs : List Value} {l : Loop} : l ∈ marksOf xs ↔ ∃ x ∈ xs, l ∈ x.marks := by
  induction xs with
  | nil => simp [marksOf]
  | cons x xs ih => simp [marksOf, ih]

theorem mem_marksAmong {entries : List (Value × Value)} {l : Loop} :
    l ∈ marksAmong entries ↔ ∃ entry ∈ entries, l ∈ entry.1.marks ∨ l ∈ entry.2.marks := by
  induction entries with
  | nil => simp [marksAmong]
  | cons entry entries ih => simp [marksAmong, ih, or_assoc]

theorem isScalar_marks {v : Value} (hv : v.isScalar = true) : v.marks = [] := by
  cases v with
  | list _ | tuple _ | set _ | map _ | again _ => cases hv
  | _ => rfl

/-- A test that marks fail and all other values pass. -/
def TellsMarks (p : Value → Bool) : Prop :=
  (∀ l, p (again l) = false) ∧ ∀ v, (∀ l, v ≠ again l) → p v = true

mutual

theorem all_iff_marks {p : Value → Bool} (hp : TellsMarks p) :
    (v : Value) → (v.all p = true ↔ v.marks = [])
  | list xs | tuple xs | set xs => by
    rw [all, hp.2 _ (by simp), Bool.true_and, marks, allOf_iff_marks hp xs]
  | map entries => by
    rw [all, hp.2 _ (by simp), Bool.true_and, marks, allOfEntries_iff_marks hp entries]
  | again l => by simp [all, marks, hp.1]
  | null | bool _ | num _ | str _ | date _ | moment _ _ | bytes _ =>
    iff_of_true (hp.2 _ (by simp)) rfl

theorem allOf_iff_marks {p : Value → Bool} (hp : TellsMarks p) :
    (xs : List Value) → (allOf p xs = true ↔ marksOf xs = [])
  | [] => by simp [allOf, marksOf]
  | x :: xs => by
    rw [allOf, marksOf, Bool.and_eq_true, List.append_eq_nil_iff, all_iff_marks hp x,
      allOf_iff_marks hp xs]

theorem allOfEntries_iff_marks {p : Value → Bool} (hp : TellsMarks p) :
    (entries : List (Value × Value)) → (allOfEntries p entries = true ↔ marksAmong entries = [])
  | [] => by simp [allOfEntries, marksAmong]
  | (key, value) :: entries => by
    rw [allOfEntries, marksAmong, Bool.and_eq_true, Bool.and_eq_true, List.append_eq_nil_iff,
      List.append_eq_nil_iff, all_iff_marks hp key, all_iff_marks hp value,
      allOfEntries_iff_marks hp entries]

end

/-- A value is free of loops if there are no marks in it. -/
theorem isLoopFree_iff {v : Value} : v.isLoopFree = true ↔ v.marks = [] := by
  refine all_iff_marks ⟨fun l => rfl, fun w hw => ?_⟩ v
  cases w with
  | again l => exact absurd rfl (hw l)
  | _ => rfl

mutual

/-- Filling the marks of a value leaves the marks of what is filled in. -/
theorem mem_marks_fill {inner : Loop → Value} {l : Loop} :
    (v : Value) → (l ∈ (v.fill inner).marks ↔ ∃ k ∈ v.marks, l ∈ (inner k).marks)
  | list xs | tuple xs | set xs => by simpa [fill, marks] using mem_marksOf_fillAll xs
  | map entries => by simpa [fill, marks] using mem_marksAmong_fillEntries entries
  | again _ => by simp [fill, marks]
  | null | bool _ | num _ | str _ | date _ | moment _ _ | bytes _ => by simp [fill, marks]

theorem mem_marksOf_fillAll {inner : Loop → Value} {l : Loop} :
    (xs : List Value) →
      (l ∈ marksOf (fillAll inner xs) ↔ ∃ k ∈ marksOf xs, l ∈ (inner k).marks)
  | [] => by simp [fillAll, marksOf]
  | x :: xs => by
    simp only [fillAll, marksOf, List.mem_append, mem_marks_fill x, mem_marksOf_fillAll xs,
      or_and_right, exists_or]

theorem mem_marksAmong_fillEntries {inner : Loop → Value} {l : Loop} :
    (entries : List (Value × Value)) →
      (l ∈ marksAmong (fillEntries inner entries) ↔
        ∃ k ∈ marksAmong entries, l ∈ (inner k).marks)
  | [] => by simp [fillEntries, marksAmong]
  | (key, value) :: entries => by
    simp only [fillEntries, marksAmong, List.mem_append, mem_marks_fill key,
      mem_marks_fill value, mem_marksAmong_fillEntries entries, or_and_right, exists_or]

end

mutual

/-- A value stays as it is if all marks in it are filled with themselves. -/
theorem fill_eq_self {mark : Loop → Value} :
    (v : Value) → (∀ l ∈ v.marks, mark l = .again l) → v.fill mark = v
  | list xs, h | tuple xs, h | set xs, h => by rw [fill, fillAll_eq_self xs h]
  | map entries, h => by rw [fill, fillEntries_eq_self entries h]
  | again l, h => h l (List.mem_singleton_self l)
  | null, _ | bool _, _ | num _, _ | str _, _ | date _, _ | moment _ _, _ | bytes _, _ => rfl

theorem fillAll_eq_self {mark : Loop → Value} :
    (xs : List Value) → (∀ l ∈ marksOf xs, mark l = .again l) → fillAll mark xs = xs
  | [], _ => rfl
  | x :: xs, h => by
    rw [marksOf, List.forall_mem_append] at h
    rw [fillAll, fill_eq_self x h.1, fillAll_eq_self xs h.2]

theorem fillEntries_eq_self {mark : Loop → Value} : (entries : List (Value × Value)) →
    (∀ l ∈ marksAmong entries, mark l = .again l) → fillEntries mark entries = entries
  | [], _ => rfl
  | (key, value) :: entries, h => by
    rw [marksAmong, List.forall_mem_append, List.forall_mem_append] at h
    rw [fillEntries, fill_eq_self key h.1.1, fill_eq_self value h.1.2,
      fillEntries_eq_self entries h.2]

end

/-- Marks that are filled with themselves stay. -/
theorem fill_again (v : Value) : v.fill .again = v := fill_eq_self v fun _ _ => rfl

end Value

/-! ## Grounded marks -/

/-- One mark stands in the body of another. -/
def Within (loops : Loops Value) (inner outer : Loop) : Prop :=
  ∃ body, loops.lookup outer = some body ∧ inner ∈ body.marks

/-- A mark with a body, all marks of which are grounded. -/
inductive Grounded (loops : Loops Value) : Loop → Prop
  | intro {l : Loop} {body : Value} (hbody : loops.lookup l = some body)
      (inner : ∀ k ∈ body.marks, Grounded loops k) : Grounded loops l

section

variable {loops : Loops Value}

/-- A grounded mark does not stand within itself, however deep. -/
theorem Grounded.irrefl {l : Loop} (h : Grounded loops l) :
    ¬Relation.TransGen (Within loops) l l := by
  induction h with
  | @intro l body hbody _ ih =>
    intro hloop
    obtain ⟨k, hlk, body', hbody', hk⟩ := Relation.TransGen.tail'_iff.1 hloop
    obtain rfl := Option.some.inj (hbody.symm.trans hbody')
    exact ih k hk (Relation.TransGen.head' ⟨_, hbody, hk⟩ hlk)

/-- What a grounded mark is replaced by holds no marks.  On the way down the bodies of the marks
around are gone, but none of those is met again. -/
theorem Grounded.marks_enter {l : Loop} (h : Grounded loops l) {rest : Loops Value}
    (hrest : ∀ k, Relation.ReflTransGen (Within loops) k l → rest.lookup k = loops.lookup k) :
    (rest.enter .again Value.fill l).marks = [] := by
  induction h generalizing rest with
  | @intro l body hbody hinner ih =>
    rw [Loops.enter_eq, hrest l .refl, hbody]
    refine List.eq_nil_iff_forall_not_mem.2 fun j hj => ?_
    obtain ⟨k, hk, hjk⟩ := (mem_marks_fill body).1 hj
    have hwithin : Within loops k l := ⟨body, hbody, hk⟩
    have hkept : ∀ i, Relation.ReflTransGen (Within loops) i k →
        (rest.without l).lookup i = loops.lookup i := by
      intro i hi
      have hil : i ≠ l := by
        rintro rfl
        exact (Grounded.intro hbody hinner).irrefl (Relation.TransGen.tail' hi hwithin)
      rw [Loops.lookup_without_of_ne _ hil]
      exact hrest i (hi.tail hwithin)
    rw [ih k hk hkept] at hjk
    cases hjk

theorem grounded_of_opened {v : Value}
    (h : ∀ l ∈ (v.opened loops).marks, Grounded loops l) : ∀ l ∈ v.marks, Grounded loops l := by
  cases v with
  | again l =>
    intro k hk
    obtain rfl := List.mem_singleton.1 hk
    cases hbody : loops.lookup k with
    | none => exact h k (by simp [opened, hbody, marks])
    | some body => exact .intro hbody (by simpa [opened, hbody] using h)
  | _ => exact h

end

/-! ## Keys -/

/-- No two keys of a mapping are the same, and none of them holds a collection that contains
itself. -/
def keysApart (entries : List (Value × Value)) : Bool :=
  entries.all (fun entry => entry.1.isLoopFree) &&
    decide ((entries.map Prod.fst).Pairwise fun a b => !a.same b && !b.same a)

/-- A value all mappings of which keep their keys apart. -/
def Value.WellKeyed (v : Value) : Prop :=
  v.all (fun | .map entries => keysApart entries | _ => true) = true

instance (v : Value) : Decidable v.WellKeyed := inferInstanceAs (Decidable (_ = true))

namespace Value

theorem allOf_eq_true_iff {p : Value → Bool} {xs : List Value} :
    allOf p xs = true ↔ ∀ x ∈ xs, x.all p = true := by
  induction xs with
  | nil => simp [allOf]
  | cons x xs ih => simp [allOf, ih]

theorem allOfEntries_eq_true_iff {p : Value → Bool} {entries : List (Value × Value)} :
    allOfEntries p entries = true ↔
      ∀ entry ∈ entries, entry.1.all p = true ∧ entry.2.all p = true := by
  induction entries with
  | nil => simp [allOfEntries]
  | cons entry entries ih => simp [allOfEntries, ih, and_assoc]

theorem wellKeyed_map_iff {entries : List (Value × Value)} :
    (map entries).WellKeyed ↔
      keysApart entries = true ∧ ∀ entry ∈ entries, entry.1.WellKeyed ∧ entry.2.WellKeyed := by
  simp only [WellKeyed, all, Bool.and_eq_true, allOfEntries_eq_true_iff]

theorem wellKeyed_list_iff {xs : List Value} :
    (list xs).WellKeyed ↔ ∀ x ∈ xs, x.WellKeyed := by
  simp only [WellKeyed, all, Bool.true_and, allOf_eq_true_iff]

/-- A key that counts as a text is this text. -/
theorem same_str_iff {k : Value} {s : Text} : k.same (.str s) = true ↔ k = .str s := by
  cases k with
  | str t => simp [same]
  | _ => exact iff_of_false Bool.false_ne_true (by simp)

theorem lookup?_cons_self {key : Text} {value : Value} {entries : List (Value × Value)} :
    lookup? ((.str key, value) :: entries) key = some value := by
  simp [lookup?]

theorem lookup?_cons_of_ne {key : Text} {entry : Value × Value} {entries : List (Value × Value)}
    (h : entry.1 ≠ .str key) : lookup? (entry :: entries) key = lookup? entries key := by
  obtain ⟨k, w⟩ := entry
  cases k with
  | str s =>
    have hs : s ≠ key := fun hs => h (hs ▸ rfl)
    simp [lookup?, hs]
  | _ => rfl

/-- With keys apart, the value of an entry is the one that its key leads to. -/
theorem lookup?_of_mem {entries : List (Value × Value)} {key : Text} {value : Value}
    (hkeys : keysApart entries = true) (h : (.str key, value) ∈ entries) :
    lookup? entries key = some value := by
  have hpairwise := of_decide_eq_true (Bool.and_eq_true_iff.1 hkeys).2
  clear hkeys
  induction entries with
  | nil => cases h
  | cons entry entries ih =>
    obtain ⟨hentry, hrest⟩ := List.pairwise_cons.1 hpairwise
    rcases List.mem_cons.1 h with rfl | hmem
    · exact lookup?_cons_self
    · have hne : entry.1 ≠ .str key := by
        intro hkey
        have hsame := hentry _ (List.mem_map_of_mem hmem)
        simp [hkey, same] at hsame
      rw [lookup?_cons_of_ne hne, ih hmem hrest]

theorem mem_of_lookup? {entries : List (Value × Value)} {key : Text} {value : Value}
    (h : lookup? entries key = some value) : (.str key, value) ∈ entries := by
  obtain ⟨⟨k, w⟩, hfind, rfl⟩ := Option.map_eq_some_iff.1 h
  have hk := List.find?_some hfind
  have hmem := List.mem_of_find?_eq_some hfind
  cases k with
  | str s =>
    obtain rfl : s = key := by simpa using hk
    exact hmem
  | _ => cases hk

theorem WellKeyed.of_lookup? {entries : List (Value × Value)} {key : Text} {value : Value}
    (hentries : (map entries).WellKeyed) (h : lookup? entries key = some value) :
    value.WellKeyed :=
  ((wellKeyed_map_iff.1 hentries).2 _ (mem_of_lookup? h)).2

end Value

end RegisterLayout
