import Mathlib.Data.Rat.Cast.Order
import RegisterLayout.Schema.Model

/-!
# When keywords are silent

A check accepts a value by finding no violation in it.  Each keyword is silent about a value
exactly if the value keeps one rule, and a schema made of keywords is silent if all of them are.

Principal definition: `Number.whole?` — the whole number that a number is, of either kind.
Principal results: `Schema.typed_eq_nil_iff`, `Schema.kindOf_eq_nil_iff`.
-/

namespace RegisterLayout

open Value

/-! ## Numbers without a fraction -/

/-- The whole number that a number is: a binary64 number without a fraction is one. -/
def Number.whole? : Number → Option Int
  | int n => some n
  | real x => x.toRat?.bind fun q => if q.den = 1 then some q.num else none

namespace Number

@[simp] theorem whole?_int (n : Int) : (int n).whole? = some n := rfl

theorem whole?_real_eq_some {x : Binary64} {n : Int} :
    (real x).whole? = some n ↔ x.toRat? = some (n : Rat) := by
  unfold whole?
  rw [Option.bind_eq_some_iff]
  constructor
  · rintro ⟨q, hq, h⟩
    split at h
    · next hden =>
      rw [← Option.some.inj h, hq, Rat.coe_int_num_of_den_eq_one hden]
    · cases h
  · intro h
    exact ⟨n, h, by simp⟩

/-- A whole number compares with another one like the number that it is. -/
theorem lt_of_whole {n : Number} {m : Int} (hn : n.whole? = some m) (k : Int) :
    n.lt (int k) = decide (m < k) := by
  cases n with
  | int n => simp [Option.some.inj hn]
  | real x =>
    have hx := whole?_real_eq_some.1 hn
    cases x <;> simp_all [lt, Binary64.toRat?]

theorem gt_of_whole {n : Number} {m : Int} (hn : n.whole? = some m) (k : Int) :
    (int k).lt n = decide (k < m) := by
  cases n with
  | int n => simp [Option.some.inj hn]
  | real x =>
    have hx := whole?_real_eq_some.1 hn
    cases x <;> simp_all [lt, Binary64.toRat?]

end Number

/-! ## Keywords -/

namespace Schema

variable {loops : Loops Value} {v : Value} {entries : List (Value × Value)}

theorem hasType_eq_nil_iff {t : ValueKind} :
    hasType t loops v = [] ↔ t.holds (v.opened loops) = true := by
  unfold hasType
  split <;> simp_all

theorem typed_eq_nil_iff {t : ValueKind} {keywords : List Check} :
    typed t keywords loops v = [] ↔
      t.holds (v.opened loops) = true ∧ ∀ check ∈ keywords, check loops v = [] := by
  unfold typed
  rw [List.map_eq_nil_iff, List.append_eq_nil_iff, hasType_eq_nil_iff, List.flatMap_eq_nil_iff]

theorem oneOfConstants_eq_nil_iff {constants : List Value} :
    oneOfConstants constants loops v = [] ↔ ∃ c ∈ constants, equals c v = true := by
  unfold oneOfConstants
  split <;> simp_all

theorem constant_eq_nil_iff {c : Value} : constant c loops v = [] ↔ equals c v = true := by
  unfold constant
  split <;> simp_all

theorem nonEmpty_eq_nil_iff {xs : List Value} (hv : v.opened loops = .list xs) :
    nonEmpty loops v = [] ↔ xs ≠ [] := by
  cases xs <;> simp [nonEmpty, hv]

theorem withItems_eq_nil_iff {found : List Violation} {xs : List Value}
    (hv : v.opened loops = .list xs) : withItems found loops v = [] ↔ found = [] := by
  simp [withItems, hv]

theorem items_eq_nil_iff {check : Check} {xs : List Value} (hv : v.opened loops = .list xs) :
    items check loops v = [] ↔ ∀ x ∈ xs, check loops x = [] := by
  simp only [items, hv, List.flatten_eq_nil_iff, List.mem_mapIdx]
  constructor
  · intro h x hx
    obtain ⟨i, hi, rfl⟩ := List.mem_iff_getElem.1 hx
    exact List.map_eq_nil_iff.1 (h _ ⟨i, hi, rfl⟩)
  · rintro h _ ⟨i, hi, rfl⟩
    exact List.map_eq_nil_iff.2 (h _ (List.getElem_mem hi))

theorem required_eq_nil_iff {keys : List String} (hv : v.opened loops = .map entries) :
    required keys loops v = [] ↔ ∀ key ∈ keys, (lookup? entries (key : String)).isSome := by
  simp only [required, hv, List.map_eq_nil_iff, List.filter_eq_nil_iff]
  simp only [Bool.not_eq_true, Option.isNone_eq_false_iff]

theorem properties_eq_nil_iff {checks : List (String × Check)}
    (hv : v.opened loops = .map entries) :
    properties checks loops v = [] ↔
      ∀ c ∈ checks, ∀ w, lookup? entries (c.1 : String) = some w → c.2 loops w = [] := by
  simp only [properties, hv, List.flatMap_eq_nil_iff]
  refine forall₂_congr fun c _ => ?_
  cases lookup? entries (c.1 : String) <;> simp

theorem allProperties_eq_nil_iff {check : Check} (hv : v.opened loops = .map entries) :
    allProperties check loops v = [] ↔ ∀ entry ∈ entries, check loops entry.2 = [] := by
  simp only [allProperties, hv, List.flatMap_eq_nil_iff, List.map_eq_nil_iff]

theorem choice_eq_nil_iff {branches : List Check} :
    choice branches loops v = [] ↔ ∃ check ∈ branches, check loops v = [] := by
  simp only [choice]
  split <;> simp_all

theorem holds_object {w : Value} :
    ValueKind.object.holds w = true ↔ ∃ entries, w = .map entries := by
  cases w with
  | num n => cases n <;> simp [ValueKind.holds]
  | _ => simp [ValueKind.holds]

theorem holds_array {w : Value} : ValueKind.array.holds w = true ↔ ∃ xs, w = .list xs := by
  cases w with
  | num n => cases n <;> simp [ValueKind.holds]
  | _ => simp [ValueKind.holds]

theorem holds_string {w : Value} : ValueKind.string.holds w = true ↔ ∃ s, w = .str s := by
  cases w with
  | num n => cases n <;> simp [ValueKind.holds]
  | _ => simp [ValueKind.holds]

theorem holds_boolean {w : Value} : ValueKind.boolean.holds w = true ↔ ∃ b, w = .bool b := by
  cases w with
  | num n => cases n <;> simp [ValueKind.holds]
  | _ => simp [ValueKind.holds]

theorem holds_integer {w : Value} :
    ValueKind.integer.holds w = true ↔ ∃ n m, w = .num n ∧ n.whole? = some m := by
  cases w with
  | num n =>
    cases n with
    | int n => simp [ValueKind.holds]
    | real x =>
      cases hx : x.toRat? with
      | none => simp [ValueKind.holds, Number.whole?, hx]
      | some q => simp [ValueKind.holds, Number.whole?, hx]
  | _ => simp [ValueKind.holds]

/-! ## Kinds of fields -/

/-- The keys of a kind with the schemas of their values. -/
def kindProperties (kind : String) (own : List (String × Check)) : List (String × Check) :=
  commonProperties ++ ("type", constant (.str kind)) :: own

/-- The schema of a kind is silent about mappings that have the keys it needs, no keys but its
own, and under each of them a value that its schema accepts. -/
theorem kindOf_eq_nil_iff {kind : String} {needed : List String} {own : List (String × Check)} :
    kindOf kind needed own loops v = [] ↔
      ∃ entries, v.opened loops = .map entries ∧
        (∀ key ∈ needed, (lookup? entries (key : String)).isSome) ∧
        (∀ entry ∈ entries, ∃ key ∈ (kindProperties kind own).map Prod.fst,
          entry.1 = .str (Text.ofString key)) ∧
        ∀ c ∈ kindProperties kind own, ∀ w, lookup? entries (c.1 : String) = some w →
          c.2 loops w = [] := by
  unfold kindOf
  rw [typed_eq_nil_iff, holds_object]
  constructor
  · rintro ⟨⟨entries, hv⟩, h⟩
    simp only [List.forall_mem_cons, List.not_mem_nil, false_imp_iff, implies_true, and_true,
      required_eq_nil_iff hv, closed_eq_nil_iff hv, properties_eq_nil_iff hv] at h
    exact ⟨entries, hv, h⟩
  · rintro ⟨entries, hv, h⟩
    refine ⟨⟨entries, hv⟩, ?_⟩
    simp only [List.forall_mem_cons, List.not_mem_nil, false_imp_iff, implies_true, and_true,
      required_eq_nil_iff hv, closed_eq_nil_iff hv, properties_eq_nil_iff hv]
    exact h

end Schema

end RegisterLayout
