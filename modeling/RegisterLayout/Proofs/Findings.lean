import Mathlib.Data.List.Basic
import RegisterLayout.Proofs.Keyword

/-!
# Where violations are found

The violations that a check finds, sorted by where they are: those of the value itself, and those
below one step, which are the ones that a check of the value behind that step finds.  A kind of
field finds below a key what its schema for that key finds, and only the schemas of lists and
enumerations find anything further down.

Principal definitions: `past`, `pastAll` — the violations below a step or several, as seen from
there.
Principal results: `mem_past`, `countP_pastAll`, `exists_of_mem_typed`,
`exists_of_mem_properties`, `past_kindOf`, `past_numbered`.
-/

namespace RegisterLayout

open Value

theorem ofString_injective : Function.Injective Text.ofString := by
  intro s t h
  exact String.toList_inj.1 (List.map_injective_iff.2 (fun _ _ => CodePoint.char.inj) h)

theorem str_ofString_inj {s t : String} :
    Value.str (Text.ofString s) = .str (Text.ofString t) ↔ s = t := by
  rw [Value.str.injEq, ofString_injective.eq_iff]

namespace Violation

variable {s : Value} {x y : Violation} {xs ys : List Violation}

@[simp] theorem path_under : (y.under s).path = s :: y.path := by
  cases y
  rfl

@[simp] theorem branches_under : (y.under s).branches = y.branches := by
  cases y
  rfl

@[simp] theorem ofType_under : (y.under s).ofType = y.ofType := by
  cases y
  rfl

@[simp] theorem isChoice_under : (y.under s).isChoice = y.isChoice := by
  cases y
  rfl

@[simp] theorem path_here {c : Complaint} : (here c).path = [] := rfl

theorem under_inj {t : Value} (h : x.under s = y.under t) : s = t ∧ x = y := by
  cases x
  cases y
  simp only [under, mk.injEq, List.cons.injEq] at h
  obtain ⟨⟨hst, hpath⟩, hcomplaint, htype, hbranches⟩ := h
  exact ⟨hst, by rw [hpath, hcomplaint, htype, hbranches]⟩

/-- A violation that is not of the value itself is past some step. -/
theorem eq_under_of_path {q : List Value} (h : x.path = s :: q) :
    ∃ y : Violation, x = y.under s ∧ y.path = q := by
  obtain ⟨path, complaint, ofType, branches⟩ := x
  obtain rfl : path = s :: q := h
  exact ⟨mk q complaint ofType branches, rfl, rfl⟩

open Classical in
/-- A violation below a step as seen from there, if it is below that step. -/
noncomputable def dropStep? (s : Value) (x : Violation) : Option Violation :=
  if h : ∃ y : Violation, x = y.under s then some h.choose else none

theorem dropStep?_eq_some : dropStep? s x = some y ↔ x = y.under s := by
  unfold dropStep?
  split
  · next h =>
    constructor
    · intro hy
      rw [← Option.some.inj hy]
      exact h.choose_spec
    · rintro rfl
      exact congrArg some (under_inj h.choose_spec).2.symm
  · next h => exact iff_of_false nofun fun hy => h ⟨y, hy⟩

theorem dropStep?_under : dropStep? s (y.under s) = some y := dropStep?_eq_some.2 rfl

theorem dropStep?_of_path_nil (h : x.path = []) : dropStep? s x = none := by
  by_contra hne
  obtain ⟨y, hy⟩ := Option.ne_none_iff_exists'.1 hne
  rw [dropStep?_eq_some.1 hy, path_under] at h
  cases h

theorem dropStep?_under_of_ne {t : Value} (h : t ≠ s) : dropStep? s (y.under t) = none := by
  by_contra hne
  obtain ⟨z, hz⟩ := Option.ne_none_iff_exists'.1 hne
  exact h (under_inj (dropStep?_eq_some.1 hz)).1

/-- The violations below a step, as seen from there. -/
noncomputable def past (s : Value) (xs : List Violation) : List Violation :=
  xs.filterMap (dropStep? s)

theorem mem_past : y ∈ past s xs ↔ y.under s ∈ xs := by
  simp only [past, List.mem_filterMap, dropStep?_eq_some, exists_eq_right]

@[simp] theorem past_nil : past s [] = [] := rfl

theorem past_append : past s (xs ++ ys) = past s xs ++ past s ys :=
  List.filterMap_append

theorem past_flatMap {α : Type} {f : α → List Violation} {as : List α} :
    past s (as.flatMap f) = as.flatMap fun a => past s (f a) := by
  induction as with
  | nil => rfl
  | cons a as ih => rw [List.flatMap_cons, List.flatMap_cons, past_append, ih]

theorem past_map_under : past s (xs.map (under s)) = xs := by
  unfold past
  rw [List.filterMap_map]
  have hdrop : dropStep? s ∘ under s = some := funext fun y => dropStep?_under
  rw [hdrop, List.filterMap_some]

theorem past_map_under_of_ne {t : Value} (h : t ≠ s) : past s (xs.map (under t)) = [] := by
  unfold past
  rw [List.filterMap_map, List.filterMap_eq_nil_iff]
  exact fun y _ => dropStep?_under_of_ne h

theorem past_eq_nil (h : ∀ x ∈ xs, x.path = []) : past s xs = [] :=
  List.filterMap_eq_nil_iff.2 fun x hx => dropStep?_of_path_nil (h x hx)

/-- The test of a property of violations. -/
noncomputable def satisfying (p : Violation → Prop) (x : Violation) : Bool :=
  @decide (p x) (Classical.propDecidable _)

theorem satisfying_iff {p : Violation → Prop} : satisfying p x = true ↔ p x :=
  @decide_eq_true_iff _ (Classical.propDecidable _)

theorem satisfying_eq_false_iff {p : Violation → Prop} : satisfying p x = false ↔ ¬p x := by
  rw [← Bool.not_eq_true, satisfying_iff]

/-- A violation on a path. -/
noncomputable def onPath (q : List Value) : Violation → Bool := satisfying fun x => x.path = q

theorem onPath_iff {q : List Value} : onPath q x = true ↔ x.path = q := satisfying_iff

/-! ## Several steps -/

/-- A violation further down, as seen from where some steps begin. -/
def underAll (q : List Value) (y : Violation) : Violation := q.foldr under y

/-- The violations below some steps, as seen from there. -/
noncomputable def pastAll (q : List Value) (xs : List Violation) : List Violation :=
  q.foldl (fun xs s => past s xs) xs

@[simp] theorem underAll_nil : underAll [] y = y := rfl

@[simp] theorem underAll_cons {q : List Value} : underAll (s :: q) y = (underAll q y).under s := rfl

@[simp] theorem pastAll_nil : pastAll [] xs = xs := rfl

@[simp] theorem pastAll_cons {q : List Value} : pastAll (s :: q) xs = pastAll q (past s xs) := rfl

@[simp] theorem path_underAll {q : List Value} : (underAll q y).path = q ++ y.path := by
  induction q with
  | nil => rfl
  | cons s q ih => rw [underAll_cons, path_under, ih, List.cons_append]

@[simp] theorem branches_underAll {q : List Value} : (underAll q y).branches = y.branches := by
  induction q with
  | nil => rfl
  | cons s q ih => rw [underAll_cons, branches_under, ih]

@[simp] theorem ofType_underAll {q : List Value} : (underAll q y).ofType = y.ofType := by
  induction q with
  | nil => rfl
  | cons s q ih => rw [underAll_cons, ofType_under, ih]

theorem mem_pastAll {q : List Value} : y ∈ pastAll q xs ↔ underAll q y ∈ xs := by
  induction q generalizing xs with
  | nil => rfl
  | cons s q ih => rw [pastAll_cons, ih, mem_past, underAll_cons]

/-- A violation on a path that begins with some steps is below those steps. -/
theorem eq_underAll_of_path {q p : List Value} (h : x.path = q ++ p) :
    ∃ y : Violation, x = underAll q y ∧ y.path = p := by
  induction q generalizing x with
  | nil => exact ⟨x, rfl, h⟩
  | cons s q ih =>
    obtain ⟨z, rfl, hz⟩ := eq_under_of_path h
    obtain ⟨y, rfl, hy⟩ := ih hz
    exact ⟨y, rfl, hy⟩

/-- Violations below some steps are counted as seen from there. -/
theorem countP_pastAll (q : List Value) (p : Violation → Prop) :
    xs.countP (satisfying fun x => ∃ y, x = underAll q y ∧ p y) =
      (pastAll q xs).countP (satisfying p) := by
  induction q generalizing xs with
  | nil => simp
  | cons s q ih =>
    rw [pastAll_cons, ← ih, past, List.countP_filterMap]
    refine congrArg (List.countP · xs) (funext fun x => ?_)
    rw [Bool.eq_iff_iff, satisfying_iff]
    cases hx : dropStep? s x with
    | none =>
      refine iff_of_false (fun ⟨y, hy, _⟩ => ?_) Bool.false_ne_true
      rw [hy, underAll_cons, dropStep?_under] at hx
      cases hx
    | some z =>
      obtain rfl := dropStep?_eq_some.1 hx
      rw [Option.map_some, Option.getD_some, satisfying_iff]
      refine exists_congr fun y => and_congr_left fun _ => ?_
      rw [underAll_cons]
      exact ⟨fun heq => (under_inj heq).2, fun heq => by rw [heq]⟩

theorem countP_onPath (q : List Value) :
    xs.countP (onPath q) = (pastAll q xs).countP fun y => y.path.isEmpty := by
  have hpath : onPath q = satisfying fun x => ∃ y, x = underAll q y ∧ y.path = [] := by
    funext x
    rw [Bool.eq_iff_iff, onPath_iff, satisfying_iff]
    constructor
    · intro hx
      exact eq_underAll_of_path (hx.trans (List.append_nil q).symm)
    · rintro ⟨y, rfl, hy⟩
      rw [path_underAll, hy, List.append_nil]
  rw [hpath, countP_pastAll]
  refine congrArg (List.countP · _) (funext fun y => ?_)
  rw [Bool.eq_iff_iff, satisfying_iff, List.isEmpty_iff]

/-- What holds of any two violations below some steps, as seen from there. -/
theorem pairwise_pastAll {q : List Value} {R : Violation → Violation → Prop}
    (h : (pastAll q xs).Pairwise fun y z => R (underAll q y) (underAll q z)) :
    xs.Pairwise fun x x' =>
      ∀ y z, x = underAll q y → x' = underAll q z → R x x' := by
  induction q generalizing xs R with
  | nil => exact h.imp fun hR y z hy hz => by simpa [hy, hz] using hR
  | cons s q ih =>
    have hpast : (past s xs).Pairwise _ := ih (R := fun y z => R (y.under s) (z.under s)) h
    rw [past, List.pairwise_filterMap] at hpast
    refine hpast.imp fun {x x'} hR y z hy hz => ?_
    rw [underAll_cons] at hy hz
    rw [hy, hz]
    exact hR _ (dropStep?_eq_some.2 hy) _ (dropStep?_eq_some.2 hz) y z rfl rfl

end Violation

/-! ## Keywords -/

namespace Schema

open Violation

variable {v w : Value} {s : Value} {e : List (Value × Value)}

/-- What a schema that begins with a type makes of the violations of its keywords. -/
def tagged (ofType : Bool) : Violation → Violation
  | .mk [] complaint _ branches => .mk [] complaint ofType branches
  | violation => violation

theorem typed_eq {t : ValueKind} {keywords : List Check} {loops : Loops Value} :
    typed t keywords loops v =
      (hasType t loops v ++ keywords.flatMap (· loops v)).map
        (tagged (t.holds (v.opened loops))) := rfl

@[simp] theorem path_tagged {b : Bool} {x : Violation} : (tagged b x).path = x.path := by
  obtain ⟨path, _, _, _⟩ := x
  cases path <;> rfl

@[simp] theorem branches_tagged {b : Bool} {x : Violation} :
    (tagged b x).branches = x.branches := by
  obtain ⟨path, _, _, _⟩ := x
  cases path <;> rfl

theorem ofType_tagged {b : Bool} {x : Violation} (h : x.path = []) : (tagged b x).ofType = b := by
  obtain ⟨path, _, _, _⟩ := x
  obtain rfl : path = [] := h
  rfl

theorem tagged_under {b : Bool} {y : Violation} : tagged b (y.under s) = y.under s := by
  cases y
  rfl

theorem past_map_tagged {b : Bool} {xs : List Violation} :
    past s (xs.map (tagged b)) = past s xs := by
  unfold past
  rw [List.filterMap_map]
  refine List.filterMap_congr fun x _ => ?_
  by_cases h : ∃ y : Violation, x = y.under s
  · obtain ⟨y, rfl⟩ := h
    rw [Function.comp_apply, tagged_under]
  · have h' : ¬∃ y : Violation, tagged b x = y.under s := by
      rintro ⟨y, hy⟩
      have hpath : x.path = s :: y.path := by rw [← path_under, ← hy, path_tagged]
      obtain ⟨z, hz, -⟩ := eq_under_of_path hpath
      exact h ⟨z, hz⟩
    rw [Function.comp_apply, dropStep?, dropStep?, dif_neg h, dif_neg h']

theorem path_of_mem_hasType {t : ValueKind} {x : Violation} (h : x ∈ hasType t [] v) :
    x.path = [] ∧ x.branches = [] := by
  unfold hasType at h
  split at h
  · cases h
  · obtain rfl := List.mem_singleton.1 h
    exact ⟨rfl, rfl⟩

/-- What a schema that begins with a type finds is about the type, or found by a keyword. -/
theorem exists_of_mem_typed {t : ValueKind} {keywords : List Check} {x : Violation}
    (h : x ∈ typed t keywords [] v) :
    ∃ z, x = tagged (t.holds v) z ∧
      (z ∈ hasType t [] v ∨ ∃ check ∈ keywords, z ∈ check [] v) := by
  rw [typed_eq, opened_nil] at h
  obtain ⟨z, hz, rfl⟩ := List.mem_map.1 h
  exact ⟨z, rfl, (List.mem_append.1 hz).imp_right List.mem_flatMap.1⟩

theorem past_typed {t : ValueKind} {keywords : List Check} :
    past s (typed t keywords [] v) = keywords.flatMap fun check => past s (check [] v) := by
  rw [typed_eq, past_map_tagged, past_append, past_flatMap,
    past_eq_nil fun x hx => (path_of_mem_hasType hx).1, List.nil_append]

theorem past_properties {checks : List (String × Check)} :
    past s (properties checks [] (.map e)) = checks.flatMap fun c =>
      match lookup? e c.1 with
      | some w => past s ((c.2 [] w).map (.under (.str c.1)))
      | none => [] := by
  have hopened : (Value.map e).opened [] = .map e := rfl
  simp only [properties, hopened, past_flatMap]
  refine List.flatMap_congr fun c _ => ?_
  cases lookup? e c.1 <;> rfl

/-- Below a key properties find what the schema for that key finds. -/
theorem past_properties_key {checks : List (String × Check)} {key : String}
    (hnodup : (checks.map Prod.fst).Nodup) :
    past (.str key) (properties checks [] (.map e)) =
      match lookup? e key, checks.lookup key with
      | some w, some check => check [] w
      | _, _ => [] := by
  rw [past_properties]
  induction checks with
  | nil => cases lookup? e key <;> rfl
  | cons c checks ih =>
    obtain ⟨hc, hnodup⟩ := List.nodup_cons.1 hnodup
    rw [List.flatMap_cons, List.lookup_cons, ih hnodup]
    by_cases hkey : key = c.1
    · subst hkey
      have hnone : checks.lookup c.1 = none := by
        rw [List.lookup_eq_none_iff]
        intro d hd
        have hne : c.1 ≠ d.1 := fun heq => hc (heq ▸ List.mem_map_of_mem hd)
        simpa using hne
      cases lookup? e c.1 with
      | none => simp
      | some w => simp [hnone, past_map_under]
    · have hne : Value.str (Text.ofString c.1) ≠ .str (Text.ofString key) :=
        fun h => hkey (str_ofString_inj.1 h).symm
      have hbeq : (key == c.1) = false := by simpa using hkey
      rw [hbeq]
      cases lookup? e c.1 with
      | none => rfl
      | some w =>
        simp only [past_map_under_of_ne hne, List.nil_append]

/-- What properties find is found by the schema for some key, in the value under it. -/
theorem exists_of_mem_properties {checks : List (String × Check)} {x : Violation}
    (hnodup : (checks.map Prod.fst).Nodup) (h : x ∈ properties checks [] v) :
    ∃ e key w check, v = .map e ∧ lookup? e (key : String) = some w ∧
      checks.lookup key = some check ∧ ∃ y ∈ check [] w, x = y.under (.str key) := by
  have hmem := h
  unfold properties at h
  rw [opened_nil] at h
  split at h
  · next _ e =>
    obtain ⟨⟨key, check⟩, -, h⟩ := List.mem_flatMap.1 h
    cases hw : lookup? e key with
    | none => simp [hw] at h
    | some w =>
      simp only [hw] at h
      obtain ⟨y, -, rfl⟩ := List.mem_map.1 h
      have hpast := mem_past.2 hmem
      rw [past_properties_key hnodup, hw] at hpast
      cases hcheck : checks.lookup key with
      | none => simp [hcheck] at hpast
      | some check =>
        exact ⟨e, key, w, check, rfl, hw, hcheck, y, by simpa [hcheck] using hpast, rfl⟩
  · cases h

theorem path_of_mem_required {keys : List String} {x : Violation} (h : x ∈ required keys [] v) :
    x.path = [] ∧ x.branches = [] := by
  unfold required at h
  split at h
  · obtain ⟨key, -, rfl⟩ := List.mem_map.1 h
    exact ⟨rfl, rfl⟩
  · cases h

theorem past_required {keys : List String} : past s (required keys [] v) = [] :=
  past_eq_nil fun _ hx => (path_of_mem_required hx).1

theorem path_of_mem_closed {keys : List String} {x : Violation} (h : x ∈ closed keys [] v) :
    x.path = [] ∧ x.branches = [] := by
  unfold closed at h
  split at h
  · simp only at h
    split at h
    · cases h
    · obtain rfl := List.mem_singleton.1 h
      exact ⟨rfl, rfl⟩
  · cases h

theorem past_closed {keys : List String} : past s (closed keys [] v) = [] :=
  past_eq_nil fun _ hx => (path_of_mem_closed hx).1

/-- Below a key a kind finds what its schema for that key finds. -/
theorem past_kindOf {kind key : String} {needed : List String} {own : List (String × Check)}
    (hnodup : ((kindProperties kind own).map Prod.fst).Nodup) :
    past (.str key) (kindOf kind needed own [] (.map e)) =
      match lookup? e key, (kindProperties kind own).lookup key with
      | some w, some check => check [] w
      | _, _ => [] := by
  rw [kindOf, past_typed, List.flatMap_cons, List.flatMap_cons, List.flatMap_cons,
    List.flatMap_nil, past_required, past_closed, List.nil_append, List.nil_append,
    List.append_nil]
  exact past_properties_key hnodup

/-! ## Lists -/

/-- What is found in the values of a list, numbered from an index. -/
def numbered (found : Value → List Violation) (index : Nat) : List Value → List Violation
  | [] => []
  | x :: xs => (found x).map (.under (.int index)) ++ numbered found (index + 1) xs

theorem items_eq_numbered {check : Check} {xs : List Value} :
    items check [] (.list xs) = numbered (check []) 0 xs := by
  have hshift : ∀ index : Nat,
      (xs.mapIdx fun i x => (check [] x).map (.under (.int (index + i : Nat)))).flatten
        = numbered (check []) index xs := by
    induction xs with
    | nil => exact fun _ => rfl
    | cons x xs ih =>
      intro index
      rw [List.mapIdx_cons, List.flatten_cons, numbered, ← ih (index + 1)]
      simp only [Nat.add_zero, Nat.add_assoc, Nat.add_comm 1]
  simpa [items, Value.opened] using hshift 0

theorem inItems_eq_numbered {inner : Loop → List Violation} {index : Nat} {xs : List Value} :
    inItems [] inner index xs =
      numbered (fun x => anyField (inFields [] inner x) [] x) index xs := by
  induction xs generalizing index with
  | nil => rfl
  | cons x xs ih => rw [inItems, numbered, ih]

theorem mem_numbered {found : Value → List Violation} {index : Nat} {xs : List Value}
    {x : Violation} :
    x ∈ numbered found index xs ↔ ∃ (i : Nat) (u : Value), xs[i]? = some u ∧
      ∃ y ∈ found u, x = y.under (.int (index + i : Nat)) := by
  induction xs generalizing index with
  | nil => simp [numbered]
  | cons w xs ih =>
    rw [numbered, List.mem_append, ih, List.mem_map]
    constructor
    · rintro (⟨y, hy, rfl⟩ | ⟨i, u, hu, y, hy, rfl⟩)
      · exact ⟨0, w, rfl, y, hy, rfl⟩
      · exact ⟨i + 1, u, hu, y, hy, by rw [Nat.add_assoc, Nat.add_comm 1]⟩
    · rintro ⟨i, u, hu, y, hy, rfl⟩
      cases i with
      | zero =>
        obtain rfl := Option.some.inj hu
        exact .inl ⟨y, hy, rfl⟩
      | succ i => exact .inr ⟨i, u, hu, y, hy, by rw [Nat.add_assoc, Nat.add_comm 1]⟩

/-- A check for every item finds something in lists only, below the index of the item. -/
theorem exists_of_mem_items {check : Check} {x : Violation} (h : x ∈ items check [] v) :
    ∃ xs, v = .list xs ∧ ∃ (i : Nat) (u : Value), xs[i]? = some u ∧
      ∃ y ∈ check [] u, x = y.under (.int i) := by
  have hmem := h
  unfold items at h
  rw [opened_nil] at h
  split at h
  · next _ xs =>
    rw [items_eq_numbered, mem_numbered] at hmem
    obtain ⟨i, u, hu, y, hy, rfl⟩ := hmem
    exact ⟨xs, rfl, i, u, hu, y, hy, by rw [Nat.zero_add]⟩
  · cases h

theorem exists_of_mem_withItems {found : List Violation} {x : Violation}
    (h : x ∈ withItems found [] v) : ∃ xs, v = .list xs ∧ x ∈ found := by
  unfold withItems at h
  rw [opened_nil] at h
  split at h
  · next _ xs => exact ⟨xs, rfl, h⟩
  · cases h

/-- Below an index there is what is found in the value under that index. -/
theorem past_numbered (found : Value → List Violation) (index : Nat) {i : Nat} {xs : List Value}
    {u : Value} (hu : xs[i]? = some u) :
    past (.int (index + i : Nat)) (numbered found index xs) = found u := by
  induction xs generalizing index i with
  | nil => cases hu
  | cons w xs ih =>
    have hrest : past (.int index) (numbered found (index + 1) xs) = [] := by
      refine List.filterMap_eq_nil_iff.2 fun x hx => ?_
      obtain ⟨j, _, -, y, -, rfl⟩ := mem_numbered.1 hx
      refine dropStep?_under_of_ne ?_
      simp only [ne_eq, Value.num.injEq, Number.int.injEq]
      omega
    rw [numbered, past_append]
    cases i with
    | zero =>
      obtain rfl := Option.some.inj hu
      rw [Nat.add_zero, past_map_under, hrest, List.append_nil]
    | succ i =>
      have hne : Value.int index ≠ .int (index + (i + 1) : Nat) := by
        simp only [ne_eq, Value.num.injEq, Number.int.injEq]
        omega
      rw [past_map_under_of_ne hne, List.nil_append, Nat.add_comm i 1, ← Nat.add_assoc]
      exact ih (index + 1) hu

end Schema

end RegisterLayout
