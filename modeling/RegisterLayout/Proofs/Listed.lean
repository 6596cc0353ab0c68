import RegisterLayout.Proofs.Complaints

/-!
# Listed values

A mapping may list values as its fields.  Each of them is checked against the schema of items once
and against that of fields twice, for structs and for unions, so much of what is wrong with it is
found several times.

Principal definitions: `Value.listedFields`, `Schema.listedFindings`, `Schema.Place`.
Principal results: `Schema.past_listedFindings`, `Schema.past_fields_index`,
`Schema.place_of_mem`, `Schema.mem_listedFindings`.
-/

namespace RegisterLayout

open Value

/-! ## The parts of a mapping -/

namespace Value

variable {v u w : Value} {e : List (Value × Value)}

theorem eq_map_of_under? {key : String} (h : v.under? key = some w) :
    ∃ e, v = map e ∧ lookup? e key = some w := by
  unfold under? at h
  split at h
  · exact ⟨_, rfl, h⟩
  · cases h

theorem WellKeyed.of_under? {key : String} (hv : v.WellKeyed) (h : v.under? key = some w) :
    w.WellKeyed := by
  obtain ⟨e, rfl, hlookup⟩ := eq_map_of_under? h
  exact hv.of_lookup? hlookup

/-- The values that a mapping lists as its fields. -/
def listedFields (v : Value) : List Value :=
  match v.under? "fields" with
  | some (list xs) => xs
  | _ => []

theorem under?_fields {i : Nat} (hu : v.listedFields[i]? = some u) :
    v.under? "fields" = some (list v.listedFields) := by
  unfold listedFields at hu ⊢
  split at hu
  · next xs h => rw [h]
  · cases hu

theorem WellKeyed.of_listed {i : Nat} (hv : v.WellKeyed) (hu : v.listedFields[i]? = some u) :
    u.WellKeyed :=
  wellKeyed_list_iff.1 (hv.of_under? (under?_fields hu)) u (List.mem_of_getElem? hu)

theorem WellKeyed.keysApart {key : String} {cs : List (Value × Value)} (hv : v.WellKeyed)
    (h : v.under? key = some (map cs)) : keysApart cs = true :=
  (wellKeyed_map_iff.1 (hv.of_under? h)).1

end Value

namespace Schema

open Violation

variable {v w : Value} {e : List (Value × Value)} {found : List Violation}
  {inner : Loop → List Violation}

/-! ## What is found in a listed value -/

/-- What is found in a listed value, as an item and as a field. -/
def listedFindings (inner : Loop → List Violation) (u : Value) : List Violation :=
  item [] u ++ (anyField (inFields [] inner u) [] u ++ anyField (inFields [] inner u) [] u)

theorem past_item_of_not_map {u : Value} (hu : ∀ e, u ≠ .map e) {s : Value} :
    past s (item [] u) = [] := by
  refine past_eq_nil fun x hx => ?_
  rcases mem_item hx with ⟨hpath, -⟩ | ⟨e, _, _, _, rfl, -⟩
  · exact hpath
  · exact absurd rfl (hu e)

theorem past_anyField_of_not_map {u : Value} (hu : ∀ e, u ≠ .map e) {s : Value} :
    past s (anyField found [] u) = [] := by
  refine past_eq_nil fun x hx => ?_
  rcases mem_anyField hx with hpath | ⟨e, _, rfl, -⟩
  · exact hpath
  · exact absurd rfl (hu e)

/-- Below a key there is what the schemas of items and of fields find for that key. -/
theorem past_listedFindings (u : Value) (key : String) :
    past (.str key) (listedFindings inner u) = u.findingsUnder listedTables key := by
  rw [listedFindings, past_append, past_append]
  by_cases hu : ∃ e, u = .map e
  · obtain ⟨e, rfl⟩ := hu
    have hflat : ∀ f : KeyTable → List Violation,
        f itemProperties ++ (f fieldProperties ++ f fieldProperties) = listedTables.flatMap f :=
      fun f => by simp [listedTables]
    rw [findingsUnder_map, ← hflat]
    exact congrArg₂ _ past_item (congrArg₂ _ past_anyField past_anyField)
  · have hne : ∀ e, u ≠ .map e := fun e he => hu ⟨e, he⟩
    have hunder : u.under? key = none := by
      unfold under?
      split
      · exact absurd rfl (hne _)
      · rfl
    rw [past_item_of_not_map hne, past_anyField_of_not_map hne, findingsUnder, hunder]
    rfl

theorem cases_checksUnder_listedTables {key : String} {check : Check}
    (h : check ∈ checksUnder listedTables key) :
    key = "enum" ∧ check = constants ∨ key ≠ "enum" ∧ Flat check := by
  obtain ⟨table, htable, hlookup⟩ := mem_checksUnder.1 h
  have htables : table = itemProperties ∨ table = fieldProperties := by
    simpa [listedTables] using htable
  rcases htables with rfl | rfl
  · exact itemProperty_cases hlookup
  · have hmem := List.mem_singleton.1 (mem_of_lookup hlookup)
    obtain ⟨rfl, rfl⟩ := Prod.mk.inj hmem
    exact .inr ⟨by decide, (plain_oneOfConstants _).flat⟩

theorem mem_listedFindings_cases {u : Value} {y : Violation} (hy : y ∈ listedFindings inner u) :
    y.path = [] ∨ ∃ key z, y = z.under (.str (Text.ofString key)) ∧
      z ∈ u.findingsUnder listedTables key := by
  have hunder : ∀ {key : String} {z : Violation}, y = z.under (.str (Text.ofString key)) →
      y.path = [] ∨ ∃ key z, y = z.under (.str (Text.ofString key)) ∧
        z ∈ u.findingsUnder listedTables key := by
    rintro key z rfl
    exact .inr ⟨key, z, rfl, by rwa [← @past_listedFindings inner, mem_past]⟩
  rcases List.mem_append.1 hy with hitem | hany
  · rcases mem_item hitem with ⟨hpath, -⟩ | ⟨e, key, w, check, -, -, -, z, -, hz⟩
    · exact .inl hpath
    · exact hunder hz
  · rw [List.mem_append, or_self] at hany
    rcases mem_anyField hany with hpath | ⟨e, w, -, -, z, -, hz⟩
    · exact .inl hpath
    · exact hunder hz

/-- Where the findings in a listed value are: in itself, at a key about which there are complaints,
or at a constant. -/
theorem mem_listedFindings {u : Value} {y : Violation} (hy : y ∈ listedFindings inner u) :
    y.path = [] ∨
      (∃ key ∈ u.misfits listedTables, y.path = [.str (Text.ofString key)] ∧ y.branches = []) ∨
      ∃ c, y.path = [.str "enum", c] ∧ y.branches = [] ∧ u.holdsBadConstant = true := by
  rcases mem_listedFindings_cases hy with hpath | ⟨key, z, rfl, hz⟩
  · exact .inl hpath
  refine .inr ?_
  rw [path_under, branches_under]
  obtain ⟨w, hw, check, hcheck, hfound⟩ := mem_findingsUnder.1 hz
  have hmisfit := mem_misfits_of_mem known_listedTables hz
  rcases cases_checksUnder_listedTables hcheck with ⟨rfl, rfl⟩ | ⟨-, hflat⟩
  · obtain ⟨hplain, hpath | ⟨cs, rfl, c, hc, hpath, hholds⟩⟩ := mem_constants hfound
    · exact .inl ⟨"enum", hmisfit hpath, by rw [hpath], hplain⟩
    · refine .inr ⟨c.1, by rw [hpath], hplain, ?_⟩
      exact holdsBadConstant_iff.2 ⟨c, mem_badConstants.2 ⟨cs, hw, hc, hholds⟩⟩
  · obtain ⟨hpath, hplain⟩ := hflat w z hfound
    exact .inl ⟨key, hmisfit hpath, by rw [hpath], hplain⟩

/-- What is found in a field itself has one mark. -/
theorem ofType_of_mem_anyField {u : Value} {y : Violation} (hy : y ∈ anyField found [] u)
    (hpath : y.path = []) : y.ofType = ValueKind.object.holds u := by
  obtain ⟨z, rfl, -⟩ := exists_of_mem_typed hy
  rw [path_tagged] at hpath
  exact ofType_tagged hpath

/-- A choice that is found in a listed value itself is one of its kind. -/
theorem ofType_of_mem_listedFindings {u : Value} {y : Violation}
    (hy : y ∈ listedFindings inner u) (hpath : y.path = []) (hchoice : y.isChoice = true) :
    y.ofType = ValueKind.object.holds u := by
  rcases List.mem_append.1 hy with hitem | hany
  · rcases mem_item hitem with ⟨-, hplain⟩ | ⟨_, key, _, _, rfl, _, _, z, _, rfl⟩
    · simp [isChoice, hplain] at hchoice
    · rw [path_under] at hpath
      cases hpath
  · rw [List.mem_append, or_self] at hany
    exact ofType_of_mem_anyField hany hpath

/-- A listed value without a misfit has no kind, and the choice between the kinds is found in it
twice. -/
theorem two_le_countP_listedFindings {u : Value} (hfit : u.misfits listedTables = []) :
    2 ≤ (listedFindings inner u).countP
      (satisfying fun y => y.path = [] ∧ y.isChoice = true) := by
  have hrejected : ∀ kind, checkOf (inFields [] inner u) kind [] u ≠ [] := by
    intro kind hsilent
    obtain ⟨e, rfl, htype⟩ := type_of_checkOf hsilent
    have hunder : (Value.map e).under? "type" = some (.str kind.name) := htype
    have hne : equals (.str "bit") (.str kind.name) = false := by
      cases kind <;> decide +kernel
    have hbit : here (.notConstant (.str "bit")) ∈
        (Value.map e).findingsUnder listedTables "type" := by
      refine mem_findingsUnder.2
        ⟨_, hunder, constant (.str "bit"), mem_checksUnder.2 ⟨itemProperties, ?_, rfl⟩, ?_⟩
      · simp [listedTables]
      · simp [constant, hne]
    have hmisfit := mem_misfits_of_mem known_listedTables hbit rfl
    rw [hfit] at hmisfit
    cases hmisfit
  have hbranches : branchesOf (inFields [] inner u) u ≠ [] := by
    intro hnil
    exact hrejected .word (List.flatMap_eq_nil_iff.1 hnil .word (by simp [FieldKind.all]))
  have hany : 0 < (anyField (inFields [] inner u) [] u).countP
      (satisfying fun y => y.path = [] ∧ y.isChoice = true) := by
    refine List.countP_pos_iff.2 ⟨_, choice_mem_anyField hrejected, satisfying_iff.2 ⟨rfl, ?_⟩⟩
    simpa [isChoice, branches] using hbranches
  rw [listedFindings, List.countP_append, List.countP_append]
  omega

/-! ## Lists of fields -/

/-- Below an index the schema of a list finds what it finds in the value there, in a bit field as
an item and in the other kinds as a field. -/
theorem past_listRules {xs : List Value} {i : Nat} {u : Value} (hu : xs[i]? = some u)
    (kind : FieldKind) :
    past (.int i) (typed .array (listRules (inItems [] inner 0 xs) kind) [] (.list xs)) =
      if kind = .bitfield then item [] u else anyField (inFields [] inner u) [] u := by
  have hopened : (Value.list xs).opened [] = .list xs := rfl
  have hitems : past (.int i) (items item [] (.list xs)) = item [] u := by
    have hnumbered := past_numbered (item []) 0 hu
    rwa [Nat.zero_add, ← items_eq_numbered] at hnumbered
  have hfound : past (.int i) (withItems (inItems [] inner 0 xs) [] (.list xs)) =
      anyField (inFields [] inner u) [] u := by
    have hnumbered := past_numbered (fun x => anyField (inFields [] inner x) [] x) 0 hu
    rw [Nat.zero_add, ← inItems_eq_numbered] at hnumbered
    simpa [withItems, hopened] using hnumbered
  have hempty : past (.int i) (nonEmpty [] (.list xs)) = [] :=
    past_eq_nil fun x hx => (plain_nonEmpty.flat _ x hx).1
  rw [past_typed]
  cases kind <;> simp [listRules, hitems, hfound, hempty]

/-- Below an index of the list there is what is found in the value listed there. -/
theorem past_fields_index {xs : List Value} {i : Nat} {u : Value}
    (hlist : lookup? e "fields" = some (.list xs)) (hu : xs[i]? = some u) :
    past (.int i) (past (.str "fields") (branchesOf (inItems [] inner 0 xs) (.map e))) =
      listedFindings inner u := by
  have hunder : (Value.map e).under? "fields" = some (.list xs) := hlist
  have hchecks : checksUnder (kindTables (inItems [] inner 0 xs)) "fields" =
      [FieldKind.bitfield, .struct, .union].map fun kind =>
        typed .array (listRules (inItems [] inner 0 xs) kind) := rfl
  rw [past_branchesOf, findingsUnder, hunder]
  simp only [hchecks, List.flatMap_map, past_flatMap, past_listRules hu]
  simp [listedFindings]

/-- What the schemas of lists find: something about the whole, or below an index what is found in
the value there, as an item or as a field. -/
theorem mem_typed_listRules {kind : FieldKind} {y : Violation}
    (hfound : ∀ xs, w = .list xs → found = inItems [] inner 0 xs)
    (hy : y ∈ typed .array (listRules found kind) [] w) :
    y.path = [] ∧ y.branches = [] ∨ ∃ xs, w = .list xs ∧ ∃ (i : Nat) (u : Value), xs[i]? = some u ∧
      ∃ z, y = z.under (.int i) ∧
        (kind = .bitfield ∧ z ∈ item [] u ∨
          kind ≠ .bitfield ∧ z ∈ anyField (inFields [] inner u) [] u) := by
  obtain ⟨z, rfl, hz | ⟨check, hcheck, hz⟩⟩ := exists_of_mem_typed hy
  · rw [path_tagged, branches_tagged]
    exact .inl (path_of_mem_hasType hz)
  rw [path_tagged, branches_tagged]
  have hcases : kind = .bitfield ∧ check = items item ∨ check = nonEmpty ∨
      kind ≠ .bitfield ∧ check = withItems found := by
    cases kind <;> simp_all [listRules]
  rcases hcases with ⟨hkind, rfl⟩ | rfl | ⟨hkind, rfl⟩
  · obtain ⟨xs, rfl, i, u, hu, t, ht, rfl⟩ := exists_of_mem_items hz
    exact .inr ⟨xs, rfl, i, u, hu, t, tagged_under, .inl ⟨hkind, ht⟩⟩
  · exact .inl (plain_nonEmpty.flat w z hz)
  · obtain ⟨xs, rfl, hmem⟩ := exists_of_mem_withItems hz
    rw [hfound xs rfl, inItems_eq_numbered, mem_numbered] at hmem
    obtain ⟨i, u, hu, t, ht, rfl⟩ := hmem
    exact .inr ⟨xs, rfl, i, u, hu, t, by rw [tagged_under, Nat.zero_add], .inr ⟨hkind, ht⟩⟩

/-- Where the violations of the five kinds are. -/
inductive Place (inner : Loop → List Violation) (e : List (Value × Value)) (kind : FieldKind) :
    Violation → Prop
  | self {x : Violation} (path : x.path = []) (plain : x.branches = []) : Place inner e kind x
  | key {key : String} {w : Value} {check : Check} {y : Violation}
      (hw : lookup? e (key : String) = some w)
      (hcheck : (propertiesOf (inFields [] inner (.map e)) kind).lookup key = some check)
      (hy : y ∈ check [] w) (path : y.path = []) (plain : y.branches = []) :
      Place inner e kind (y.under (.str key))
  | constant {cs : List (Value × Value)} {c : Value × Value} {y : Violation} (hkind : kind = .word)
      (hw : lookup? e "enum" = some (.map cs)) (hy : y ∈ constants [] (.map cs))
      (path : y.path = [c.1]) (plain : y.branches = []) :
      Place inner e kind (y.under (.str "enum"))
  | listed {xs : List Value} {i : Nat} {u : Value} {y : Violation}
      (hw : lookup? e "fields" = some (.list xs)) (hu : xs[i]? = some u)
      (hy : kind = .bitfield ∧ y ∈ item [] u ∨
        kind ≠ .bitfield ∧ y ∈ anyField (inFields [] inner u) [] u) :
      Place inner e kind ((y.under (.int i)).under (.str "fields"))

theorem place_of_mem {kind : FieldKind} {x : Violation}
    (hx : x ∈ checkOf (inFields [] inner (.map e)) kind [] (.map e)) : Place inner e kind x := by
  rcases mem_kindOf (nodup_propertiesOf kind) hx with
    ⟨hpath, hplain⟩ | ⟨e', key, w, check, hmap, hw, hcheck, y, hy, rfl⟩
  · exact .self hpath hplain
  obtain rfl := Value.map.inj hmap
  rcases property_cases hcheck with
    ⟨rfl, hkind, rfl⟩ | ⟨rfl, rfl⟩ | ⟨-, -, hflat⟩
  · obtain ⟨hplain, hpath | ⟨cs, rfl, c, -, hpath, -⟩⟩ := mem_constants hy
    · exact .key hw hcheck hy hpath hplain
    · exact .constant hkind hw hy hpath hplain
  · have hfound : ∀ xs, w = .list xs → inFields [] inner (.map e) = inItems [] inner 0 xs := by
      rintro xs rfl
      rw [inFields, inEntries_eq hw, inFields]
    rcases mem_typed_listRules hfound hy with
      ⟨hpath, hplain⟩ | ⟨xs, rfl, i, u, hu, z, rfl, hz⟩
    · exact .key hw hcheck hy hpath hplain
    · exact .listed hw hu hz
  · obtain ⟨hpath, hplain⟩ := hflat w y hy
    exact .key hw hcheck hy hpath hplain

/-! ## What the five kinds find -/

/-- What the five kinds find in a value, given what is found in collections that contain
themselves. -/
def findingsOf (inner : Loop → List Violation) (v : Value) : List Violation :=
  branchesOf (inFields [] inner v) v

theorem inFields_map {xs : List Value} (hlist : lookup? e "fields" = some (.list xs)) :
    inFields [] inner (.map e) = inItems [] inner 0 xs := by
  rw [inFields, inEntries_eq hlist, inFields]

/-- Below an index of the list there is what is found in the value listed there. -/
theorem pastAll_listed {i : Nat} {u : Value} (hu : (Value.map e).listedFields[i]? = some u) :
    pastAll [.str "fields", .int i] (findingsOf inner (.map e)) = listedFindings inner u := by
  have hlist : lookup? e "fields" = some (.list (Value.map e).listedFields) := under?_fields hu
  rw [findingsOf, inFields_map hlist]
  exact past_fields_index hlist hu

/-- Where the five kinds find something: in the mapping itself, at one of its keys, at a constant
of its enumeration, or in a listed value. -/
theorem mem_findingsOf {x : Violation} (hx : x ∈ findingsOf inner (.map e)) :
    x.path = [] ∧ x.branches = [] ∨
      (∃ key : String, x.path = [.str (Text.ofString key)] ∧ x.branches = []) ∨
      (∃ c, x.path = [.str "enum", c] ∧ x.branches = [] ∧
        (Value.map e).holdsBadConstant = true) ∨
      ∃ (i : Nat) (u : Value), (Value.map e).listedFields[i]? = some u ∧
        ∃ y ∈ listedFindings inner u, x = underAll [.str "fields", .int i] y := by
  obtain ⟨kind, -, hmem⟩ := List.mem_flatMap.1 hx
  cases place_of_mem hmem with
  | self hpath hplain => exact .inl ⟨hpath, hplain⟩
  | @key key w check y _ _ _ hpath hplain =>
    exact .inr (.inl ⟨key, by rw [path_under, hpath], by rw [branches_under, hplain]⟩)
  | @constant cs c y _ hw hy hpath hplain =>
    refine .inr (.inr (.inl ⟨c.1, by rw [path_under, hpath], by rw [branches_under, hplain], ?_⟩))
    obtain ⟨-, hnil | ⟨_, hcs, d, hd, -, hholds⟩⟩ := mem_constants hy
    · rw [hpath] at hnil
      cases hnil
    · obtain rfl := Value.map.inj hcs
      exact holdsBadConstant_iff.2 ⟨d, mem_badConstants.2 ⟨_, hw, hd, hholds⟩⟩
  | @listed xs i u y hw hu _ =>
    have hlisted : (Value.map e).listedFields = xs := by
      have hunder : (Value.map e).under? "fields" = some (.list xs) := hw
      rw [listedFields, hunder]
    refine .inr (.inr (.inr ⟨i, u, by rwa [hlisted], y, ?_, rfl⟩))
    rw [← pastAll_listed (by rwa [hlisted]), mem_pastAll]
    exact hx

/-- Without a listed value the five kinds find what they do apart from fields. -/
theorem findingsOf_of_unlisted (hlisted : (Value.map e).listedFields = []) :
    findingsOf inner (.map e) = branchesOf [] (.map e) := by
  have hfound : ∀ w, lookup? e "fields" = some w → ∀ keywords : List Check,
      typed .array (keywords ++ [withItems (inFields [] inner (.map e))]) [] w =
        typed .array (keywords ++ [withItems []]) [] w := by
    intro w hw keywords
    have hitems : withItems (inFields [] inner (.map e)) [] w = withItems [] [] w := by
      have hunder : (Value.map e).under? "fields" = some w := hw
      unfold withItems
      split
      · next xs hxs =>
        rw [opened_nil] at hxs
        subst hxs
        rw [listedFields, hunder] at hlisted
        obtain rfl : xs = [] := hlisted
        rw [inFields_map hw]
        rfl
      · rfl
    rw [typed_eq, typed_eq, List.flatMap_append, List.flatMap_append, List.flatMap_singleton,
      List.flatMap_singleton, hitems]
  have hopened : (Value.map e).opened [] = .map e := rfl
  have hproperties : ∀ kind, properties (propertiesOf (inFields [] inner (.map e)) kind) [] (.map e)
      = properties (propertiesOf [] kind) [] (.map e) := by
    intro kind
    simp only [properties, hopened]
    cases hw : lookup? e "fields" with
    | none => cases kind <;> simp [propertiesOf, kindProperties, owns, hw]
    | some w =>
      have hstruct := hfound w hw []
      have hunion := hfound w hw [nonEmpty]
      cases kind <;>
        simp_all [propertiesOf, kindProperties, owns, listRules]
  refine List.flatMap_congr fun kind _ => ?_
  rw [checkOf_eq, checkOf_eq, fst_propertiesOf, fst_propertiesOf, typed_eq, typed_eq]
  simp only [List.flatMap_cons, hproperties kind]

end Schema

end RegisterLayout
