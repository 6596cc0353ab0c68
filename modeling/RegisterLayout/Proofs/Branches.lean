import RegisterLayout.Proofs.Flat
import RegisterLayout.Proofs.Validation

/-!
# The violations of the five kinds

A mapping that no kind accepts has one violation, which keeps those that the five kinds find in it
side by side.  They are of the mapping itself, of the values under its keys, of the constants of an
enumeration and, below the key `fields`, of what is listed there: each value of the list is checked
against the schema of items once and against that of fields twice, for structs and for unions.

Principal definitions: `Schema.checkOf`, `Schema.propertiesOf`, `Schema.branchesOf`.
Principal results: `Schema.property_cases`, `Schema.mem_item`, `Schema.mem_anyField`,
`Schema.anyField_eq_of_rejected`.
-/

namespace RegisterLayout

open Value

namespace Schema

open Violation

variable {v w : Value} {s : Value} {e : List (Value × Value)} {found : List Violation}

/-! ## Kinds side by side -/

/-- The keys that a kind needs. -/
def needs : FieldKind → List String
  | .word => ["type", "bits"]
  | .bitfield => ["type", "bits", "fields"]
  | .struct => ["type", "fields"]
  | .blob => ["type", "bytes"]
  | .union => ["type", "name", "fields"]

/-- What a kind asks of the list of its fields, given the violations in them. -/
def listRules (found : List Violation) : FieldKind → List Check
  | .bitfield => [items item]
  | .union => [nonEmpty, withItems found]
  | _ => [withItems found]

/-- The keys of a kind beyond those of every kind, with the schemas of their values. -/
def owns (found : List Violation) : FieldKind → List (String × Check)
  | .word => [("bits", width), ("signed", typed .boolean []), ("typedef", text),
      ("enum", constants)]
  | .bitfield => [("bits", width), ("fields", typed .array (listRules found .bitfield))]
  | .struct => [("fields", typed .array (listRules found .struct))]
  | .blob => [("bytes", typed .integer [minimum 1]), ("decl", text)]
  | .union => [("fields", typed .array (listRules found .union))]

/-- The schema of a kind, given the violations in its fields. -/
def checkOf (found : List Violation) (kind : FieldKind) : Check :=
  kindOf kind.name (needs kind) (owns found kind)

/-- The schemas of the values under the keys of a kind. -/
def propertiesOf (found : List Violation) (kind : FieldKind) : List (String × Check) :=
  kindProperties kind.name (owns found kind)

theorem checkOf_eq (kind : FieldKind) : checkOf found kind = typed .object [
    required (needs kind), closed ((propertiesOf found kind).map Prod.fst),
    properties (propertiesOf found kind)] := rfl

theorem kinds_eq : kinds found = FieldKind.all.map fun kind => (kind, checkOf found kind) := rfl

/-- What the five kinds find in a value. -/
def branchesOf (found : List Violation) (v : Value) : List Violation :=
  FieldKind.all.flatMap fun kind => checkOf found kind [] v

theorem nodup_propertiesOf (kind : FieldKind) : ((propertiesOf found kind).map Prod.fst).Nodup := by
  cases kind <;> simp [propertiesOf, kindProperties, commonProperties, owns]

theorem past_checkOf (kind : FieldKind) (key : String) :
    past (.str key) (checkOf found kind [] (.map e)) =
      match lookup? e key, (propertiesOf found kind).lookup key with
      | some w, some check => check [] w
      | _, _ => [] :=
  past_kindOf (nodup_propertiesOf kind)

theorem mem_kindOf {x : Violation} {kind : String} {needed : List String}
    {own : List (String × Check)} (hnodup : ((kindProperties kind own).map Prod.fst).Nodup)
    (hx : x ∈ kindOf kind needed own [] v) :
    x.path = [] ∧ x.branches = [] ∨ ∃ e key w check, v = .map e ∧
      lookup? e (key : String) = some w ∧ (kindProperties kind own).lookup key = some check ∧
        ∃ y ∈ check [] w, x = y.under (.str key) := by
  obtain ⟨z, rfl, hz | ⟨check, hcheck, hz⟩⟩ := exists_of_mem_typed hx
  · rw [path_tagged, branches_tagged]
    exact .inl (path_of_mem_hasType hz)
  rw [path_tagged, branches_tagged]
  simp only [List.mem_cons, List.not_mem_nil, or_false] at hcheck
  rcases hcheck with rfl | rfl | rfl
  · exact .inl (path_of_mem_required hz)
  · exact .inl (path_of_mem_closed hz)
  · obtain ⟨e, key, w, check, rfl, hw, hcheck, y, hy, rfl⟩ := exists_of_mem_properties hnodup hz
    exact .inr ⟨e, key, w, check, rfl, hw, hcheck, y, hy, tagged_under⟩

theorem mem_of_lookup {α : Type} {checks : List (String × α)} {key : String} {check : α}
    (h : checks.lookup key = some check) : (key, check) ∈ checks := by
  obtain ⟨before, after, rfl, -⟩ := List.lookup_eq_some_iff.1 h
  simp

/-- The schema for a key is one that all kinds share, the one for the name of the kind, or one of
its own. -/
theorem mem_of_lookup_propertiesOf {kind : FieldKind} {key : String} {check : Check}
    (h : (propertiesOf found kind).lookup key = some check) :
    (key, check) ∈ commonProperties ∨ (key, check) = ("type", constant (.str kind.name)) ∨
      (key, check) ∈ owns found kind :=
  (List.mem_append.1 (mem_of_lookup h)).imp_right List.mem_cons.1

/-- Apart from enumerations and lists the schemas of the values are flat. -/
theorem property_cases {kind : FieldKind} {key : String} {check : Check}
    (h : (propertiesOf found kind).lookup key = some check) :
    key = "enum" ∧ kind = .word ∧ check = constants ∨
      key = "fields" ∧ check = typed .array (listRules found kind) ∨
      key ≠ "enum" ∧ key ≠ "fields" ∧ Flat check := by
  rcases mem_of_lookup_propertiesOf h with hcommon | htype | hown
  · refine .inr (.inr ?_)
    simp only [commonProperties, List.mem_cons, List.not_mem_nil, or_false,
      Prod.mk.injEq] at hcommon
    rcases hcommon with ⟨rfl, rfl⟩ | ⟨rfl, rfl⟩ | ⟨rfl, rfl⟩ | ⟨rfl, rfl⟩
    · exact ⟨by decide, by decide, flat_name⟩
    · exact ⟨by decide, by decide, flat_name⟩
    · exact ⟨by decide, by decide, flat_text⟩
    · exact ⟨by decide, by decide, flat_offset⟩
  · obtain ⟨rfl, rfl⟩ := Prod.mk.inj htype
    exact .inr (.inr ⟨by decide, by decide, (plain_constant _).flat⟩)
  · have hflag : Flat (typed .boolean []) := flat_typed (List.forall_mem_nil _)
    have hbytes : Flat (typed .integer [minimum 1]) :=
      flat_typed (List.forall_mem_singleton.2 (plain_minimum 1).flat)
    cases kind <;>
      simp only [owns, List.mem_cons, List.not_mem_nil, or_false, Prod.mk.injEq] at hown
    · rcases hown with ⟨rfl, rfl⟩ | ⟨rfl, rfl⟩ | ⟨rfl, rfl⟩ | ⟨rfl, rfl⟩
      · exact .inr (.inr ⟨by decide, by decide, plain_width.flat⟩)
      · exact .inr (.inr ⟨by decide, by decide, hflag⟩)
      · exact .inr (.inr ⟨by decide, by decide, flat_text⟩)
      · exact .inl ⟨rfl, rfl, rfl⟩
    · rcases hown with ⟨rfl, rfl⟩ | ⟨rfl, rfl⟩
      · exact .inr (.inr ⟨by decide, by decide, plain_width.flat⟩)
      · exact .inr (.inl ⟨rfl, rfl⟩)
    · obtain ⟨rfl, rfl⟩ := hown
      exact .inr (.inl ⟨rfl, rfl⟩)
    · rcases hown with ⟨rfl, rfl⟩ | ⟨rfl, rfl⟩
      · exact .inr (.inr ⟨by decide, by decide, hbytes⟩)
      · exact .inr (.inr ⟨by decide, by decide, flat_text⟩)
    · obtain ⟨rfl, rfl⟩ := hown
      exact .inr (.inl ⟨rfl, rfl⟩)

/-- The schemas of the values under the keys of an item. -/
def itemProperties : List (String × Check) :=
  kindProperties "bit" [
    ("bits", typed .integer [minimum 1, maximum 64]), ("enum", constants),
    ("only", oneOfConstants [.str "read", .str "write"])]

theorem nodup_itemProperties : (itemProperties.map Prod.fst).Nodup := by
  simp [itemProperties, kindProperties, commonProperties]

theorem itemProperty_cases {key : String} {check : Check}
    (h : itemProperties.lookup key = some check) :
    key = "enum" ∧ check = constants ∨ key ≠ "enum" ∧ Flat check := by
  have hmem := mem_of_lookup h
  have hbits : Flat (typed .integer [minimum 1, maximum 64]) :=
    flat_typed (by
      rw [List.forall_mem_cons, List.forall_mem_singleton]
      exact ⟨(plain_minimum 1).flat, (plain_maximum 64).flat⟩)
  simp only [itemProperties, kindProperties, commonProperties, List.cons_append, List.nil_append,
    List.mem_cons, List.not_mem_nil, or_false, Prod.mk.injEq] at hmem
  rcases hmem with ⟨rfl, rfl⟩ | ⟨rfl, rfl⟩ | ⟨rfl, rfl⟩ | ⟨rfl, rfl⟩ | ⟨rfl, rfl⟩ | ⟨rfl, rfl⟩ |
    ⟨rfl, rfl⟩ | ⟨rfl, rfl⟩
  · exact .inr ⟨by decide, flat_name⟩
  · exact .inr ⟨by decide, flat_name⟩
  · exact .inr ⟨by decide, flat_text⟩
  · exact .inr ⟨by decide, flat_offset⟩
  · exact .inr ⟨by decide, (plain_constant _).flat⟩
  · exact .inr ⟨by decide, hbits⟩
  · exact .inl ⟨rfl, rfl⟩
  · exact .inr ⟨by decide, (plain_oneOfConstants _).flat⟩

/-- Below a key an item has what its schema for that key finds. -/
theorem past_item {key : String} :
    past (.str key) (item [] (.map e)) =
      match lookup? e key, itemProperties.lookup key with
      | some w, some check => check [] w
      | _, _ => [] :=
  past_kindOf nodup_itemProperties

theorem mem_item {x : Violation} {u : Value} (hx : x ∈ item [] u) :
    x.path = [] ∧ x.branches = [] ∨ ∃ e key w check, u = .map e ∧
      lookup? e (key : String) = some w ∧ itemProperties.lookup key = some check ∧
        ∃ y ∈ check [] w, x = y.under (.str key) :=
  mem_kindOf nodup_itemProperties hx

/-! ## The choice between the kinds -/

/-- The names of the kinds. -/
def kindNames : List Value := FieldKind.all.map fun kind => .str kind.name

theorem oneOfConstants_kindName (kind : FieldKind) :
    oneOfConstants kindNames [] (.str kind.name) = [] := by
  rw [oneOfConstants_eq_nil_iff]
  refine ⟨.str kind.name, List.mem_map.2 ⟨kind, ?_, rfl⟩, equals_str_iff.2 rfl⟩
  cases kind <;> simp [FieldKind.all]

theorem path_of_mem_choice {branches : List Check} {x : Violation}
    (h : x ∈ choice branches [] v) : x.path = [] := by
  simp only [choice] at h
  split at h
  · cases h
  · rw [List.mem_singleton.1 h]
    rfl

theorem mem_anyField {x : Violation} (hx : x ∈ anyField found [] v) :
    x.path = [] ∨ ∃ e w, v = .map e ∧ lookup? e "type" = some w ∧
      ∃ y ∈ oneOfConstants kindNames [] w, x = y.under (.str "type") := by
  obtain ⟨z, rfl, hz | ⟨check, hcheck, hz⟩⟩ := exists_of_mem_typed hx
  · exact .inl (path_tagged.trans (path_of_mem_hasType hz).1)
  rw [path_tagged]
  simp only [List.mem_cons, List.not_mem_nil, or_false] at hcheck
  rcases hcheck with rfl | rfl | rfl
  · exact .inl (path_of_mem_required hz).1
  · obtain ⟨e, key, w, check, rfl, hw, hcheck, y, hy, rfl⟩ :=
      exists_of_mem_properties (by simp) hz
    obtain ⟨rfl, rfl⟩ := Prod.mk.inj (List.mem_singleton.1 (mem_of_lookup hcheck))
    exact .inr ⟨e, w, rfl, hw, y, hy, tagged_under⟩
  · exact .inl (path_of_mem_choice hz)

/-- What every field has under its keys. -/
def fieldProperties : List (String × Check) := [("type", oneOfConstants kindNames)]

theorem anyField_eq : anyField found =
    typed .object [required ["type"], properties fieldProperties,
      choice [word, bitfield, struct found, blob, union found]] := rfl

/-- Below a key a field has what the schema of all fields finds for that key. -/
theorem past_anyField {key : String} :
    past (.str key) (anyField found [] (.map e)) =
      match lookup? e key, fieldProperties.lookup key with
      | some w, some check => check [] w
      | _, _ => [] := by
  have hchoice : ∀ branches, past (.str key) (choice branches [] (.map e)) = [] :=
    fun _ => past_eq_nil fun _ hx => path_of_mem_choice hx
  rw [anyField_eq, past_typed, List.flatMap_cons, List.flatMap_cons, List.flatMap_cons,
    List.flatMap_nil, past_required, hchoice, List.nil_append, List.append_nil, List.append_nil]
  exact past_properties_key (by simp [fieldProperties])

theorem choice_of_rejected (h : ∀ kind, checkOf found kind [] v ≠ []) :
    choice [word, bitfield, struct found, blob, union found] [] v =
      [.mk [] (.noBranch v) false (branchesOf found v)] := by
  have hbranches : [word, bitfield, struct found, blob, union found].map (· [] v) =
      FieldKind.all.map fun kind => checkOf found kind [] v := rfl
  have hnone :
      (FieldKind.all.map fun kind => checkOf found kind [] v).any List.isEmpty = false := by
    rw [List.any_eq_false]
    intro xs hxs
    obtain ⟨kind, -, rfl⟩ := List.mem_map.1 hxs
    simpa using h kind
  simp only [choice, hbranches, hnone, Bool.false_eq_true, if_false]
  rfl

/-- What no kind accepts is a choice without a branch. -/
theorem choice_mem_anyField (h : ∀ kind, checkOf found kind [] v ≠ []) :
    .mk [] (.noBranch v) (ValueKind.object.holds v) (branchesOf found v) ∈ anyField found [] v := by
  rw [anyField, typed_eq, opened_nil, List.mem_map]
  refine ⟨.mk [] (.noBranch v) false (branchesOf found v), ?_, rfl⟩
  simp only [List.flatMap_cons, choice_of_rejected h, List.mem_append, List.mem_singleton, true_or,
    or_true]

theorem type_of_checkOf {kind : FieldKind} (h : checkOf found kind [] v = []) :
    ∃ e, v = .map e ∧ lookup? e "type" = some (.str kind.name) := by
  have hmem : (kind, checkOf found kind) ∈ kinds found := by
    rw [kinds_eq]
    refine List.mem_map_of_mem ?_
    cases kind <;> simp [FieldKind.all]
  obtain ⟨e, hv, htype⟩ := type_of_kind (List.forall_mem_nil _) hmem h
  rw [opened_nil] at hv
  exact ⟨e, hv, htype⟩

theorem checkOf_ne_nil (h : anyField found [] v ≠ []) (kind : FieldKind) :
    checkOf found kind [] v ≠ [] := by
  intro hnil
  have hall : kind ∈ FieldKind.all := by cases kind <;> simp [FieldKind.all]
  have hloops : BodiesHold [] := List.forall_mem_nil _
  refine h ((anyField_eq_nil_iff hloops).2 ⟨(kind, checkOf found kind), ?_, hnil⟩)
  rw [kinds_eq]
  exact List.mem_map_of_mem hall

/-- A mapping with the name of a kind that no kind accepts has this violation only. -/
theorem anyField_eq_of_rejected {kind : FieldKind}
    (htype : lookup? e "type" = some (.str kind.name))
    (h : anyField found [] (.map e) ≠ []) :
    anyField found [] (.map e) =
      [.mk [] (.noBranch (.map e)) true (branchesOf found (.map e))] := by
  have hopened : (Value.map e).opened [] = .map e := rfl
  have hrequired : required ["type"] [] (.map e) = [] := by
    rw [required_eq_nil_iff hopened, List.forall_mem_singleton, htype]
    rfl
  have hproperties : properties [("type", oneOfConstants kindNames)] [] (.map e) = [] := by
    rw [properties_eq_nil_iff hopened, List.forall_mem_singleton]
    intro w hw
    obtain rfl := Option.some.inj (htype.symm.trans hw)
    exact oneOfConstants_kindName kind
  have hobject : hasType .object [] (.map e) = [] := rfl
  rw [anyField, typed_eq, List.flatMap_cons, List.flatMap_cons, List.flatMap_cons,
    List.flatMap_nil, hobject, hrequired]
  change
    ([] ++ ([] ++ (properties [("type", oneOfConstants kindNames)] [] (.map e) ++ _))).map _ = _
  rw [hproperties, choice_of_rejected (checkOf_ne_nil h)]
  rfl

end Schema

end RegisterLayout
