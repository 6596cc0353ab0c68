import RegisterLayout.Proofs.Reported

/-!
# Which reports blame what is wrong

The schemas of all kinds have a say in what the report on a rejected tree is about, not only those
of the kinds that the tree declares.  A report is about a value that violates the schema of its own
kind, or of the kind around it, unless it is about a key that the declared kind does not know, about
the name of the kind of a listed field, or about an empty list that the declared kind allows.

Principal definitions: `Value.IsKinded`, `Value.Faulty`, `Blame.Misleads`.
Principal result: `faulty_iff_not_misleads`.
-/

namespace RegisterLayout

open Value Schema Violation

/-! ## What the declared kinds find -/

namespace Schema

/-- What the schema of a kind finds in a value. -/
def ownFindings (kind : FieldKind) (v : Value) : List Violation :=
  checkOf (inFields [] metAgain v) kind [] v

/-- The schema of a kind finds something in a value at a path, or further down. -/
def Reaches (kind : FieldKind) (v : Value) (path : List Value) : Prop :=
  ∃ x ∈ ownFindings kind v, path <+: x.path

end Schema

namespace Value

variable {v w u : Value} {kind : FieldKind} {path : List Value} {key : String}

/-- A path to a value that violates the schema of the kind that is declared for it or for a field
around it. -/
def Faulty (v : Value) (path : List Value) : Prop :=
  ∃ above w below kind, v.Holds above w ∧ w.HasKind kind ∧ path = above ++ below ∧
    Reaches kind w below

/-- All fields of a tree name one of the five kinds; items of bit fields need not name theirs. -/
def IsKinded (v : Value) : Prop :=
  ∀ path w, v.Holds path w → (∃ kind, w.HasKind kind) ∧
    (w.HasKind .bitfield → ∀ u ∈ w.listedFields, ∀ t, u.under? "type" = some t → t = .str "bit")

/-- A key of the kind that a value declares. -/
def Knows (v : Value) (key : String) : Prop := ∃ kind, v.HasKind kind ∧ key ∈ keysOf kind

theorem HasKind.knows_iff (h : v.HasKind kind) : v.Knows key ↔ key ∈ keysOf kind := by
  constructor
  · rintro ⟨kind', h', hkey⟩
    rwa [h.unique h']
  · exact fun hkey => ⟨kind, h, hkey⟩

end Value

/-- A report that is about a key which the declared kind does not know, about the name of the kind
of a listed field, or about an empty list where the declared kind may have one. -/
def Blame.Misleads (v : Value) : Blame → Prop
  | whole => False
  | key k => ¬v.Knows k ∨
      k = "fields" ∧ v.under? "fields" = some (.list []) ∧ ¬v.HasKind .union
  | constant => ¬v.Knows "enum"
  | listedKey i k => ¬v.HasKind .bitfield ∧
      (¬v.Knows "fields" ∨ k = "type" ∨ ∀ u, v.listedFields[i]? = some u → ¬u.Knows k)
  | listedConstant i => ¬v.HasKind .bitfield ∧
      (¬v.Knows "fields" ∨ ∀ u, v.listedFields[i]? = some u → ¬u.Knows "enum")

section

variable {v w u : Value} {e : List (Value × Value)} {kind : FieldKind} {path : List Value}
  {key : String} {xs : List Value} {i : Nat}

theorem exists_below_cons {s : Value} {ys : List Violation} :
    (∃ x ∈ ys, s :: path <+: x.path) ↔ ∃ y ∈ past s ys, path <+: y.path := by
  constructor
  · rintro ⟨x, hx, rest, hrest⟩
    obtain ⟨y, rfl, hy⟩ := eq_under_of_path hrest.symm
    exact ⟨y, mem_past.2 hx, rest, hy.symm⟩
  · rintro ⟨y, hy, hpath⟩
    refine ⟨y.under s, mem_past.1 hy, ?_⟩
    rw [path_under]
    exact (List.prefix_cons_inj s).2 hpath

/-- Below a key a kind finds what its schema for the key finds. -/
theorem reaches_key_iff (hkind : v.HasKind kind) :
    Reaches kind v (.str (Text.ofString key) :: path) ↔
      ∃ w check, v.under? key = some w ∧
        (propertiesOf (inFields [] metAgain v) kind).lookup key = some check ∧
          ∃ y ∈ check [] w, path <+: y.path := by
  obtain ⟨e, rfl, -⟩ := eq_map_of_under? hkind
  have hunder : (Value.map e).under? key = lookup? e key := rfl
  rw [Reaches, exists_below_cons, ownFindings, past_checkOf, hunder]
  cases lookup? e key with
  | none => simp
  | some w =>
    cases (propertiesOf (inFields [] metAgain (.map e)) kind).lookup key with
    | none => simp
    | some check => simp

theorem not_reaches_of_unknown (hkind : v.HasKind kind) (hkey : key ∉ keysOf kind) :
    ¬Reaches kind v (.str (Text.ofString key) :: path) := by
  rw [reaches_key_iff hkind]
  rintro ⟨w, check, -, hcheck, -⟩
  rw [← fst_propertiesOf (inFields [] metAgain v)] at hkey
  exact hkey (List.mem_map_of_mem (mem_of_lookup hcheck))

/-- Below a listed value a kind finds what it finds in that value. -/
theorem reaches_listed_iff (hkind : v.HasKind kind) (hfields : "fields" ∈ keysOf kind)
    (hu : v.listedFields[i]? = some u) :
    Reaches kind v (.str "fields" :: .int i :: path) ↔
      ∃ y ∈ if kind = .bitfield then item [] u else anyField (inFields [] metAgain u) [] u,
        path <+: y.path := by
  have hlist := under?_fields hu
  obtain ⟨e, rfl, hlookup⟩ := eq_map_of_under? hlist
  have hcheck : (propertiesOf (inItems [] metAgain 0 (Value.map e).listedFields) kind).lookup
      "fields" = some (typed .array (listRules (inItems [] metAgain 0
        (Value.map e).listedFields) kind)) := by
    cases kind with
    | word | blob => exact absurd hfields (by decide)
    | bitfield | struct | union => rfl
  rw [reaches_key_iff hkind, hlist, inFields_map hlookup, hcheck]
  simp only [Option.some.injEq, exists_and_left, exists_eq_left']
  rw [exists_below_cons, past_listRules hu]

/-- Below a field with the name of a kind nothing is found about it as a field. -/
theorem not_below_anyField (hkind : u.HasKind kind) {found : List Violation} {y : Violation}
    (hy : y ∈ anyField found [] u) {s : Value} : ¬s :: path <+: y.path := by
  rintro ⟨rest, hrest⟩
  rcases mem_anyField hy with hpath | ⟨e, w, rfl, hw, z, hz, rfl⟩
  · rw [hpath] at hrest
    cases hrest
  · obtain rfl := Option.some.inj (hkind.symm.trans hw)
    rw [oneOfConstants_kindName] at hz
    cases hz

/-- Where a value is at fault: for its own kind, or at or below a field that it lists. -/
theorem faulty_iff (hkind : v.HasKind kind) :
    v.Faulty path ↔ Reaches kind v path ∨ ∃ xs i u rest, v.ListsFields xs ∧ xs[i]? = some u ∧
      path = .str "fields" :: .int (i : Nat) :: rest ∧ u.Faulty rest := by
  constructor
  · rintro ⟨above, w, below, kind', hheld, hkind', rfl, hreach⟩
    cases hheld with
    | self =>
      rw [hkind.unique hkind']
      exact .inl hreach
    | field hlist hu hrest =>
      exact .inr ⟨_, _, _, _, hlist, hu, rfl, _, _, _, _, hrest, hkind', rfl, hreach⟩
  · rintro (hreach | ⟨xs, i, u, rest, hlist, hu, rfl, above, w, below, kind', hheld, hkind', rfl,
      hreach⟩)
    · exact ⟨[], v, path, kind, .self v, hkind, rfl, hreach⟩
    · exact ⟨_, w, below, kind', .field hlist hu hheld, hkind', rfl, hreach⟩

theorem enum_ne_fields (rest : List Value) :
    ∀ (i : Nat) (rest' : List Value),
      Value.str "enum" :: rest ≠ .str "fields" :: .int i :: rest' := by
  intro i rest' h
  exact absurd (str_ofString_inj.1 (List.cons.inj h).1) (by decide)

/-- Apart from listed fields a value is at fault for its own kind. -/
theorem faulty_iff_reaches (hkind : v.HasKind kind)
    (hpath : ∀ i rest, path ≠ .str "fields" :: .int (i : Nat) :: rest) :
    v.Faulty path ↔ Reaches kind v path := by
  rw [faulty_iff hkind]
  refine or_iff_left ?_
  rintro ⟨xs, i, u, rest, -, -, heq, -⟩
  exact hpath i rest heq

theorem listsFields_of_known (hkind : v.HasKind kind) (hne : kind ≠ .bitfield)
    (hfields : "fields" ∈ keysOf kind) (hu : v.listedFields[i]? = some u) :
    v.ListsFields v.listedFields := by
  refine ⟨?_, under?_fields hu⟩
  cases kind with
  | word | blob => exact absurd hfields (by decide)
  | bitfield => exact absurd rfl hne
  | struct => exact .inl hkind
  | union => exact .inr hkind

/-- A field of a kind without fields is not at fault for what it lists. -/
theorem not_faulty_of_unknown (hkind : v.HasKind kind) (hfields : "fields" ∉ keysOf kind) :
    ¬v.Faulty (.str "fields" :: path) := by
  rw [faulty_iff hkind]
  rintro (hreach | ⟨xs, i, u, rest, hlist, -⟩)
  · exact not_reaches_of_unknown hkind hfields hreach
  · refine hfields ?_
    rcases hlist.1 with h | h
    · rw [hkind.unique h]
      decide
    · rw [hkind.unique h]
      decide

/-- Below a field of a struct or a union it is that field that is at fault. -/
theorem faulty_listed_iff {kind' : FieldKind} (hkind : v.HasKind kind) (hne : kind ≠ .bitfield)
    (hfields : "fields" ∈ keysOf kind) (hu : v.listedFields[i]? = some u)
    (hkind' : u.HasKind kind') {s : Value} :
    v.Faulty (.str "fields" :: .int i :: s :: path) ↔ u.Faulty (s :: path) := by
  have hlists := listsFields_of_known hkind hne hfields hu
  rw [faulty_iff hkind]
  constructor
  · rintro (hreach | ⟨xs, j, w, rest, hlist, hw, heq, hfaulty⟩)
    · rw [reaches_listed_iff hkind hfields hu, if_neg hne] at hreach
      obtain ⟨y, hy, hbelow⟩ := hreach
      exact absurd hbelow (not_below_anyField hkind' hy)
    · simp only [List.cons.injEq, Value.num.injEq, Number.int.injEq, Int.natCast_inj,
        true_and] at heq
      obtain ⟨rfl, rfl⟩ := heq
      rw [← hlist.listedFields] at hw
      obtain rfl := Option.some.inj (hu.symm.trans hw)
      exact hfaulty
  · exact fun hfaulty => .inr ⟨_, i, u, _, hlists, hu, rfl, hfaulty⟩

/-! ## What the declared kinds share -/

/-- The schemas for keys that the kinds share, those for their names and for lists of fields
apart. -/
def sharedChecks : KeyTable := commonProperties ++ [
  ("bits", width), ("signed", typed .boolean []), ("typedef", Schema.text), ("enum", constants),
  ("bytes", typed .integer [minimum 1]), ("decl", Schema.text)]

theorem lookup_sharedChecks {found : List Violation} {check : Check}
    (h : (propertiesOf found kind).lookup key = some check) :
    key = "type" ∨ key = "fields" ∨ sharedChecks.lookup key = some check := by
  rcases mem_of_lookup_propertiesOf h with hcommon | htype | hown
  · refine .inr (.inr ?_)
    simp only [commonProperties, List.mem_cons, List.not_mem_nil, or_false,
      Prod.mk.injEq] at hcommon
    rcases hcommon with ⟨rfl, rfl⟩ | ⟨rfl, rfl⟩ | ⟨rfl, rfl⟩ | ⟨rfl, rfl⟩ <;> rfl
  · exact .inl (Prod.mk.inj htype).1
  · refine .inr ?_
    cases kind <;>
      simp only [owns, List.mem_cons, List.not_mem_nil, or_false, Prod.mk.injEq] at hown
    · rcases hown with ⟨rfl, rfl⟩ | ⟨rfl, rfl⟩ | ⟨rfl, rfl⟩ | ⟨rfl, rfl⟩ <;> exact .inr rfl
    · rcases hown with ⟨rfl, rfl⟩ | ⟨rfl, -⟩
      · exact .inr rfl
      · exact .inl rfl
    · exact .inl hown.1
    · rcases hown with ⟨rfl, rfl⟩ | ⟨rfl, rfl⟩ <;> exact .inr rfl
    · exact .inl hown.1

/-- What any kind finds under a key, the declared one finds if it knows the key. -/
theorem reaches_of_findings (hkind : v.HasKind kind) (hkey : key ∈ keysOf kind)
    (htype : key ≠ "type") (hfields : key ≠ "fields") {y : Violation}
    (hy : y ∈ v.findingsUnder (kindTables []) key) (hpath : path <+: y.path) :
    Reaches kind v (.str (Text.ofString key) :: path) := by
  obtain ⟨w, hw, check, hcheck, hy⟩ := mem_findingsUnder.1 hy
  obtain ⟨table, htable, hlookup⟩ := mem_checksUnder.1 hcheck
  obtain ⟨other, -, rfl⟩ := List.mem_map.1 htable
  have hshared := ((lookup_sharedChecks hlookup).resolve_left htype).resolve_left hfields
  obtain ⟨own, hown⟩ := exists_of_mem_keysOf hkey (inFields [] metAgain v)
  have hown' := ((lookup_sharedChecks hown).resolve_left htype).resolve_left hfields
  obtain rfl := Option.some.inj (hshared.symm.trans hown')
  exact (reaches_key_iff hkind).2 ⟨w, check, hw, hown, y, hy, hpath⟩

/-- What is found under a key of a listed value other than the name of its kind is found as in an
item. -/
theorem item_of_findings {check : Check} (htype : key ≠ "type")
    (hcheck : check ∈ checksUnder listedTables key) : itemProperties.lookup key = some check := by
  obtain ⟨table, htable, hlookup⟩ := mem_checksUnder.1 hcheck
  have htables : table = itemProperties ∨ table = fieldProperties := by
    simpa [listedTables] using htable
  rcases htables with rfl | rfl
  · exact hlookup
  · have hmem := List.mem_singleton.1 (mem_of_lookup hlookup)
    exact absurd (Prod.mk.inj hmem).1 htype

/-- What an item may not have under its keys no field may have. -/
theorem ne_nil_of_item {check own : Check} {found : List Violation}
    (hitem : itemProperties.lookup key = some check)
    (hown : (propertiesOf found kind).lookup key = some own) (htype : key ≠ "type")
    (h : check [] w ≠ []) : own [] w ≠ [] := by
  have hfields : key ≠ "fields" := by
    rintro rfl
    cases hitem
  have hshared := ((lookup_sharedChecks hown).resolve_left htype).resolve_left hfields
  by_cases hbits : key = "bits"
  · subst hbits
    obtain rfl : typed .integer [minimum 1, maximum 64] = check := Option.some.inj hitem
    obtain rfl : width = own := Option.some.inj hshared
    contrapose! h
    obtain ⟨n, m, rfl, hm, hwidth⟩ := width_eq_nil_iff.1 h
    refine (between_eq_nil_iff (List.forall_mem_nil _)).2 ⟨n, m, rfl, hm, ?_⟩
    simp only [wordWidths, List.mem_cons, List.not_mem_nil, or_false] at hwidth
    omega
  · have hcommon : sharedChecks.lookup key = some check := by
      have hmem := mem_of_lookup hitem
      simp only [itemProperties, kindProperties, commonProperties, List.cons_append,
        List.nil_append, List.mem_cons, List.not_mem_nil, or_false, Prod.mk.injEq] at hmem
      rcases hmem with ⟨rfl, rfl⟩ | ⟨rfl, rfl⟩ | ⟨rfl, rfl⟩ | ⟨rfl, rfl⟩ | ⟨rfl, -⟩ | ⟨rfl, -⟩ |
        ⟨rfl, rfl⟩ | ⟨rfl, -⟩
      · rfl
      · rfl
      · rfl
      · rfl
      · exact absurd rfl htype
      · exact absurd rfl hbits
      · rfl
      · cases hshared
    obtain rfl := Option.some.inj (hshared.symm.trans hcommon)
    exact h

/-- What is wrong with a key of a listed field is wrong for the kind of the field, if that knows the
key. -/
theorem reaches_of_listedFindings (hkind : u.HasKind kind) (hkey : key ∈ keysOf kind)
    (htype : key ≠ "type") {y : Violation} (hy : y ∈ u.findingsUnder listedTables key) :
    Reaches kind u [.str (Text.ofString key)] := by
  obtain ⟨w, hw, check, hcheck, hy⟩ := mem_findingsUnder.1 hy
  obtain ⟨own, hown⟩ := exists_of_mem_keysOf hkey (inFields [] metAgain u)
  have hne := ne_nil_of_item (item_of_findings htype hcheck) hown htype (List.ne_nil_of_mem hy)
  obtain ⟨z, hz⟩ := List.exists_mem_of_ne_nil _ hne
  exact (reaches_key_iff hkind).2 ⟨w, own, hw, hown, z, hz, List.nil_prefix⟩

theorem reaches_constant_iff (hkind : v.HasKind kind) {c : Value × Value}
    (hc : c ∈ v.badConstants) : Reaches kind v [.str "enum", c.1] ↔ "enum" ∈ keysOf kind := by
  constructor
  · intro hreach
    by_contra hkey
    exact not_reaches_of_unknown hkind hkey hreach
  · intro hkey
    obtain ⟨cs, hcs, hc, hholds⟩ := mem_badConstants.1 hc
    obtain ⟨y, hy, hpath⟩ := exists_mem_constants hc hholds
    obtain ⟨own, hown⟩ := exists_of_mem_keysOf hkey (inFields [] metAgain v)
    have hshared := ((lookup_sharedChecks hown).resolve_left (by decide)).resolve_left (by decide)
    obtain rfl : constants = own := Option.some.inj hshared
    exact (reaches_key_iff hkind).2 ⟨_, _, hcs, hown, y, hy, hpath ▸ List.prefix_rfl⟩

/-- The name of its own kind is not what is wrong with a field. -/
theorem not_reaches_type (hkind : v.HasKind kind) :
    ¬Reaches kind v (.str "type" :: path) := by
  rw [reaches_key_iff hkind]
  rintro ⟨w, check, hw, hcheck, y, hy, -⟩
  obtain rfl := Option.some.inj (hkind.symm.trans hw)
  have htype : (propertiesOf (inFields [] metAgain v) kind).lookup "type" =
      some (constant (.str kind.name)) := by
    cases kind <;> rfl
  obtain rfl := Option.some.inj (htype.symm.trans hcheck)
  rw [constant_str_eq_nil_iff.2 rfl] at hy
  cases hy

/-- Four kinds complain about the name of the fifth. -/
theorem complaintsUnder_type (hkind : v.HasKind kind) :
    v.complaintsUnder (kindTables []) "type" = 4 := by
  have hchecks : checksUnder (kindTables []) "type" =
      FieldKind.all.map fun kind => constant (.str kind.name) := rfl
  rw [complaintsUnder, findingsUnder, hkind, hchecks]
  cases kind <;> decide +kernel

/-- A list of fields without a value in it is at fault for a kind, unless the kind may have it. -/
theorem reaches_fields_iff (hkind : v.HasKind kind) (hfields : "fields" ∈ keysOf kind)
    (hlisted : v.listedFields = []) (hw : v.under? "fields" = some w) :
    Reaches kind v [.str "fields"] ↔ w ≠ .list [] ∨ kind = .union := by
  obtain ⟨e, rfl, hlookup⟩ := eq_map_of_under? hw
  obtain ⟨own, hown⟩ := exists_of_mem_keysOf hfields (inFields [] metAgain (.map e))
  have hcheck : own = typed .array (listRules (inFields [] metAgain (.map e)) kind) := by
    rcases property_cases hown with ⟨h, -⟩ | ⟨-, h⟩ | ⟨-, h, -⟩
    · exact absurd h (by decide)
    · exact h
    · exact absurd rfl h
  have hreach : Reaches kind (.map e) [.str "fields"] ↔ own [] w ≠ [] := by
    rw [reaches_key_iff hkind]
    constructor
    · rintro ⟨w', check, hw', hcheck', y, hy, -⟩
      obtain rfl := Option.some.inj (hw.symm.trans hw')
      obtain rfl := Option.some.inj (hown.symm.trans hcheck')
      exact List.ne_nil_of_mem hy
    · intro hne
      obtain ⟨y, hy⟩ := List.exists_mem_of_ne_nil _ hne
      exact ⟨w, own, hw, hown, y, hy, List.nil_prefix⟩
  rw [hreach, hcheck]
  by_cases hempty : w = .list []
  · subst hempty
    rw [inFields_map hlookup]
    cases kind with
    | word | blob => exact absurd hfields (by decide)
    | bitfield | struct => exact iff_of_false (fun h => h rfl) (by simp)
    | union => exact iff_of_true (by decide +kernel) (.inr rfl)
  · refine iff_of_true ?_ (.inl hempty)
    rw [ne_eq, typed_eq_nil_iff, opened_nil]
    rintro ⟨hholds, -⟩
    obtain ⟨xs, rfl⟩ := holds_array.1 hholds
    rw [listedFields, hw] at hlisted
    obtain rfl : xs = [] := hlisted
    exact hempty rfl

/-! ## Reports -/

theorem faulty_key_iff (hkind : v.HasKind kind) (hblame : v.blame = .key key) :
    v.Faulty [.str (Text.ofString key)] ↔ ¬(Blame.key key).Misleads v := by
  obtain ⟨hlisted, hsole⟩ := of_blame_eq_key hblame
  obtain ⟨hone, y, hy, hpath⟩ := exists_of_soleMisfit hsole
  have htype : key ≠ "type" := by
    rintro rfl
    rw [complaintsUnder_type hkind] at hone
    cases hone
  rw [faulty_iff_reaches hkind (by simp), Blame.Misleads, hkind.knows_iff]
  by_cases hkey : key ∈ keysOf kind
  swap
  · exact iff_of_false (not_reaches_of_unknown hkind hkey) (by simp [hkey])
  by_cases hfields : key = "fields"
  · subst hfields
    obtain ⟨w, hw, -⟩ := mem_findingsUnder.1 hy
    rw [reaches_fields_iff hkind hkey hlisted hw, hw]
    have hunion : v.HasKind .union ↔ kind = .union :=
      ⟨fun h => hkind.unique h, fun h => h ▸ hkind⟩
    simp only [hkey, hunion, Option.some.injEq]
    tauto
  · refine iff_of_true (reaches_of_findings hkind hkey htype hfields hy List.nil_prefix) ?_
    simp [hkey, hfields]

/-- Of the name of an item that is one there are two complaints, since no field has it. -/
theorem complaintsUnder_bit (h : u.under? "type" = some (.str "bit")) :
    u.complaintsUnder listedTables "type" = 2 := by
  have hchecks : checksUnder listedTables "type" =
      [constant (.str "bit"), oneOfConstants kindNames, oneOfConstants kindNames] := rfl
  rw [complaintsUnder, findingsUnder, h, hchecks]
  decide +kernel

/-- Of an item all that is found under its keys is found for it, but for its name. -/
theorem mem_item_of_findings (htype : key ≠ "type") {y : Violation}
    (hy : y ∈ u.findingsUnder listedTables key) :
    y.under (.str (Text.ofString key)) ∈ item [] u := by
  obtain ⟨w, hw, check, hcheck, hmem⟩ := mem_findingsUnder.1 hy
  obtain ⟨e, rfl, hlookup⟩ := eq_map_of_under? hw
  rw [← mem_past, past_item, hlookup, item_of_findings htype hcheck]
  exact hmem

/-- What is found under a key of an item, but for its name, is the fault of its bit field. -/
theorem faulty_of_itemFindings (hkind : v.HasKind .bitfield) (hu : v.listedFields[i]? = some u)
    (htype : key ≠ "type") {y : Violation} (hy : y ∈ u.findingsUnder listedTables key) :
    v.Faulty (.str "fields" :: .int i :: .str (Text.ofString key) :: y.path) := by
  refine (faulty_iff hkind).2 (.inl ((reaches_listed_iff hkind (by decide) hu).2 ?_))
  rw [if_pos rfl]
  exact ⟨_, mem_item_of_findings htype hy, path_under ▸ List.prefix_rfl⟩

theorem not_hasKind_bitfield (hkind : v.HasKind kind) (hfields : "fields" ∉ keysOf kind) :
    ¬v.HasKind .bitfield := by
  intro hbit
  rw [hkind.unique hbit] at hfields
  exact hfields (by decide)

theorem faulty_listedKey_iff (hkind : v.HasKind kind) (hkinded : v.IsKinded)
    (hblame : v.blame = .listedKey i key) :
    v.Faulty [.str "fields", .int i, .str (Text.ofString key)] ↔
      ¬(Blame.listedKey i key).Misleads v := by
  obtain ⟨u, hu, hsole⟩ := of_blame_eq_listedKey hblame
  obtain ⟨hone, y, hy, hpath⟩ := exists_of_soleMisfit hsole
  rw [Blame.Misleads, hkind.knows_iff]
  by_cases hfields : "fields" ∈ keysOf kind
  swap
  · exact iff_of_false (not_faulty_of_unknown hkind hfields)
      (not_not.2 ⟨not_hasKind_bitfield hkind hfields, .inl hfields⟩)
  by_cases hbit : kind = .bitfield
  · subst hbit
    refine iff_of_true ?_ fun h => h.1 hkind
    have htype : key ≠ "type" := by
      rintro rfl
      obtain ⟨t, ht, -⟩ := mem_findingsUnder.1 hy
      obtain rfl := (hkinded [] v (.self v)).2 hkind u (List.mem_of_getElem? hu) t ht
      rw [complaintsUnder_bit ht] at hone
      cases hone
    exact hpath ▸ faulty_of_itemFindings hkind hu htype hy
  · obtain ⟨⟨kind', hkind'⟩, -⟩ := hkinded _ u
      (.field (listsFields_of_known hkind hbit hfields hu) hu (.self u))
    have hnot : ¬v.HasKind .bitfield := fun h => hbit (hkind.unique h)
    rw [faulty_listed_iff hkind hbit hfields hu hkind',
      faulty_iff_reaches hkind' (by simp)]
    simp only [hnot, hfields, hu, not_false_eq_true, not_true_eq_false, true_and, false_or,
      Option.some.injEq, forall_eq', hkind'.knows_iff]
    constructor
    · rintro hreach (rfl | hkey)
      · exact not_reaches_type hkind' hreach
      · exact not_reaches_of_unknown hkind' hkey hreach
    · intro h
      rw [not_or, not_not] at h
      exact reaches_of_listedFindings hkind' h.2 h.1 hy

theorem faulty_listedConstant_iff (hkind : v.HasKind kind) (hkinded : v.IsKinded)
    (hu : v.listedFields[i]? = some u) {c : Value × Value} (hc : c ∈ u.badConstants) :
    v.Faulty [.str "fields", .int i, .str "enum", c.1] ↔
      ¬(Blame.listedConstant i).Misleads v := by
  rw [Blame.Misleads, hkind.knows_iff]
  by_cases hfields : "fields" ∈ keysOf kind
  swap
  · exact iff_of_false (not_faulty_of_unknown hkind hfields)
      (not_not.2 ⟨not_hasKind_bitfield hkind hfields, .inl hfields⟩)
  by_cases hbit : kind = .bitfield
  · subst hbit
    refine iff_of_true ?_ fun h => h.1 hkind
    obtain ⟨cs, hcs, hmem, hholds⟩ := mem_badConstants.1 hc
    obtain ⟨y, hy, hpath⟩ := exists_mem_constants hmem hholds
    have hfound : y ∈ u.findingsUnder listedTables "enum" := by
      rwa [findingsUnder_enum rfl hcs]
    exact hpath ▸ faulty_of_itemFindings hkind hu (by decide) hfound
  · obtain ⟨⟨kind', hkind'⟩, -⟩ := hkinded _ u
      (.field (listsFields_of_known hkind hbit hfields hu) hu (.self u))
    have hnot : ¬v.HasKind .bitfield := fun h => hbit (hkind.unique h)
    rw [faulty_listed_iff hkind hbit hfields hu hkind',
      faulty_iff_reaches hkind' (enum_ne_fields _), reaches_constant_iff hkind' hc]
    simp [hnot, hfields, hu, hkind'.knows_iff]

/-- **Which reports blame what is wrong.** -/
theorem faulty_iff_not_misleads (hkind : v.HasKind kind) (hkinded : v.IsKinded)
    (hrejected : ownFindings kind v ≠ []) (hcovers : v.blame.Covers v path) :
    v.Faulty path ↔ ¬v.blame.Misleads v := by
  cases hblame : v.blame with
  | whole =>
    rw [hblame] at hcovers
    obtain rfl : path = [] := hcovers
    obtain ⟨x, hx⟩ := List.exists_mem_of_ne_nil _ hrejected
    refine iff_of_true ?_ id
    exact ⟨[], v, [], kind, .self v, hkind, rfl, x, hx, List.nil_prefix⟩
  | key k =>
    rw [hblame] at hcovers
    obtain rfl : path = [.str (Text.ofString k)] := hcovers
    exact faulty_key_iff hkind hblame
  | constant =>
    rw [hblame] at hcovers
    obtain ⟨c, hc, rfl⟩ := hcovers
    rw [faulty_iff_reaches hkind (enum_ne_fields _), reaches_constant_iff hkind hc,
      Blame.Misleads, hkind.knows_iff, not_not]
  | listedKey i k =>
    rw [hblame] at hcovers
    obtain rfl : path = [.str "fields", .int i, .str (Text.ofString k)] := hcovers
    exact faulty_listedKey_iff hkind hkinded hblame
  | listedConstant i =>
    rw [hblame] at hcovers
    obtain ⟨u, hu, c, hc, rfl⟩ := hcovers
    exact faulty_listedConstant_iff hkind hkinded hu hc

end

theorem Value.IsKinded.intro {v : Value} {kind : FieldKind} (hkind : v.HasKind kind)
    (hitems : kind = .bitfield →
      ∀ u ∈ v.listedFields, ∀ t, u.under? "type" = some t → t = .str "bit")
    (hlisted : ∀ u ∈ v.listedFields, u.IsKinded) : v.IsKinded := by
  intro path w hheld
  cases hheld with
  | self => exact ⟨⟨kind, hkind⟩, fun hbit => hitems (hkind.unique hbit)⟩
  | field hlist hu hrest =>
    rw [hlist.listedFields] at hlisted
    exact hlisted _ (List.mem_of_getElem? hu) _ _ hrest

/-- A tree that lists one word, of a width that is not positive. -/
def narrowWord : Value := .map [
  (.str "type", .str "struct"),
  (.str "fields", .list [.map [(.str "type", .str "word"), (.str "bits", 0)]])]

/-- A union without a name, and with a word that is as it should be. -/
def namelessUnion : Value := .map [
  (.str "type", .str "union"),
  (.str "fields", .list [.map [(.str "type", .str "word"), (.str "bits", 8)]])]

end RegisterLayout
