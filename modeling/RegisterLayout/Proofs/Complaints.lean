import RegisterLayout.Proofs.Branches

/-!
# Complaints about the values under keys

Several schemas look at the value under one key of a mapping: those of the five kinds side by side
or, where the mapping is listed, that of items once and that of fields twice.  Whether a report can
be about a key depends on how many complaints there are about its value, since equally relevant
ones explain nothing.

Principal definitions: `Value.findingsUnder`, `Value.misfits`, `Value.soleMisfit`.
Principal results: `Value.marked_findingsUnder`, `Schema.past_branchesOf`.
-/

namespace RegisterLayout

open Value

namespace Schema

open Violation

/-- The keys of a schema with the schemas of their values. -/
abbrev KeyTable := List (String × Check)

/-- The tables by which a listed value is checked: that of items once, and that of fields twice,
for structs and for unions. -/
def listedTables : List KeyTable := [itemProperties, fieldProperties, fieldProperties]

/-- The tables of the five kinds, given the violations in the fields of a value. -/
def kindTables (found : List Violation) : List KeyTable := FieldKind.all.map (propertiesOf found)

/-- The keys that the schema of a kind knows. -/
def keysOf (kind : FieldKind) : List String :=
  (propertiesOf [] kind).map Prod.fst

theorem fst_propertiesOf (found : List Violation) (kind : FieldKind) :
    (propertiesOf found kind).map Prod.fst = keysOf kind := by
  cases kind <;> rfl

theorem exists_of_mem_keysOf {kind : FieldKind} {key : String} (h : key ∈ keysOf kind)
    (found : List Violation) : ∃ check, (propertiesOf found kind).lookup key = some check := by
  rw [← Option.isSome_iff_exists, Option.isSome_iff_ne_none]
  intro hnone
  rw [← fst_propertiesOf found] at h
  obtain ⟨entry, hentry, heq⟩ := List.mem_map.1 h
  have hne := List.lookup_eq_none_iff.1 hnone entry hentry
  simp [heq] at hne

/-- The schemas that some tables have for a key. -/
def checksUnder (tables : List KeyTable) (key : String) : List Check :=
  tables.filterMap (·.lookup key)

/-- The keys that some schema knows, in the order of their texts. -/
def knownKeys : List String := [
  "bits", "bytes", "decl", "desc", "enum", "fields", "name", "offset", "only", "short_name",
  "signed", "type", "typedef"]

theorem pairwise_knownKeys :
    knownKeys.Pairwise fun a b => Text.compare (Text.ofString a) (Text.ofString b) = .lt := by
  decide +kernel

/-- Tables of known keys only. -/
def Known (tables : List KeyTable) : Prop := ∀ table ∈ tables, table.map Prod.fst ⊆ knownKeys

theorem known_listedTables : Known listedTables := by
  have hitems : itemProperties.map Prod.fst ⊆ knownKeys := by decide
  have hfields : fieldProperties.map Prod.fst ⊆ knownKeys := by decide
  exact List.forall_mem_cons.2
    ⟨hitems, List.forall_mem_cons.2 ⟨hfields, List.forall_mem_singleton.2 hfields⟩⟩

theorem known_kindTables (found : List Violation) : Known (kindTables found) := by
  refine List.forall_mem_map.2 fun kind _ => ?_
  rw [fst_propertiesOf]
  cases kind <;> decide

/-- The schemas for a key agree on the mark of what they find in its value. -/
def AgreeUnder (tables : List KeyTable) (key : String) : Prop :=
  ∃ mark, ∀ check ∈ checksUnder tables key, Marked mark check

theorem mem_checksUnder {tables : List KeyTable} {key : String} {check : Check} :
    check ∈ checksUnder tables key ↔ ∃ table ∈ tables, table.lookup key = some check :=
  List.mem_filterMap

theorem agreeUnder_of_unknown {tables : List KeyTable} (hknown : Known tables) {key : String}
    (h : key ∉ knownKeys) : AgreeUnder tables key := by
  refine ⟨fun _ => false, fun check hcheck => ?_⟩
  obtain ⟨table, htable, hlookup⟩ := mem_checksUnder.1 hcheck
  exact absurd (hknown table htable (List.mem_map_of_mem (mem_of_lookup hlookup))) h

theorem agreeUnder_listedTables (key : String) : AgreeUnder listedTables key := by
  by_cases hknown : key ∈ knownKeys
  swap
  · exact agreeUnder_of_unknown known_listedTables hknown
  have hkinds : Marked (fun _ => false) (oneOfConstants kindNames) :=
    (plain_oneOfConstants _).marked
  have hnothing : ∀ key, checksUnder listedTables key = [] → AgreeUnder listedTables key :=
    fun key h => ⟨fun _ => false, by rw [h]; exact List.forall_mem_nil _⟩
  simp only [knownKeys, List.mem_cons, List.not_mem_nil, or_false] at hknown
  rcases hknown with rfl | rfl | rfl | rfl | rfl | rfl | rfl | rfl | rfl | rfl | rfl | rfl | rfl
  · exact ⟨_, List.forall_mem_singleton.2 (marked_typed (by
      rw [List.forall_mem_cons, List.forall_mem_singleton]
      exact ⟨(plain_minimum 1).flat.unbranched, (plain_maximum 64).flat.unbranched⟩))⟩
  · exact hnothing _ rfl
  · exact hnothing _ rfl
  · exact ⟨_, List.forall_mem_singleton.2 marked_text⟩
  · exact ⟨_, List.forall_mem_singleton.2 marked_constants⟩
  · exact hnothing _ rfl
  · exact ⟨_, List.forall_mem_singleton.2 marked_name⟩
  · exact ⟨_, List.forall_mem_singleton.2 marked_offset⟩
  · exact ⟨_, List.forall_mem_singleton.2 (plain_oneOfConstants _).marked⟩
  · exact ⟨_, List.forall_mem_singleton.2 marked_name⟩
  · exact hnothing _ rfl
  · exact ⟨_, List.forall_mem_cons.2 ⟨(plain_constant _).marked,
      List.forall_mem_cons.2 ⟨hkinds, List.forall_mem_singleton.2 hkinds⟩⟩⟩
  · exact hnothing _ rfl

theorem unbranched_items (check : Check) : Unbranched (items check) := by
  intro w y hy hpath
  obtain ⟨_, -, i, u, -, z, -, rfl⟩ := exists_of_mem_items hy
  rw [path_under] at hpath
  cases hpath

theorem unbranched_withItems_nil : Unbranched (withItems []) := by
  intro w y hy _
  obtain ⟨_, -, hy⟩ := exists_of_mem_withItems hy
  cases hy

theorem agreeUnder_kindTables (key : String) : AgreeUnder (kindTables []) key := by
  by_cases hknown : key ∈ knownKeys
  swap
  · exact agreeUnder_of_unknown (known_kindTables []) hknown
  have hsame : ∀ {key : String} {n : Nat} {mark : Value → Bool} {check : Check},
      checksUnder (kindTables []) key = List.replicate n check → Marked mark check →
      AgreeUnder (kindTables []) key := by
    intro key n mark check heq hmark
    refine ⟨mark, fun c hc => ?_⟩
    rw [heq] at hc
    rwa [List.eq_of_mem_replicate hc]
  simp only [knownKeys, List.mem_cons, List.not_mem_nil, or_false] at hknown
  rcases hknown with rfl | rfl | rfl | rfl | rfl | rfl | rfl | rfl | rfl | rfl | rfl | rfl | rfl
  · exact hsame (n := 2) rfl plain_width.marked
  · exact hsame (n := 1) rfl
      (marked_typed (List.forall_mem_singleton.2 (plain_minimum 1).flat.unbranched))
  · exact hsame (n := 1) rfl marked_text
  · exact hsame (n := 5) rfl marked_text
  · exact hsame (n := 1) rfl marked_constants
  · refine ⟨ValueKind.array.holds, List.forall_mem_cons.2 ⟨?_, List.forall_mem_cons.2
      ⟨?_, List.forall_mem_singleton.2 ?_⟩⟩⟩
    · exact marked_typed (List.forall_mem_singleton.2 (unbranched_items item))
    · exact marked_typed (List.forall_mem_singleton.2 unbranched_withItems_nil)
    · exact marked_typed (List.forall_mem_cons.2 ⟨plain_nonEmpty.flat.unbranched,
        List.forall_mem_singleton.2 unbranched_withItems_nil⟩)
  · exact hsame (n := 5) rfl marked_name
  · exact hsame (n := 5) rfl marked_offset
  · exact ⟨fun _ => false, List.forall_mem_nil _⟩
  · exact hsame (n := 5) rfl marked_name
  · exact hsame (n := 1) rfl (marked_typed (List.forall_mem_nil _))
  · have htype : checksUnder (kindTables []) "type" =
        FieldKind.all.map fun kind => constant (.str kind.name) := rfl
    refine ⟨fun _ => false, ?_⟩
    rw [htype]
    exact List.forall_mem_map.2 fun kind _ => (plain_constant _).marked
  · exact hsame (n := 1) rfl marked_text

end Schema

/-! ## Findings under keys -/

namespace Value

open Schema Violation

/-- The value under a key of a mapping. -/
def under? (v : Value) (key : String) : Option Value :=
  match v with
  | map e => lookup? e key
  | _ => none

/-- What the schemas that some tables have for a key find in the value under it. -/
def findingsUnder (tables : List KeyTable) (v : Value) (key : String) : List Violation :=
  match v.under? key with
  | some w => (checksUnder tables key).flatMap (· [] w)
  | none => []

/-- How many complaints there are about the value under a key. -/
def complaintsUnder (tables : List KeyTable) (v : Value) (key : String) : Nat :=
  (v.findingsUnder tables key).countP fun y => y.path.isEmpty

/-- The keys with complaints about their values. -/
def misfits (tables : List KeyTable) (v : Value) : List String :=
  knownKeys.filter fun key => v.complaintsUnder tables key != 0

/-- The first key with complaints about its value, if there is one complaint only. -/
def soleMisfit (tables : List KeyTable) (v : Value) : Option String :=
  match v.misfits tables with
  | key :: _ => if v.complaintsUnder tables key = 1 then some key else none
  | [] => none

variable {tables : List KeyTable} {v w : Value} {key : String}

theorem mem_misfits :
    key ∈ v.misfits tables ↔ key ∈ knownKeys ∧ v.complaintsUnder tables key ≠ 0 := by
  simp [misfits]

theorem pairwise_misfits :
    (v.misfits tables).Pairwise fun a b =>
      Text.compare (Text.ofString a) (Text.ofString b) = .lt :=
  pairwise_knownKeys.filter _

theorem mem_findingsUnder {y : Violation} :
    y ∈ v.findingsUnder tables key ↔ ∃ w, v.under? key = some w ∧
      ∃ check ∈ checksUnder tables key, y ∈ check [] w := by
  unfold findingsUnder
  cases v.under? key with
  | none => simp
  | some w => simp

/-- A key about whose value something is found is a misfit. -/
theorem mem_misfits_of_mem (hknown : Known tables) {y : Violation}
    (hy : y ∈ v.findingsUnder tables key) (hpath : y.path = []) : key ∈ v.misfits tables := by
  obtain ⟨w, -, check, hcheck, -⟩ := mem_findingsUnder.1 hy
  obtain ⟨table, htable, hlookup⟩ := mem_checksUnder.1 hcheck
  refine mem_misfits.2
    ⟨hknown table htable (List.mem_map_of_mem (mem_of_lookup hlookup)), ?_⟩
  rw [complaintsUnder, ← Nat.pos_iff_ne_zero, List.countP_pos_iff]
  exact ⟨y, hy, List.isEmpty_iff.2 hpath⟩

theorem map_soleMisfit {α : Type} {f : String → α} {rest : List String}
    (h : v.misfits tables = key :: rest) :
    (v.soleMisfit tables).map f =
      if v.complaintsUnder tables key = 1 then some (f key) else none := by
  simp only [soleMisfit, h, apply_ite (Option.map f), Option.map_some, Option.map_none]

/-- A key with one complaint about its value, which is found. -/
theorem exists_of_soleMisfit (h : v.soleMisfit tables = some key) :
    v.complaintsUnder tables key = 1 ∧ ∃ y ∈ v.findingsUnder tables key, y.path = [] := by
  unfold soleMisfit at h
  split at h
  · split at h
    · next hone =>
      rw [Option.some.inj h] at hone
      have hpos : 0 < v.complaintsUnder tables key := by omega
      obtain ⟨y, hy, hpath⟩ := List.countP_pos_iff.1 hpos
      exact ⟨hone, y, hy, List.isEmpty_iff.1 hpath⟩
    · cases h
  · cases h

theorem findingsUnder_map {e : List (Value × Value)} :
    (map e).findingsUnder tables key = tables.flatMap fun table =>
      match lookup? e key, table.lookup key with
      | some w, some check => check [] w
      | _, _ => [] := by
  have hunder : (map e).under? key = lookup? e key := rfl
  unfold findingsUnder
  rw [hunder]
  cases lookup? e key with
  | none => exact (List.flatMap_eq_nil_iff.2 fun _ _ => rfl).symm
  | some w =>
    unfold checksUnder
    induction tables with
    | nil => rfl
    | cons table tables ih =>
      rw [List.flatMap_cons, ← ih, List.filterMap_cons]
      cases table.lookup key <;> rfl

theorem marked_findingsUnder (h : AgreeUnder tables key) :
    ∃ b, ∀ y ∈ v.findingsUnder tables key, y.path = [] → y.branches = [] ∧ y.ofType = b := by
  obtain ⟨mark, hmark⟩ := h
  cases hw : v.under? key with
  | none =>
    refine ⟨false, fun y hy => ?_⟩
    simp [findingsUnder, hw] at hy
  | some w =>
    refine ⟨mark w, fun y hy => ?_⟩
    obtain ⟨_, hw', check, hcheck, hy⟩ := mem_findingsUnder.1 hy
    obtain rfl := Option.some.inj (hw.symm.trans hw')
    exact hmark check hcheck w y hy

end Value

/-! ## Constants that are no whole numbers -/

namespace Value

open Schema Violation

variable {v : Value} {cs : List (Value × Value)}

/-- The constants of a mapping's enumeration that are no whole numbers. -/
def badConstants (v : Value) : List (Value × Value) :=
  match v.under? "enum" with
  | some (map cs) => cs.filter fun c => !ValueKind.integer.holds c.2
  | _ => []

def holdsBadConstant (v : Value) : Bool := !v.badConstants.isEmpty

theorem mem_badConstants {c : Value × Value} :
    c ∈ v.badConstants ↔ ∃ cs, v.under? "enum" = some (map cs) ∧ c ∈ cs ∧
      ValueKind.integer.holds c.2 = false := by
  unfold badConstants
  split
  · next cs hcs => simp [hcs]
  · next hnone =>
    refine iff_of_false List.not_mem_nil ?_
    rintro ⟨cs, hcs, -⟩
    exact hnone cs hcs

theorem holdsBadConstant_iff : v.holdsBadConstant = true ↔ ∃ c, c ∈ v.badConstants := by
  rw [holdsBadConstant, Bool.not_eq_true', List.isEmpty_eq_false_iff_exists_mem]

theorem constants_eq :
    constants [] (map cs) =
      (cs.flatMap fun c => (typed .integer [] [] c.2).map (.under c.1)).map (tagged true) := by
  have hobject : hasType .object [] (map cs) = [] := rfl
  rw [constants, typed_eq, hobject, List.flatMap_singleton]
  rfl

/-- A constant that is no whole number is found. -/
theorem exists_mem_constants {c : Value × Value} (hc : c ∈ cs)
    (hholds : ValueKind.integer.holds c.2 = false) :
    ∃ y ∈ constants [] (map cs), y.path = [c.1] := by
  have hnot : typed .integer [] [] c.2 ≠ [] := by
    rw [ne_eq, typed_eq_nil_iff, opened_nil, hholds]
    simp
  obtain ⟨z, hz⟩ := List.exists_mem_of_ne_nil _ hnot
  refine ⟨z.under c.1, ?_, by rw [path_under, (flat_integer c.2 z hz).1]⟩
  rw [constants_eq, ← tagged_under]
  exact List.mem_map_of_mem (List.mem_flatMap.2 ⟨c, hc, List.mem_map_of_mem hz⟩)

/-- With keys apart, what is found at the constants is found at different ones. -/
theorem pairwise_constants (hkeys : keysApart cs = true) :
    (constants [] (map cs)).Pairwise fun y z =>
      ∀ c d, y.path = [c] → z.path = [d] → c.same d = false ∧ d.same c = false := by
  have hapart := of_decide_eq_true (Bool.and_eq_true_iff.1 hkeys).2
  rw [constants_eq, List.pairwise_map, List.pairwise_flatMap]
  constructor
  · intro c _
    refine List.pairwise_map.2 ?_
    have hsingle : (typed .integer [] [] c.2).length ≤ 1 := by
      rw [typed_eq, List.length_map, List.flatMap_nil, List.append_nil]
      unfold hasType
      split <;> simp
    match typed .integer [] [] c.2, hsingle with
    | [], _ => exact .nil
    | [y], _ => exact List.pairwise_singleton _ y
  · rw [List.pairwise_map] at hapart
    refine hapart.imp fun {a b} hab y hy z hz c d hc hd => ?_
    obtain ⟨y, -, rfl⟩ := List.mem_map.1 hy
    obtain ⟨z, -, rfl⟩ := List.mem_map.1 hz
    rw [path_tagged, path_under] at hc hd
    obtain rfl := (List.cons.inj hc).1
    obtain rfl := (List.cons.inj hd).1
    simpa using hab

end Value

/-! ## Findings of the five kinds -/

/-- Below a key the five kinds find what their schemas for that key find. -/
theorem Schema.past_branchesOf {found : List Violation} {e : List (Value × Value)} {key : String} :
    Violation.past (.str key) (branchesOf found (.map e)) =
      (Value.map e).findingsUnder (kindTables found) key := by
  unfold branchesOf
  rw [Violation.past_flatMap, findingsUnder_map, kindTables, List.flatMap_map]
  exact List.flatMap_congr fun kind _ => past_checkOf kind key

end RegisterLayout
