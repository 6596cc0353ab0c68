import RegisterLayout.Proofs.Grammar

/-!
# What the schema of a kind accepts

The schema of each kind is silent exactly about the mappings that keep the rules of the kind.  The
five kinds exclude each other, since each asks for its own name under the key `type`, so a choice
of at least one of them is a choice of exactly one.

Principal definition: `Schema.kinds` — the schemas of the kinds, checked side by side.
Principal results: `Schema.word_eq_nil_iff`, `Schema.item_eq_nil_iff`,
`Schema.bitfield_eq_nil_iff`, `Schema.blob_eq_nil_iff`, `Schema.struct_eq_nil_iff`,
`Schema.union_eq_nil_iff`; `Schema.eq_of_kinds`, `Schema.anyField_eq_nil_iff`.
-/

namespace RegisterLayout

open Value

namespace Schema

variable {loops : Loops Value} {v : Value} {entries : List (Value × Value)}

/-! ## Checks of kinds -/

theorem must_iff {key : String} {p : Value → Prop} :
    Must entries key p ↔ (lookup? entries (key : String)).isSome = true ∧ May entries key p := by
  constructor
  · rintro ⟨w, hw, hp⟩
    refine ⟨by simp [hw], fun u hu => ?_⟩
    obtain rfl := Option.some.inj (hw.symm.trans hu)
    exact hp
  · rintro ⟨hsome, hp⟩
    obtain ⟨w, hw⟩ := Option.isSome_iff_exists.1 hsome
    exact ⟨w, hw, hp w hw⟩

/-- The value under a key that is needed and can be one text only. -/
theorem must_eq_iff {key : String} {w : Value} :
    Must entries key (· = w) ↔ lookup? entries (key : String) = some w := by
  simp [Must]

theorem commonRules_iff (hloops : BodiesHold loops) :
    (∀ c ∈ commonProperties, May entries c.1 fun w => c.2 loops w = []) ↔
      CommonRules entries := by
  simp only [commonProperties, List.forall_mem_cons, List.not_mem_nil, false_imp_iff,
    implies_true, and_true,
    name_eq_nil_iff hloops, text_eq_nil_iff hloops, offset, atLeast_eq_nil_iff hloops]
  exact ⟨fun ⟨name, shortName, desc, offset⟩ => ⟨name, shortName, desc, offset⟩,
    fun ⟨name, shortName, desc, offset⟩ => ⟨name, shortName, desc, offset⟩⟩

/-- The schema of a kind by its parts: the keys, the values that every node may have, the type,
and what is the kind's own. -/
theorem kindOf_eq_nil_iff_rules (hloops : BodiesHold loops) {kind : String}
    {needed : List String} {own : List (String × Check)} :
    kindOf kind needed own loops v = [] ↔
      ∃ entries, v.opened loops = .map entries ∧
        (∀ key ∈ needed, (lookup? entries (key : String)).isSome = true) ∧
        KeysAmong (own.map Prod.fst) entries ∧ CommonRules entries ∧
        May entries "type" (· = .str kind) ∧
        ∀ c ∈ own, May entries c.1 fun w => c.2 loops w = [] := by
  rw [kindOf_eq_nil_iff]
  refine exists_congr fun entries => and_congr_right fun _ => and_congr_right fun _ =>
    and_congr_right fun _ => ?_
  rw [← commonRules_iff hloops, kindProperties, List.forall_mem_append, List.forall_mem_cons]
  simp only [constant_str_eq_nil_iff, May]

theorem word_eq_nil_iff (hloops : BodiesHold loops) :
    word loops v = [] ↔ ∃ entries, v.opened loops = .map entries ∧
      lookup? entries "type" = some (.str "word") ∧ WordRules loops entries := by
  unfold word
  rw [kindOf_eq_nil_iff_rules hloops]
  refine exists_congr fun entries => and_congr_right fun _ => ?_
  simp only [List.forall_mem_cons, List.not_mem_nil, false_imp_iff,
    implies_true, and_true, width_eq_nil_iff,
    flag_eq_nil_iff hloops, text_eq_nil_iff hloops, constants_eq_nil_iff hloops]
  rw [← must_eq_iff, must_iff]
  constructor
  · rintro ⟨⟨htype, hbits⟩, hkeys, hcommon, hkind, bits, signed, typedef, constants⟩
    exact ⟨⟨htype, hkind⟩, hcommon, hkeys, must_iff.2 ⟨hbits, bits⟩, signed, typedef, constants⟩
  · rintro ⟨⟨htype, hkind⟩, hcommon, hkeys, hbits, signed, typedef, constants⟩
    obtain ⟨hbits, bits⟩ := must_iff.1 hbits
    exact ⟨⟨htype, hbits⟩, hkeys, hcommon, hkind, bits, signed, typedef, constants⟩

theorem item_eq_nil_iff (hloops : BodiesHold loops) : item loops v = [] ↔ v.IsItem loops := by
  have honly : ∀ {w : Value}, oneOfConstants [.str "read", .str "write"] loops w = [] ↔
      w = .str "read" ∨ w = .str "write" := by
    intro w
    simp only [oneOfConstants_eq_nil_iff, equals_str_iff, List.mem_cons, List.not_mem_nil,
      or_false, exists_eq_or_imp, exists_eq_left]
  unfold item Value.IsItem
  rw [kindOf_eq_nil_iff_rules hloops]
  refine exists_congr fun entries => and_congr_right fun _ => ?_
  simp only [List.forall_mem_cons, List.not_mem_nil, false_imp_iff,
    implies_true, and_true, between_eq_nil_iff hloops,
    constants_eq_nil_iff hloops, honly]
  constructor
  · rintro ⟨hbits, hkeys, hcommon, hkind, bits, constants, only⟩
    exact ⟨hcommon, hkeys, hkind, must_iff.2 ⟨hbits, bits⟩, constants, only⟩
  · rintro ⟨hcommon, hkeys, hkind, hbits, constants, only⟩
    obtain ⟨hbits, bits⟩ := must_iff.1 hbits
    exact ⟨hbits, hkeys, hcommon, hkind, bits, constants, only⟩

/-- A list that further keywords check. -/
theorem listed_eq_nil_iff {keywords : List Check} {w : Value} :
    typed .array keywords loops w = [] ↔
      ∃ xs, w.opened loops = .list xs ∧ ∀ check ∈ keywords, check loops w = [] := by
  rw [typed_eq_nil_iff, holds_array, exists_and_right]

theorem bitfield_eq_nil_iff (hloops : BodiesHold loops) :
    bitfield loops v = [] ↔ ∃ entries, v.opened loops = .map entries ∧
      lookup? entries "type" = some (.str "bitfield") ∧ BitFieldRules loops entries := by
  have hitems : ∀ {w : Value}, typed .array [items item] loops w = [] ↔
      ∃ xs, w.opened loops = .list xs ∧ ∀ x ∈ xs, x.IsItem loops := by
    intro w
    rw [listed_eq_nil_iff]
    refine exists_congr fun xs => and_congr_right fun hw => ?_
    rw [List.forall_mem_singleton, items_eq_nil_iff hw]
    simp only [item_eq_nil_iff hloops]
  unfold bitfield
  rw [kindOf_eq_nil_iff_rules hloops]
  refine exists_congr fun entries => and_congr_right fun _ => ?_
  simp only [List.forall_mem_cons, List.not_mem_nil, false_imp_iff,
    implies_true, and_true, width_eq_nil_iff, hitems]
  rw [← must_eq_iff, must_iff]
  constructor
  · rintro ⟨⟨htype, hbits, hfields⟩, hkeys, hcommon, hkind, bits, fields⟩
    exact ⟨⟨htype, hkind⟩, hcommon, hkeys, must_iff.2 ⟨hbits, bits⟩, must_iff.2 ⟨hfields, fields⟩⟩
  · rintro ⟨⟨htype, hkind⟩, hcommon, hkeys, hbits, hfields⟩
    obtain ⟨hbits, bits⟩ := must_iff.1 hbits
    obtain ⟨hfields, fields⟩ := must_iff.1 hfields
    exact ⟨⟨htype, hbits, hfields⟩, hkeys, hcommon, hkind, bits, fields⟩

theorem blob_eq_nil_iff (hloops : BodiesHold loops) :
    blob loops v = [] ↔ ∃ entries, v.opened loops = .map entries ∧
      lookup? entries "type" = some (.str "opaque") ∧ BlobRules entries := by
  unfold blob
  rw [kindOf_eq_nil_iff_rules hloops]
  refine exists_congr fun entries => and_congr_right fun _ => ?_
  simp only [List.forall_mem_cons, List.not_mem_nil, false_imp_iff,
    implies_true, and_true, atLeast_eq_nil_iff hloops,
    text_eq_nil_iff hloops]
  rw [← must_eq_iff, must_iff]
  constructor
  · rintro ⟨⟨htype, hbytes⟩, hkeys, hcommon, hkind, bytes, decl⟩
    exact ⟨⟨htype, hkind⟩, hcommon, hkeys, must_iff.2 ⟨hbytes, bytes⟩, decl⟩
  · rintro ⟨⟨htype, hkind⟩, hcommon, hkeys, hbytes, decl⟩
    obtain ⟨hbytes, bytes⟩ := must_iff.1 hbytes
    exact ⟨⟨htype, hbytes⟩, hkeys, hcommon, hkind, bytes, decl⟩

theorem struct_eq_nil_iff (hloops : BodiesHold loops) {found : List Violation} :
    struct found loops v = [] ↔ found = [] ∧ ∃ entries xs, v.opened loops = .map entries ∧
      lookup? entries "type" = some (.str "struct") ∧ GroupRules loops entries xs := by
  have hfields : ∀ {w : Value}, typed .array [withItems found] loops w = [] ↔
      found = [] ∧ ∃ xs, w.opened loops = .list xs := by
    intro w
    rw [listed_eq_nil_iff]
    constructor
    · rintro ⟨xs, hw, h⟩
      rw [List.forall_mem_singleton, withItems_eq_nil_iff hw] at h
      exact ⟨h, xs, hw⟩
    · rintro ⟨h, xs, hw⟩
      exact ⟨xs, hw, by rwa [List.forall_mem_singleton, withItems_eq_nil_iff hw]⟩
  unfold struct
  rw [kindOf_eq_nil_iff_rules hloops]
  simp only [List.forall_mem_cons, List.not_mem_nil, false_imp_iff,
    implies_true, and_true, hfields]
  constructor
  · rintro ⟨entries, hv, ⟨htype, hsome⟩, hkeys, hcommon, hkind, fields⟩
    obtain ⟨w, hw, hfound, xs, hxs⟩ := must_iff.2 ⟨hsome, fields⟩
    exact ⟨hfound, entries, xs, hv, must_eq_iff.1 (must_iff.2 ⟨htype, hkind⟩), hcommon, hkeys,
      w, hw, hxs⟩
  · rintro ⟨hfound, entries, xs, hv, htype, hcommon, hkeys, w, hw, hxs⟩
    obtain ⟨htype, hkind⟩ := must_iff.1 (must_eq_iff.2 htype)
    have hfields : Must entries "fields" fun w => found = [] ∧ ∃ xs, w.opened loops = .list xs :=
      ⟨w, hw, hfound, xs, hxs⟩
    obtain ⟨hsome, fields⟩ := must_iff.1 hfields
    exact ⟨entries, hv, ⟨htype, hsome⟩, hkeys, hcommon, hkind, fields⟩

theorem union_eq_nil_iff (hloops : BodiesHold loops) {found : List Violation} :
    union found loops v = [] ↔ found = [] ∧ ∃ entries xs, v.opened loops = .map entries ∧
      lookup? entries "type" = some (.str "union") ∧ UnionRules loops entries xs := by
  have hfields : ∀ {w : Value}, typed .array [nonEmpty, withItems found] loops w = [] ↔
      found = [] ∧ ∃ xs, w.opened loops = .list xs ∧ xs ≠ [] := by
    intro w
    rw [listed_eq_nil_iff]
    constructor
    · rintro ⟨xs, hw, h⟩
      rw [List.forall_mem_cons, List.forall_mem_singleton, nonEmpty_eq_nil_iff hw,
        withItems_eq_nil_iff hw] at h
      exact ⟨h.2, xs, hw, h.1⟩
    · rintro ⟨h, xs, hw, hne⟩
      refine ⟨xs, hw, ?_⟩
      rw [List.forall_mem_cons, List.forall_mem_singleton, nonEmpty_eq_nil_iff hw,
        withItems_eq_nil_iff hw]
      exact ⟨hne, h⟩
  unfold union
  rw [kindOf_eq_nil_iff_rules hloops]
  simp only [List.forall_mem_cons, List.not_mem_nil, false_imp_iff,
    implies_true, and_true, hfields]
  constructor
  · rintro ⟨entries, hv, ⟨htype, hname, hsome⟩, hkeys, hcommon, hkind, fields⟩
    obtain ⟨w, hw, hfound, xs, hxs, hne⟩ := must_iff.2 ⟨hsome, fields⟩
    exact ⟨hfound, entries, xs, hv, must_eq_iff.1 (must_iff.2 ⟨htype, hkind⟩),
      ⟨hcommon, hkeys, w, hw, hxs⟩, must_iff.2 ⟨hname, hcommon.name⟩, hne⟩
  · rintro ⟨hfound, entries, xs, hv, htype, ⟨hcommon, hkeys, w, hw, hxs⟩, hname, hne⟩
    obtain ⟨htype, hkind⟩ := must_iff.1 (must_eq_iff.2 htype)
    have hfields : Must entries "fields" fun w =>
        found = [] ∧ ∃ xs, w.opened loops = .list xs ∧ xs ≠ [] := ⟨w, hw, hfound, xs, hxs, hne⟩
    obtain ⟨hsome, fields⟩ := must_iff.1 hfields
    exact ⟨entries, hv, ⟨htype, (must_iff.1 hname).1, hsome⟩, hkeys, hcommon, hkind, fields⟩

/-! ## The choice between the kinds -/

/-- The schemas that a field is checked against side by side, given the violations in the fields
within it. -/
def kinds (found : List Violation) : List (FieldKind × Check) := [
  (.word, word), (.bitfield, bitfield), (.struct, struct found), (.blob, blob),
  (.union, union found)]

/-- A kind accepts only what names it as its type. -/
theorem type_of_kind (hloops : BodiesHold loops) {found : List Violation}
    {kind : FieldKind × Check} (hkind : kind ∈ kinds found) (h : kind.2 loops v = []) :
    ∃ entries, v.opened loops = .map entries ∧
      lookup? entries "type" = some (.str kind.1.name) := by
  simp only [kinds, List.mem_cons, List.not_mem_nil, or_false] at hkind
  rcases hkind with rfl | rfl | rfl | rfl | rfl
  · obtain ⟨entries, hv, htype, -⟩ := (word_eq_nil_iff hloops).1 h
    exact ⟨entries, hv, htype⟩
  · obtain ⟨entries, hv, htype, -⟩ := (bitfield_eq_nil_iff hloops).1 h
    exact ⟨entries, hv, htype⟩
  · obtain ⟨-, entries, xs, hv, htype, -⟩ := (struct_eq_nil_iff hloops).1 h
    exact ⟨entries, hv, htype⟩
  · obtain ⟨entries, hv, htype, -⟩ := (blob_eq_nil_iff hloops).1 h
    exact ⟨entries, hv, htype⟩
  · obtain ⟨-, entries, xs, hv, htype, -⟩ := (union_eq_nil_iff hloops).1 h
    exact ⟨entries, hv, htype⟩

theorem name_injective : Function.Injective fun kind : FieldKind => Text.ofString kind.name := by
  intro a b h
  cases a <;> cases b <;> first | rfl | exact absurd h (by decide)

/-- No two kinds accept one value. -/
theorem eq_of_kinds (hloops : BodiesHold loops) {found : List Violation}
    {a b : FieldKind × Check} (ha : a ∈ kinds found) (hb : b ∈ kinds found)
    (hva : a.2 loops v = []) (hvb : b.2 loops v = []) : a.1 = b.1 := by
  obtain ⟨entries, hv, htype⟩ := type_of_kind hloops ha hva
  obtain ⟨others, hv', htype'⟩ := type_of_kind hloops hb hvb
  obtain rfl := Value.map.inj (hv.symm.trans hv')
  exact name_injective (Value.str.inj (Option.some.inj (htype.symm.trans htype')))

/-- Of the schemas that are checked side by side no two are silent. -/
theorem length_silent_le_one (hloops : BodiesHold loops) (found : List Violation) (v : Value) :
    ([word, bitfield, struct found, blob, union found].filter
      fun check => (check loops v).isEmpty).length ≤ 1 := by
  have hbranches : [word, bitfield, struct found, blob, union found]
      = (kinds found).map Prod.snd := rfl
  have hnames : ((kinds found).map Prod.fst).Nodup := by
    rw [show (kinds found).map Prod.fst = FieldKind.all from rfl]
    decide
  rw [hbranches, List.filter_map, List.length_map]
  have hnodup := hnames.sublist
    ((List.filter_sublist (p := (fun check => (check loops v).isEmpty) ∘ Prod.snd)).map Prod.fst)
  have hsilent : ∀ kind ∈ (kinds found).filter ((fun check => (check loops v).isEmpty) ∘ Prod.snd),
      kind ∈ kinds found ∧ kind.2 loops v = [] := by
    intro kind hkind
    obtain ⟨hmem, hempty⟩ := List.mem_filter.1 hkind
    exact ⟨hmem, List.isEmpty_iff.1 hempty⟩
  cases hfilter : (kinds found).filter ((fun check => (check loops v).isEmpty) ∘ Prod.snd) with
  | nil => exact Nat.zero_le 1
  | cons a rest =>
    cases rest with
    | nil => exact Nat.le_refl 1
    | cons b rest =>
      rw [hfilter] at hnodup hsilent
      obtain ⟨ha, hva⟩ := hsilent a (by simp)
      obtain ⟨hb, hvb⟩ := hsilent b (by simp)
      have hsame := eq_of_kinds hloops ha hb hva hvb
      simp [hsame] at hnodup

/-- A field is accepted exactly if one of the kinds accepts it: the keywords beside the choice ask
for nothing more. -/
theorem anyField_eq_nil_iff (hloops : BodiesHold loops) {found : List Violation} :
    anyField found loops v = [] ↔ ∃ kind ∈ kinds found, kind.2 loops v = [] := by
  have hbranches : [word, bitfield, struct found, blob, union found]
      = (kinds found).map Prod.snd := rfl
  unfold anyField
  rw [typed_eq_nil_iff, hbranches, List.forall_mem_cons, List.forall_mem_cons,
    List.forall_mem_singleton, choice_eq_nil_iff]
  simp only [List.mem_map, exists_exists_and_eq_and]
  refine ⟨fun h => h.2.2.2, fun h => ?_⟩
  obtain ⟨kind, hkind, hsilent⟩ := h
  obtain ⟨entries, hv, htype⟩ := type_of_kind hloops hkind hsilent
  refine ⟨holds_object.2 ⟨entries, hv⟩, ?_, ?_, kind, hkind, hsilent⟩
  · rw [required_eq_nil_iff hv, List.forall_mem_singleton, htype]
    rfl
  · rw [properties_eq_nil_iff hv, List.forall_mem_singleton]
    intro w hw
    obtain rfl := Option.some.inj (htype.symm.trans hw)
    rw [oneOfConstants_eq_nil_iff]
    refine ⟨_, List.mem_map.2 ⟨kind.1, ?_, rfl⟩, equals_str_iff.2 rfl⟩
    cases kind.1 <;> simp [FieldKind.all]

end Schema

end RegisterLayout
