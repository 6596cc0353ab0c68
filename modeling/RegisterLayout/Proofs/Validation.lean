import RegisterLayout.Model
import RegisterLayout.Proofs.Kinds
import RegisterLayout.Proofs.Tied

/-!
# Accepted documents

A document is accepted exactly if it describes a field in the sense of the grammar.

The violations in the fields within a value are found on the way down through lists and through the
values under `fields`, whatever else is wrong with them.  Acceptance is therefore shown in two
steps: where nothing is found within a value, the fields that it lists are described
(`FieldsHeld`), and a kind that lists fields looks at just those.

Principal definition: `FieldsHeld`.
Principal results: `inFields_sound`, `anyField_of_isField`, `validate_eq_ok_iff_isField`.
-/

namespace RegisterLayout

open Value

variable {loops : Loops Value} {v w : Value} {entries : List (Value × Value)}

theorem validate_eq_ok_iff {document : Looped Value} {text : Option Text} :
    validate document text = .ok () ↔
      Schema.fieldViolations document.loops document.root = [] := by
  rw [← Text.sortBy_eq_nil_iff]
  unfold validate
  change _ ↔ Schema.violations document = []
  cases hviolations : Schema.violations document with
  | nil => exact iff_of_true rfl rfl
  | cons x xs =>
    refine iff_of_false ?_ (List.cons_ne_nil x xs)
    simp only [List.isEmpty_cons, Bool.false_eq_true, if_false]
    split
    · exact nofun
    · intro h
      obtain ⟨ms, -, hthrow⟩ := bind_eq_ok_iff.1 h
      exact throw_ne_ok hthrow

/-! ## What is accepted is in the grammar -/

/-- The fields that a value lists, or that are listed under its key `fields`, are described. -/
def FieldsHeld (loops : Loops Value) (v : Value) : Prop :=
  (∀ xs, v.opened loops = .list xs → ∀ x ∈ xs, x.IsField loops) ∧
    ∀ entries w xs, v.opened loops = .map entries → lookup? entries "fields" = some w →
      w.opened loops = .list xs → ∀ x ∈ xs, x.IsField loops

theorem isField_of_anyField (hloops : Schema.BodiesHold loops) {found : List Violation}
    (h : Schema.anyField found loops v = []) (hfound : found = [] → FieldsHeld loops v) :
    v.IsField loops := by
  obtain ⟨kind, hkind, hsilent⟩ := (Schema.anyField_eq_nil_iff hloops).1 h
  simp only [Schema.kinds, List.mem_cons, List.not_mem_nil, or_false] at hkind
  rcases hkind with rfl | rfl | rfl | rfl | rfl
  · obtain ⟨entries, hv, htype, rules⟩ := (Schema.word_eq_nil_iff hloops).1 hsilent
    exact .word hv htype rules
  · obtain ⟨entries, hv, htype, rules⟩ := (Schema.bitfield_eq_nil_iff hloops).1 hsilent
    exact .bitfield hv htype rules
  · obtain ⟨hnil, entries, xs, hv, htype, rules⟩ := (Schema.struct_eq_nil_iff hloops).1 hsilent
    obtain ⟨w, hw, hxs⟩ := rules.fields
    exact .struct hv htype rules ((hfound hnil).2 entries w xs hv hw hxs)
  · obtain ⟨entries, hv, htype, rules⟩ := (Schema.blob_eq_nil_iff hloops).1 hsilent
    exact .blob hv htype rules
  · obtain ⟨hnil, entries, xs, hv, htype, rules⟩ := (Schema.union_eq_nil_iff hloops).1 hsilent
    obtain ⟨w, hw, hxs⟩ := rules.fields
    exact .union hv htype rules ((hfound hnil).2 entries w xs hv hw hxs)

mutual

/-- Where nothing is found within a value, the fields that it holds are described. -/
theorem inFields_sound (hloops : Schema.BodiesHold loops) {inner : Loop → List Violation}
    (hinner : ∀ l, inner l = [] → FieldsHeld loops (.again l)) :
    (v : Value) → Schema.inFields loops inner v = [] → FieldsHeld loops v
  | .list xs, h => by
    refine ⟨fun ys hys x hx => ?_, nofun⟩
    obtain rfl := Value.list.inj hys
    exact inItems_sound hloops hinner xs 0 h x hx
  | .map entries, h => by
    refine ⟨nofun, fun entries' w xs hentries hw hxs => ?_⟩
    obtain rfl := Value.map.inj hentries
    exact (inEntries_sound hloops hinner entries h w hw).1 xs hxs
  | .again l, h => hinner l h
  | .null, _ | .bool _, _ | .num _, _ | .str _, _ | .date _, _ | .moment _ _, _ | .bytes _, _
  | .tuple _, _ | .set _, _ => ⟨nofun, nofun⟩

theorem inEntries_sound (hloops : Schema.BodiesHold loops) {inner : Loop → List Violation}
    (hinner : ∀ l, inner l = [] → FieldsHeld loops (.again l)) :
    (entries : List (Value × Value)) →
    Schema.inEntries loops inner entries = [] →
    ∀ w, lookup? entries "fields" = some w → FieldsHeld loops w
  | [], _ => nofun
  | (key, value) :: rest, h => by
    intro w hw
    rw [Schema.inEntries] at h
    split at h
    · next hkey =>
      obtain rfl := same_str_iff.1 hkey
      obtain rfl := Option.some.inj (lookup?_cons_self.symm.trans hw)
      exact inFields_sound hloops hinner value h
    · next hkey =>
      rw [lookup?_cons_of_ne (mt same_str_iff.2 hkey)] at hw
      exact inEntries_sound hloops hinner rest h w hw

theorem inItems_sound (hloops : Schema.BodiesHold loops) {inner : Loop → List Violation}
    (hinner : ∀ l, inner l = [] → FieldsHeld loops (.again l)) :
    (xs : List Value) → (index : Nat) →
    Schema.inItems loops inner index xs = [] → ∀ x ∈ xs, x.IsField loops
  | [], _, _ => nofun
  | x :: xs, index, h => by
    rw [Schema.inItems, List.append_eq_nil_iff, List.map_eq_nil_iff] at h
    rw [List.forall_mem_cons]
    exact ⟨isField_of_anyField hloops h.1 (inFields_sound hloops hinner x),
      inItems_sound hloops hinner xs (index + 1) h.2⟩

end

/-- On the way down a body is entered once; a mark that is met again is a violation. -/
theorem enter_sound (hloops : Schema.BodiesHold loops) {rest : Loops Value}
    (hrest : ∀ l body, rest.lookup l = some body → loops.lookup l = some body) :
    ∀ l, rest.enter (fun _ => [.here .tooDeep]) (Schema.inFields loops) l = [] →
      FieldsHeld loops (.again l) := by
  induction hlength : rest.length using Nat.strong_induction_on generalizing rest with
  | _ length ih =>
    intro l hl
    rw [Loops.enter_eq] at hl
    cases hbody : rest.lookup l with
    | none =>
      rw [hbody] at hl
      cases hl
    | some body =>
      rw [hbody] at hl
      have hinside := inFields_sound hloops (ih _ (hlength ▸ Loops.length_without_lt hbody)
        (fun k body hk => hrest k body ?_) rfl) body hl
      · have hopened : (Value.again l).opened loops = body := by
          simp [opened, hrest l body hbody]
        rcases Schema.opened_eq_or loops body with hself | ⟨k, inside, rfl, -, -⟩
        · rwa [FieldsHeld, hself, ← hopened] at hinside
        · exact ⟨by simp [hopened], by simp [hopened]⟩
      · by_cases hkl : k = l
        · rw [hkl, Loops.lookup_without_self] at hk
          cases hk
        · rwa [Loops.lookup_without_of_ne _ hkl] at hk

theorem isField_of_fieldViolations (hloops : Schema.BodiesHold loops)
    (h : Schema.fieldViolations loops v = []) : v.IsField loops :=
  isField_of_anyField hloops h
    (inFields_sound hloops (enter_sound hloops fun _ _ hl => hl) v)

/-! ## What is in the grammar is accepted -/

theorem inItems_eq_nil {inner : Loop → List Violation} {xs : List Value} (index : Nat)
    (h : ∀ x ∈ xs, Schema.anyField (Schema.inFields loops inner x) loops x = []) :
    Schema.inItems loops inner index xs = [] := by
  induction xs generalizing index with
  | nil => rfl
  | cons x xs ih =>
    obtain ⟨hx, hxs⟩ := List.forall_mem_cons.1 h
    rw [Schema.inItems, hx, ih _ hxs]
    rfl

theorem inEntries_eq {inner : Loop → List Violation} (h : lookup? entries "fields" = some w) :
    Schema.inEntries loops inner entries = Schema.inFields loops inner w := by
  induction entries with
  | nil => cases h
  | cons entry entries ih =>
    obtain ⟨key, value⟩ := entry
    rw [Schema.inEntries]
    split
    · next hkey =>
      obtain rfl := same_str_iff.1 hkey
      obtain rfl := Option.some.inj (lookup?_cons_self.symm.trans h)
      rfl
    · next hkey =>
      rw [lookup?_cons_of_ne (mt same_str_iff.2 hkey)] at h
      exact ih h

/-- In a document without marks a described field has no violations. -/
theorem anyField_of_isField {inner : Loop → List Violation} (h : v.IsField []) :
    Schema.anyField (Schema.inFields [] inner v) [] v = [] := by
  have hloops : Schema.BodiesHold [] := nofun
  have listed : ∀ {v : Value} {entries : List (Value × Value)} {xs : List Value},
      v.opened [] = .map entries → GroupRules [] entries xs →
      (∀ x ∈ xs, Schema.anyField (Schema.inFields [] inner x) [] x = []) →
      Schema.inFields [] inner v = [] := by
    intro v entries xs hv rules hxs
    rw [opened_nil] at hv
    obtain ⟨w, hw, hlist⟩ := rules.fields
    rw [opened_nil] at hlist
    rw [hv, Schema.inFields, inEntries_eq hw, hlist, Schema.inFields, inItems_eq_nil 0 hxs]
  rw [Schema.anyField_eq_nil_iff hloops]
  induction h with
  | word hv type rules =>
    exact ⟨(.word, Schema.word), by simp [Schema.kinds],
      (Schema.word_eq_nil_iff hloops).2 ⟨_, hv, type, rules⟩⟩
  | bitfield hv type rules =>
    exact ⟨(.bitfield, Schema.bitfield), by simp [Schema.kinds],
      (Schema.bitfield_eq_nil_iff hloops).2 ⟨_, hv, type, rules⟩⟩
  | struct hv type rules _ ih =>
    have hnil := listed hv rules fun x hx => (Schema.anyField_eq_nil_iff hloops).2 (ih x hx)
    exact ⟨(.struct, Schema.struct _), by simp [Schema.kinds],
      (Schema.struct_eq_nil_iff hloops).2 ⟨hnil, _, _, hv, type, rules⟩⟩
  | blob hv type rules =>
    exact ⟨(.blob, Schema.blob), by simp [Schema.kinds],
      (Schema.blob_eq_nil_iff hloops).2 ⟨_, hv, type, rules⟩⟩
  | union hv type rules _ ih =>
    have hnil := listed hv rules.toGroupRules
      fun x hx => (Schema.anyField_eq_nil_iff hloops).2 (ih x hx)
    exact ⟨(.union, Schema.union _), by simp [Schema.kinds],
      (Schema.union_eq_nil_iff hloops).2 ⟨hnil, _, _, hv, type, rules⟩⟩

/-- A document that has been read is accepted exactly if it describes a field. -/
theorem validate_eq_ok_iff_isField {document : Looped Value} (h : document.Tied)
    {text : Option Text} :
    validate document text = .ok () ↔ document.root.IsField document.loops := by
  rw [validate_eq_ok_iff]
  constructor
  · exact isField_of_fieldViolations h.bodies
  · intro hfield
    have hnil := h.loops_eq_nil hfield
    rw [hnil] at hfield ⊢
    exact anyField_of_isField hfield

end RegisterLayout
