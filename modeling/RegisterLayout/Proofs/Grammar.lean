import RegisterLayout.Proofs.Acceptance
import RegisterLayout.Proofs.Keyword

/-!
# The grammar of layouts

What a document may look like to describe a layout, said without the schema: the keys of every
kind of field, which of them are needed, and the values that they take.  The schema is a choice
between five kinds that are checked side by side; the grammar asks for the kind first.

A mark is looked through wherever a collection may stand, so that the grammar also speaks of
documents with collections that contain themselves.  None of those is in it, since a field is built
up from its parts in finitely many steps.

Principal definitions: `Value.IsName`, `Value.IsWhole`, `WordRules`, `ItemRules`,
`BitFieldRules`, `BlobRules`, `GroupRules`, `Value.IsField`.
Principal results: `Schema.name_eq_nil_iff` and its siblings, one for each check of a value.
-/

namespace RegisterLayout

open Value

/-! ## Values -/

namespace Value

/-- A value that holds no others. -/
def isScalar : Value → Bool
  | list _ | tuple _ | set _ | map _ | again _ => false
  | _ => true

/-- A letter or an underscore, letters, digits and underscores after it, and no more than one line
feed at the end. -/
def IsName (v : Value) : Prop :=
  ∃ (c : Char) (rest : List Char), (c.isAlpha ∨ c = '_') ∧ (∀ d ∈ rest, d.isAlphanum ∨ d = '_') ∧
    (v = .str (Text.ofChars (c :: rest)) ∨ v = .str (Text.ofChars (c :: rest ++ ['\n'])))

/-- A number without a fraction, of either kind, that passes a test. -/
def IsWhole (p : Int → Prop) (v : Value) : Prop := ∃ n m, v = .num n ∧ n.whole? = some m ∧ p m

def IsFlag (v : Value) : Prop := ∃ b, v = .bool b

/-- A mapping to whole numbers. -/
def IsEnumeration (loops : Loops Value) (v : Value) : Prop :=
  ∃ entries, v.opened loops = .map entries ∧ ∀ entry ∈ entries, IsWhole (fun _ => True) entry.2

/-- If there is a value under a key, it keeps a rule. -/
def May (entries : List (Value × Value)) (key : String) (p : Value → Prop) : Prop :=
  ∀ v, lookup? entries key = some v → p v

/-- There is a value under a key, and it keeps a rule. -/
def Must (entries : List (Value × Value)) (key : String) (p : Value → Prop) : Prop :=
  ∃ v, lookup? entries key = some v ∧ p v

/-- A rule for the value that is under a key. -/
theorem may_of_eq {entries : List (Value × Value)} {key : String} {u : Value} {p : Value → Prop}
    (h : lookup? entries (key : String) = some u) (hu : p u) : May entries key p := by
  intro w hw
  obtain rfl := Option.some.inj (h.symm.trans hw)
  exact hu

/-- Keys are texts that every kind of field knows, or one of some texts. -/
def KeysAmong (own : List String) (entries : List (Value × Value)) : Prop :=
  ∀ entry ∈ entries,
    ∃ key ∈ ["name", "short_name", "desc", "offset", "type"] ++ own, entry.1 = .str key

end Value

/-! ## Kinds of fields -/

/-- The values that every node may have. -/
structure CommonRules (entries : List (Value × Value)) : Prop where
  name : May entries "name" IsName
  shortName : May entries "short_name" IsName
  desc : May entries "desc" Value.IsText
  offset : May entries "offset" (IsWhole (0 ≤ ·))

structure WordRules (loops : Loops Value) (entries : List (Value × Value)) : Prop
    extends CommonRules entries where
  keys : KeysAmong ["bits", "signed", "typedef", "enum"] entries
  bits : Must entries "bits" (IsWhole (· ∈ wordWidths))
  signed : May entries "signed" IsFlag
  typedef : May entries "typedef" Value.IsText
  constants : May entries "enum" (IsEnumeration loops)

/-- An item of a bit field; its type can be left out. -/
structure ItemRules (loops : Loops Value) (entries : List (Value × Value)) : Prop
    extends CommonRules entries where
  keys : KeysAmong ["bits", "enum", "only"] entries
  type : May entries "type" (· = .str "bit")
  bits : Must entries "bits" (IsWhole fun n => 1 ≤ n ∧ n ≤ 64)
  constants : May entries "enum" (IsEnumeration loops)
  only : May entries "only" fun v => v = .str "read" ∨ v = .str "write"

def Value.IsItem (loops : Loops Value) (v : Value) : Prop :=
  ∃ entries, v.opened loops = .map entries ∧ ItemRules loops entries

structure BitFieldRules (loops : Loops Value) (entries : List (Value × Value)) : Prop
    extends CommonRules entries where
  keys : KeysAmong ["bits", "fields"] entries
  bits : Must entries "bits" (IsWhole (· ∈ wordWidths))
  items : Must entries "fields" fun w =>
    ∃ xs, w.opened loops = .list xs ∧ ∀ x ∈ xs, IsItem loops x

structure BlobRules (entries : List (Value × Value)) : Prop extends CommonRules entries where
  keys : KeysAmong ["bytes", "decl"] entries
  bytes : Must entries "bytes" (IsWhole (1 ≤ ·))
  decl : May entries "decl" Value.IsText

/-- A struct or a union apart from the fields that it lists. -/
structure GroupRules (loops : Loops Value) (entries : List (Value × Value)) (xs : List Value) :
    Prop extends CommonRules entries where
  keys : KeysAmong ["fields"] entries
  fields : Must entries "fields" fun w => w.opened loops = .list xs

/-- What a union needs beyond a struct. -/
structure UnionRules (loops : Loops Value) (entries : List (Value × Value)) (xs : List Value) :
    Prop extends GroupRules loops entries xs where
  named : Must entries "name" IsName
  nonempty : xs ≠ []

/-- A description of a field. -/
inductive Value.IsField (loops : Loops Value) : Value → Prop
  | word {v : Value} {entries : List (Value × Value)} (hv : v.opened loops = .map entries)
      (type : lookup? entries "type" = some (.str "word"))
      (rules : WordRules loops entries) : IsField loops v
  | bitfield {v : Value} {entries : List (Value × Value)} (hv : v.opened loops = .map entries)
      (type : lookup? entries "type" = some (.str "bitfield"))
      (rules : BitFieldRules loops entries) : IsField loops v
  | struct {v : Value} {entries : List (Value × Value)} {xs : List Value}
      (hv : v.opened loops = .map entries)
      (type : lookup? entries "type" = some (.str "struct"))
      (rules : GroupRules loops entries xs) (fields : ∀ x ∈ xs, IsField loops x) :
      IsField loops v
  | blob {v : Value} {entries : List (Value × Value)} (hv : v.opened loops = .map entries)
      (type : lookup? entries "type" = some (.str "opaque"))
      (rules : BlobRules entries) : IsField loops v
  | union {v : Value} {entries : List (Value × Value)} {xs : List Value}
      (hv : v.opened loops = .map entries)
      (type : lookup? entries "type" = some (.str "union"))
      (rules : UnionRules loops entries xs) (members : ∀ x ∈ xs, IsField loops x) :
      IsField loops v

/-! ## Checks of values -/

namespace Schema

/-- Only collections contain themselves. -/
def BodiesHold (loops : Loops Value) : Prop := ∀ entry ∈ loops, entry.2.isScalar = false

variable {loops : Loops Value} {v : Value} {entries : List (Value × Value)}

theorem opened_eq_or (loops : Loops Value) (v : Value) :
    v.opened loops = v ∨ ∃ l body, v = .again l ∧ (l, body) ∈ loops ∧ v.opened loops = body := by
  cases v with
  | again l =>
    cases hl : loops.lookup l with
    | none => exact .inl (by simp [opened, hl])
    | some body =>
      obtain ⟨before, after, hloops, -⟩ := List.lookup_eq_some_iff.1 hl
      exact .inr ⟨l, body, rfl, by simp [hloops], by simp [opened, hl]⟩
  | _ => exact .inl rfl

/-- A scalar does not stand behind a mark. -/
theorem opened_eq_scalar_iff (hloops : BodiesHold loops) {w : Value} (hw : w.isScalar = true) :
    v.opened loops = w ↔ v = w := by
  rcases opened_eq_or loops v with hv | ⟨l, body, rfl, hbody, hv⟩
  · rw [hv]
  · constructor
    · intro h
      rw [hv] at h
      exact absurd (hloops _ hbody) (by simp [h, hw])
    · rintro rfl
      cases hw

theorem isName_iff {cs : List Char} :
    isName cs = true ↔ ∃ c rest, (c.isAlpha ∨ c = '_') ∧
      (∀ d ∈ rest, d.isAlphanum ∨ d = '_') ∧ (cs = c :: rest ∨ cs = c :: rest ++ ['\n']) := by
  have hlast : ∀ {c : Char} {rest : List Char}, (c.isAlpha ∨ c = '_') →
      (∀ d ∈ rest, d.isAlphanum ∨ d = '_') → (c :: rest).getLast? ≠ some '\n' := by
    intro c rest hc hrest h
    rcases List.mem_cons.1 (List.mem_of_getLast? h) with rfl | h
    · exact absurd hc (by decide)
    · exact absurd (hrest _ h) (by decide)
  unfold isName
  constructor
  · intro h
    split at h
    · next c rest hdrop =>
      simp only [Bool.and_eq_true, Bool.or_eq_true, beq_iff_eq, List.all_eq_true] at h
      exact ⟨c, rest, h.1, h.2, (dropFeed_eq_iff (hlast h.1 h.2)).1 hdrop⟩
    · cases h
  · rintro ⟨c, rest, hc, hrest, hcs⟩
    rw [(dropFeed_eq_iff (hlast hc hrest)).2 hcs]
    simp only [Bool.and_eq_true, Bool.or_eq_true, beq_iff_eq, List.all_eq_true]
    exact ⟨hc, hrest⟩

theorem satisfies_isName_iff {s : Text} : s.satisfies isName = true ↔ (Value.str s).IsName := by
  unfold Text.satisfies Value.IsName
  constructor
  · intro h
    cases hs : s.chars? with
    | none => simp [hs] at h
    | some cs =>
      obtain ⟨c, rest, hc, hrest, hcs⟩ := isName_iff.1 (by simpa [hs] using h)
      obtain rfl := Text.eq_ofChars_of_chars? hs
      exact ⟨c, rest, hc, hrest, hcs.imp (congrArg (Value.str ∘ Text.ofChars))
        (congrArg (Value.str ∘ Text.ofChars))⟩
  · rintro ⟨c, rest, hc, hrest, hs⟩
    simp only [Value.str.injEq] at hs
    rcases hs with rfl | rfl
    · simpa using isName_iff.2 ⟨c, rest, hc, hrest, .inl rfl⟩
    · simpa using isName_iff.2 ⟨c, rest, hc, hrest, .inr rfl⟩

theorem name_eq_nil_iff (hloops : BodiesHold loops) : name loops v = [] ↔ v.IsName := by
  unfold name
  rw [typed_eq_nil_iff, holds_string]
  simp only [opened_eq_scalar_iff hloops (w := .str _) rfl, List.forall_mem_singleton]
  constructor
  · rintro ⟨⟨s, rfl⟩, h⟩
    exact satisfies_isName_iff.1 (by simpa [ofForm] using h)
  · intro h
    obtain ⟨s, rfl⟩ : ∃ s, v = .str s := by
      obtain ⟨_, _, _, _, rfl | rfl⟩ := h <;> exact ⟨_, rfl⟩
    exact ⟨⟨s, rfl⟩, by simpa [ofForm] using satisfies_isName_iff.2 h⟩

theorem text_eq_nil_iff (hloops : BodiesHold loops) : text loops v = [] ↔ v.IsText := by
  unfold text
  rw [typed_eq_nil_iff, holds_string]
  simp only [opened_eq_scalar_iff hloops (w := .str _) rfl, List.not_mem_nil, false_imp_iff,
    implies_true, and_true, Value.IsText]

theorem flag_eq_nil_iff (hloops : BodiesHold loops) :
    typed .boolean [] loops v = [] ↔ v.IsFlag := by
  rw [typed_eq_nil_iff, holds_boolean]
  simp only [opened_eq_scalar_iff hloops (w := .bool _) rfl, List.not_mem_nil, false_imp_iff,
    implies_true, and_true, Value.IsFlag]

/-- A whole number with keywords that are each silent about the numbers that pass a test. -/
theorem whole_eq_nil_iff (hloops : BodiesHold loops) {keywords : List Check} {p : Int → Prop}
    (hp : ∀ n m, n.whole? = some m →
      ((∀ check ∈ keywords, check loops (.num n) = []) ↔ p m)) :
    typed .integer keywords loops v = [] ↔ v.IsWhole p := by
  rw [typed_eq_nil_iff, holds_integer]
  simp only [opened_eq_scalar_iff hloops (w := .num _) rfl, Value.IsWhole]
  constructor
  · rintro ⟨⟨n, m, rfl, hm⟩, h⟩
    exact ⟨n, m, rfl, hm, (hp n m hm).1 h⟩
  · rintro ⟨n, m, rfl, hm, h⟩
    exact ⟨⟨n, m, rfl, hm⟩, (hp n m hm).2 h⟩

theorem minimum_eq_nil_iff {n : Number} {m least : Int} (hm : n.whole? = some m) :
    minimum least loops (.num n) = [] ↔ least ≤ m := by
  simp [minimum, plainNumber?, Number.lt_of_whole hm]

theorem maximum_eq_nil_iff {n : Number} {m greatest : Int} (hm : n.whole? = some m) :
    maximum greatest loops (.num n) = [] ↔ m ≤ greatest := by
  simp [maximum, plainNumber?, Number.gt_of_whole hm]

theorem atLeast_eq_nil_iff (hloops : BodiesHold loops) {least : Int} :
    typed .integer [minimum least] loops v = [] ↔ v.IsWhole (least ≤ ·) :=
  whole_eq_nil_iff hloops fun n m hm => by
    rw [List.forall_mem_singleton, minimum_eq_nil_iff hm]

theorem between_eq_nil_iff (hloops : BodiesHold loops) {least greatest : Int} :
    typed .integer [minimum least, maximum greatest] loops v = [] ↔
      v.IsWhole fun n => least ≤ n ∧ n ≤ greatest :=
  whole_eq_nil_iff hloops fun n m hm => by
    rw [List.forall_mem_cons, List.forall_mem_singleton, minimum_eq_nil_iff hm,
      maximum_eq_nil_iff hm]

theorem constants_eq_nil_iff (hloops : BodiesHold loops) :
    constants loops v = [] ↔ v.IsEnumeration loops := by
  have hwhole : ∀ {w : Value}, typed .integer [] loops w = [] ↔ w.IsWhole fun _ => True :=
    whole_eq_nil_iff hloops fun n m hm => by simp
  unfold constants
  rw [typed_eq_nil_iff, holds_object, List.forall_mem_singleton]
  constructor
  · rintro ⟨⟨entries, hv⟩, h⟩
    exact ⟨entries, hv, fun entry he => hwhole.1 ((allProperties_eq_nil_iff hv).1 h entry he)⟩
  · rintro ⟨entries, hv, h⟩
    exact ⟨⟨entries, hv⟩, (allProperties_eq_nil_iff hv).2 fun entry he => hwhole.2 (h entry he)⟩

theorem equals_str_iff {s : Text} : equals (.str s) v = true ↔ v = .str s := by
  cases v with
  | str t =>
    show (s == t) = true ↔ Value.str t = .str s
    rw [beq_iff_eq, Value.str.injEq, eq_comm]
  | _ => exact iff_of_false Bool.false_ne_true nofun

theorem equals_int_iff {k : Int} : equals (.int k) v = true ↔ v.IsWhole (· = k) := by
  cases v with
  | num n =>
    have hequals : equals (.int k) (.num n) = ((Number.int k).same n || .int k == n) := rfl
    have hwhole : (Value.num n).IsWhole (· = k) ↔ n.whole? = some k := by
      simp [Value.IsWhole]
    rw [hequals, hwhole]
    cases n with
    | int n =>
      rw [Number.same_int, Number.whole?_int, Bool.or_eq_true, beq_iff_eq, beq_iff_eq,
        Number.int.injEq, or_self, Option.some.injEq, eq_comm]
    | real x => simp [Number.same, Number.whole?_real_eq_some]
  | _ => exact iff_of_false Bool.false_ne_true (by simp [Value.IsWhole])

theorem constant_str_eq_nil_iff {s : Text} : constant (.str s) loops v = [] ↔ v = .str s := by
  rw [constant_eq_nil_iff, equals_str_iff]

theorem width_eq_nil_iff : width loops v = [] ↔ v.IsWhole (· ∈ wordWidths) := by
  unfold width
  simp only [oneOfConstants_eq_nil_iff, List.mem_map, exists_exists_and_eq_and, equals_int_iff,
    Value.IsWhole]
  constructor
  · rintro ⟨k, hk, n, m, rfl, hm, rfl⟩
    exact ⟨n, m, rfl, hm, hk⟩
  · rintro ⟨n, m, rfl, hm, hk⟩
    exact ⟨m, hk, n, m, rfl, hm, rfl⟩

end Schema

end RegisterLayout
