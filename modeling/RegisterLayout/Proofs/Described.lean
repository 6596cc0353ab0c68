import RegisterLayout.Proofs.Validation

/-!
# Reading what was accepted

A described field can be read: every key that the reading needs is there, and the fields within it
can be read in turn.  The tree has the shape of the description, and the attributes of each node
are the values that stand under their keys, an attribute without a key being absent.  Nothing is
known yet of where a node stands.

Principal definition: `Value.Describes`.
Principal results: `Field.ofValue_of_isField`, `validate_grammar`.
-/

namespace RegisterLayout

open Value

/-- The attributes that every node may have, as they stand under their keys. -/
def Header.written (entries : List (Value × Value)) : Header where
  name := lookup? entries "name"
  shortName := lookup? entries "short_name"
  desc := lookup? entries "desc"
  offset := lookup? entries "offset"

/-- A mapping and the item with the attributes that it gives. -/
inductive Value.DescribesItem : Value → Item → Prop
  | item {entries : List (Value × Value)} {i : Item}
      (header : i.header = .written entries)
      (bits : lookup? entries "bits" = some i.bits)
      (enumeration : lookup? entries "enum" = i.enumeration.map Value.map)
      (only : lookup? entries "only" = i.only)
      (bitRange : i.bitRange = none) : DescribesItem (.map entries) i

/-- A mapping and the field with the kind and the attributes that it gives, the fields within it
being described by the values that it lists, one by one. -/
inductive Value.Describes : Value → Field → Prop
  | word {entries : List (Value × Value)} {w : Word}
      (type : lookup? entries "type" = some (.str "word"))
      (header : w.header = .written entries)
      (bits : lookup? entries "bits" = some w.bits)
      (signed : lookup? entries "signed" = w.signed)
      (typedef : lookup? entries "typedef" = w.typedef)
      (enumeration : lookup? entries "enum" = w.enumeration.map Value.map) :
      Describes (.map entries) (.word w)
  | bitfield {entries : List (Value × Value)} {xs : List Value} {b : BitField}
      (type : lookup? entries "type" = some (.str "bitfield"))
      (header : b.header = .written entries)
      (bits : lookup? entries "bits" = some b.bits)
      (fields : lookup? entries "fields" = some (.list xs))
      (items : List.Forall₂ DescribesItem xs b.items) : Describes (.map entries) (.bitfield b)
  | struct {entries : List (Value × Value)} {xs : List Value} {fs : List Field}
      (type : lookup? entries "type" = some (.str "struct"))
      (fields : lookup? entries "fields" = some (.list xs))
      (each : List.Forall₂ Describes xs fs) :
      Describes (.map entries) (.struct (.written entries) fs)
  | blob {entries : List (Value × Value)} {b : Blob}
      (type : lookup? entries "type" = some (.str "opaque"))
      (header : b.header = .written entries)
      (bytes : lookup? entries "bytes" = some b.bytes)
      (decl : lookup? entries "decl" = b.decl) : Describes (.map entries) (.blob b)
  | union {entries : List (Value × Value)} {xs : List Value} {fs : List Field}
      (type : lookup? entries "type" = some (.str "union"))
      (fields : lookup? entries "fields" = some (.list xs))
      (each : List.Forall₂ Describes xs fs) :
      Describes (.map entries) (.union (.written entries) fs)

variable {entries : List (Value × Value)}

/-! ## Attributes -/

/-- A value that keeps a rule which null does not keep is an attribute. -/
theorem valueAt_eq_lookup? {key : String} {p : Value → Prop} (h : May entries key p)
    (hnull : ¬p .null) : valueAt entries key = lookup? entries key := by
  unfold valueAt
  split
  · next hnone => exact hnone.symm
  · next hsome => exact absurd (h _ hsome) hnull
  · next hsome => exact hsome.symm

theorem ofEntries_eq_written (h : CommonRules entries) :
    Header.ofEntries entries = Header.written entries := by
  have hname : ¬(Value.null).IsName := by
    rintro ⟨_, _, _, _, h | h⟩ <;> cases h
  have htext : ¬(Value.null).IsText := nofun
  have hwhole : ¬(Value.null).IsWhole (0 ≤ ·) := nofun
  unfold Header.ofEntries Header.written
  rw [valueAt_eq_lookup? h.name hname, valueAt_eq_lookup? h.shortName hname,
    valueAt_eq_lookup? h.desc htext, valueAt_eq_lookup? h.offset hwhole]

theorem require_of_must {key : String} {p : Value → Prop} (h : Must entries key p) :
    ∃ w, lookup? entries key = some w ∧ p w ∧ Value.require entries key = .ok w := by
  obtain ⟨w, hw, hp⟩ := h
  exact ⟨w, hw, hp, by simp [Value.require, hw]⟩

theorem require_of_lookup? {key : String} {w : Value} (h : lookup? entries key = some w) :
    Value.require entries key = .ok w := by
  simp [Value.require, h]

theorem enumeration_of_may (h : May entries "enum" (IsEnumeration [])) :
    ∃ e, Enumeration.ofEntries entries = .ok e ∧ lookup? entries "enum" = e.map Value.map := by
  unfold Enumeration.ofEntries
  rw [valueAt_eq_lookup? h (by rintro ⟨_, hnull, -⟩; cases hnull)]
  cases hw : lookup? entries "enum" with
  | none => exact ⟨none, rfl, rfl⟩
  | some w =>
    obtain ⟨es, hes, -⟩ := h w hw
    rw [opened_nil] at hes
    subst hes
    exact ⟨some es, rfl, rfl⟩

/-! ## Items and fields -/

theorem Item.ofValue_of_isItem {v : Value} (h : v.IsItem []) :
    ∃ i, Item.ofValue v = .ok i ∧ v.DescribesItem i := by
  obtain ⟨entries, hv, rules⟩ := h
  rw [opened_nil] at hv
  subst hv
  obtain ⟨bits, hbits, -, hrequire⟩ := require_of_must rules.bits
  obtain ⟨e, he, hconstants⟩ := enumeration_of_may rules.constants
  have honly := valueAt_eq_lookup? rules.only (by rintro (h | h) <;> cases h)
  refine ⟨⟨.written entries, bits, e, lookup? entries "only", none⟩, ?_,
    .item rfl hbits hconstants rfl rfl⟩
  rw [Item.ofValue, ofEntries_eq_written rules.toCommonRules, hrequire, ok_bind, he, ok_bind, honly]
  rfl

namespace Field

theorem ofValues_eq_mapM (xs : List Value) : ofValues xs = xs.mapM ofValue := by
  induction xs with
  | nil => rfl
  | cons x xs ih => rw [ofValues, List.mapM_cons, ih]

theorem fieldsOf_eq {xs : List Value} (h : lookup? entries "fields" = some (.list xs)) :
    fieldsOf entries = ofValues xs := by
  induction entries with
  | nil => cases h
  | cons entry entries ih =>
    obtain ⟨key, value⟩ := entry
    rw [fieldsOf.eq_def]
    simp only
    split
    · next hkey =>
      obtain rfl := same_str_iff.1 hkey
      obtain rfl := Option.some.inj (lookup?_cons_self.symm.trans h)
      rfl
    · next hkey =>
      rw [lookup?_cons_of_ne (mt same_str_iff.2 hkey)] at h
      exact ih h

/-- The fields of a struct or a union are listed, and are read one by one. -/
theorem fieldsOf_of_must {xs : List Value}
    (hfields : Must entries "fields" fun w => w.opened [] = .list xs)
    (h : ∀ x ∈ xs, ∃ f, ofValue x = .ok f ∧ x.Describes f) :
    lookup? entries "fields" = some (.list xs) ∧
      ∃ fs, fieldsOf entries = .ok fs ∧ List.Forall₂ Describes xs fs := by
  obtain ⟨w, hw, hxs⟩ := hfields
  rw [opened_nil] at hxs
  subst hxs
  obtain ⟨fs, hfs, heach⟩ := mapM_of_forall h
  exact ⟨hw, fs, by rw [fieldsOf_eq hw, ofValues_eq_mapM, hfs], heach⟩

theorem ofValue?_name (kind : FieldKind) : FieldKind.ofValue? (.str kind.name) = some kind := by
  cases kind <;> decide

/-- What the grammar calls a field can be read, and the result is what it describes. -/
theorem ofValue_of_isField {v : Value} (h : v.IsField []) :
    ∃ f, Field.ofValue v = .ok f ∧ v.Describes f := by
  induction h with
  | @word v entries hv type rules =>
    rw [opened_nil] at hv
    subst hv
    obtain ⟨bits, hbits, -, hrequire⟩ := require_of_must rules.bits
    obtain ⟨e, he, hconstants⟩ := enumeration_of_may rules.constants
    have hsigned := valueAt_eq_lookup? rules.signed nofun
    have htypedef := valueAt_eq_lookup? rules.typedef nofun
    refine ⟨_, ?_, .word (w := ⟨.written entries, bits, _, _, e⟩) type rfl hbits rfl rfl hconstants⟩
    have hkind : FieldKind.ofValue? (.str "word") = some .word := ofValue?_name .word
    rw [ofValue, ofEntries, require_of_lookup? type, ok_bind]
    simp only [hkind, ofEntries_eq_written rules.toCommonRules, hrequire, ok_bind, he, hsigned,
      htypedef]
    rfl
  | @bitfield v entries hv type rules =>
    rw [opened_nil] at hv
    subst hv
    obtain ⟨bits, hbits, -, hrequire⟩ := require_of_must rules.bits
    obtain ⟨w, hw, ⟨xs, hxs, hitems⟩, hfields⟩ := require_of_must rules.items
    rw [opened_nil] at hxs
    subst hxs
    obtain ⟨is, his, heach⟩ := mapM_of_forall fun x hx => Item.ofValue_of_isItem (hitems x hx)
    refine ⟨_, ?_, .bitfield (b := ⟨.written entries, bits, is⟩) type rfl hbits hw heach⟩
    have hkind : FieldKind.ofValue? (.str "bitfield") = some .bitfield := ofValue?_name .bitfield
    rw [ofValue, ofEntries, require_of_lookup? type, ok_bind]
    simp only [hkind, ofEntries_eq_written rules.toCommonRules, hrequire, ok_bind, Item.listOf,
      hfields, listed?, his]
    rfl
  | @struct v entries xs hv type rules _ ih =>
    rw [opened_nil] at hv
    subst hv
    obtain ⟨hw, fs, hfs, heach⟩ := fieldsOf_of_must rules.fields ih
    refine ⟨_, ?_, .struct type hw heach⟩
    have hkind : FieldKind.ofValue? (.str "struct") = some .struct := ofValue?_name .struct
    rw [ofValue, ofEntries, require_of_lookup? type, ok_bind]
    simp only [hkind, ofEntries_eq_written rules.toCommonRules, hfs, ok_bind]
    rfl
  | @blob v entries hv type rules =>
    rw [opened_nil] at hv
    subst hv
    obtain ⟨bytes, hbytes, -, hrequire⟩ := require_of_must rules.bytes
    have hdecl := valueAt_eq_lookup? rules.decl nofun
    refine ⟨_, ?_, .blob (b := ⟨.written entries, bytes, _⟩) type rfl hbytes rfl⟩
    have hkind : FieldKind.ofValue? (.str "opaque") = some .blob := ofValue?_name .blob
    rw [ofValue, ofEntries, require_of_lookup? type, ok_bind]
    simp only [hkind, ofEntries_eq_written rules.toCommonRules, hrequire, ok_bind, hdecl]
    rfl
  | @union v entries xs hv type rules _ ih =>
    rw [opened_nil] at hv
    subst hv
    obtain ⟨hw, fs, hfs, heach⟩ := fieldsOf_of_must rules.fields ih
    refine ⟨_, ?_, .union type hw heach⟩
    have hkind : FieldKind.ofValue? (.str "union") = some .union := ofValue?_name .union
    rw [ofValue, ofEntries, require_of_lookup? type, ok_bind]
    simp only [hkind, ofEntries_eq_written rules.toCommonRules, hfs, ok_bind]
    rfl

end Field

/-! ## Documents -/

/-- Reading a text leaves no mark that could be replaced. -/
theorem untied_of_parseModel {text : Text} {document : Looped Value}
    (h : parseModel text = .ok document) : document.untied = document := by
  have hread : Value.ofText text = .ok document := by
    unfold parseModel at h
    split at h
    · cases h
    · exact h
  obtain ⟨read, -, hread⟩ := bind_eq_ok_iff.1 hread
  cases read with
  | none =>
    obtain rfl := pure_eq_ok_iff.1 hread
    exact Looped.untied_of_nil .null
  | some nodes =>
    obtain ⟨⟨loops, met⟩, -, hread⟩ := bind_eq_ok_iff.1 hread
    obtain ⟨bodies, -, hread⟩ := bind_eq_ok_iff.1 hread
    obtain ⟨root, -, hread⟩ := bind_eq_ok_iff.1 hread
    obtain rfl := pure_eq_ok_iff.1 hread
    exact Looped.untied_untied _

/-- **Which documents are accepted.**  A document is accepted exactly if it describes a field, and
no value is accepted by two of the kinds that it is checked against.  Every accepted document can
be read: the fields have the shape that the document gives, and the attributes that it writes. -/
theorem validate_grammar (document : Looped Value) (text : Option Text) (h : document.Tied) :
    (validate document text = .ok () ↔ document.root.IsField document.loops) ∧
    (∀ found v, ([Schema.word, Schema.bitfield, Schema.struct found, Schema.blob,
      Schema.union found].filter fun check => (check document.loops v).isEmpty).length ≤ 1) ∧
    (validate document text = .ok () →
      ∃ f, Field.ofValue document.root = .ok f ∧ document.root.Describes f) := by
  have haccepted : validate document text = .ok () ↔ document.root.IsField document.loops :=
    validate_eq_ok_iff_isField h
  refine ⟨haccepted, Schema.length_silent_le_one h.bodies, fun hvalid => ?_⟩
  have hfield := haccepted.1 hvalid
  rw [h.loops_eq_nil hfield] at hfield
  exact Field.ofValue_of_isField hfield

/-- A struct of a word, a union and a bit field, with keys in an order of their own. -/
def nestedDocument : Value := .map [
  (.str "fields", .list [
    .map [(.str "type", .str "word"), (.str "bits", .num (.real (.finite 32))),
      (.str "enum", .map [(.str "on", 1)])],
    .map [(.str "name", .str "u"), (.str "type", .str "union"), (.str "fields", .list [
      .map [(.str "type", .str "opaque"), (.str "bytes", 4), (.str "decl", .str "u8 raw[4]")]])],
    .map [(.str "type", .str "bitfield"), (.str "bits", 8), (.str "fields", .list [
      .map [(.str "bits", 8), (.str "only", .str "read")]])]]),
  (.str "type", .str "struct")]

theorem validate_grammar_nestedDocument :
    (Looped.mk nestedDocument []).Tied ∧ nestedDocument.IsField [] ∧
      ∃ f, Field.ofValue nestedDocument = .ok f ∧ nestedDocument.Describes f := by
  have htied : (Looped.mk nestedDocument []).Tied := .of_root (by decide +kernel)
  obtain ⟨haccepted, -, hread⟩ := validate_grammar ⟨nestedDocument, []⟩ none htied
  have hvalid : validate ⟨nestedDocument, []⟩ none = .ok () :=
    validate_eq_ok_iff.2 (by decide +kernel)
  exact ⟨htied, haccepted.1 hvalid, hread hvalid⟩

end RegisterLayout
