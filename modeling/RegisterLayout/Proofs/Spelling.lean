import RegisterLayout.Proofs.Authored
import RegisterLayout.Proofs.NamingRule
import RegisterLayout.Proofs.WellTyped

/-!
# The spelling of names

The schema has one form for names, and it looks at every name of a document, whatever else the
document holds: the fields of a struct are checked with it, and so are the items of a bit field.
The texts among the names of a tree that was read from an accepted document are therefore of this
form, and placing the tree leaves them.  A document that contains itself is no exception, since
what is read off it does not look through marks.

Principal definitions: `Header.Spelled`, `Field.Spelled`.
Principal results: `Field.forall_headers_of_resolve`, `Field.spelled_of_ofText`.
-/

namespace RegisterLayout

open Value

/-! ## Spelled names -/

/-- The texts among the names of a node have the form of names. -/
def Header.Spelled (h : Header) : Prop :=
  ∀ s, h.name = some (.str s) ∨ h.shortName = some (.str s) → (Value.str s).IsName

theorem Header.Spelled.givenText {h : Header} (hs : h.Spelled) (ha : h.NameAllowed) {s : Text}
    (hgiven : h.givenText? = some s) : (Value.str s).IsName := by
  obtain ⟨v, hv, rfl⟩ := Option.map_eq_some_iff.1 hgiven
  obtain ⟨t, rfl, -⟩ := ha.name v hv
  exact hs t (.inl (Option.filter_eq_some_iff.1 hv).1)

theorem Header.Spelled.labelText {h : Header} (hs : h.Spelled) (ha : h.NameAllowed)
    (hnamed : h.IsNamed) : (Value.str h.labelText).IsName := by
  have hlabel := (ha.label hnamed).1
  unfold label? at hlabel
  cases hshort : filled? h.shortName with
  | some short =>
    rw [hshort] at hlabel
    exact hs _ (.inr ((Option.filter_eq_some_iff.1 hshort).1.trans hlabel))
  | none =>
    rw [hshort] at hlabel
    exact hs _ (.inl hlabel)

namespace Field

/-- The headers of a node and of its items. -/
def ownHeaders : Field → List Header
  | bitfield b => b.header :: b.items.map Item.header
  | f => [f.header]

def OwnSpelled (f : Field) : Prop := ∀ h ∈ f.ownHeaders, h.Spelled

/-- A tree in which the names of all nodes and items are spelled. -/
def Spelled (f : Field) : Prop := ∀ g ∈ f.nodes, g.OwnSpelled

theorem ownSpelled_iff {f : Field} : f.OwnSpelled ↔
    f.header.Spelled ∧ ∀ b, f = bitfield b → ∀ i ∈ b.items, i.header.Spelled := by
  cases f with
  | bitfield b => simp [OwnSpelled, ownHeaders, header]
  | _ => simp [OwnSpelled, ownHeaders, header]

theorem spelled_iff {f : Field} : f.Spelled ↔ f.OwnSpelled ∧ ∀ c ∈ f.children, c.Spelled :=
  forall_mem_nodes

/-! ## Placing -/

theorem ownHeaders_authored (f : Field) :
    f.authored.ownHeaders = f.ownHeaders.map Header.authored := by
  cases f with
  | bitfield b =>
    rw [ownHeaders, List.map_cons, List.map_map]
    exact congrArg (List.cons _) List.map_map
  | _ => rfl

theorem authoredAll_eq_map (fs : List Field) : authoredAll fs = fs.map authored := by
  induction fs with
  | nil => rfl
  | cons f fs ih => rw [authoredAll, List.map_cons, ih]

theorem children_authored (f : Field) : f.authored.children = f.children.map authored := by
  cases f with
  | struct h fields | union h fields => exact authoredAll_eq_map fields
  | _ => rfl

section

variable {P : Header → Prop} (hP : ∀ h : Header, P h.authored ↔ P h)

include hP

/-- What headers have as their author wrote them, all headers of a tree have as it was written. -/
theorem forall_headers_authored (f : Field) :
    (∀ g ∈ f.authored.nodes, ∀ h ∈ g.ownHeaders, P h) ↔ ∀ g ∈ f.nodes, ∀ h ∈ g.ownHeaders, P h := by
  induction f using inductionOnChildren with
  | node f ih =>
    rw [forall_mem_nodes, forall_mem_nodes, ownHeaders_authored, List.forall_mem_map,
      children_authored, List.forall_mem_map]
    exact and_congr (forall₂_congr fun h _ => hP h) (forall₂_congr ih)

/-- **Placing a tree leaves its headers as they were written.** -/
theorem forall_headers_of_resolve {raw root : Field} (h : ∀ g ∈ raw.nodes, ∀ h ∈ g.ownHeaders, P h)
    (hroot : raw.resolve = .ok root) : ∀ g ∈ root.nodes, ∀ h ∈ g.ownHeaders, P h := by
  simp only [Field.resolve, check_bind_eq_ok_iff, @bind_eq_ok_iff (Field × Number),
    pure_eq_ok_iff] at hroot
  obtain ⟨-, placed, hplaced, -, rfl⟩ := hroot
  rwa [← forall_headers_authored hP, authored_of_place hplaced, forall_headers_authored hP]

end

theorem Spelled.resolve {raw root : Field} (h : raw.Spelled) (hroot : raw.resolve = .ok root) :
    root.Spelled :=
  forall_headers_of_resolve (fun _ => Iff.rfl) h hroot

end Field

/-! ## Names that the schema has seen -/

variable {loops : Loops Value} {entries : List (Value × Value)} {found : List Violation}

theorem isName_of_silent {s : Text} (h : Schema.name loops (.str s) = []) :
    (Value.str s).IsName := by
  have hform := (Schema.typed_eq_nil_iff.1 h).2 _ List.mem_cons_self
  rw [← Schema.satisfies_isName_iff]
  by_contra hs
  simp [Schema.ofForm, hs] at hform

theorem lookup?_of_valueAt {key : Text} {v : Value} (h : valueAt entries key = some v) :
    lookup? entries key = some v := by
  unfold valueAt at h
  split at h
  · cases h
  · cases h
  · next hsome => exact hsome.trans h

/-- What a schema of some kind is silent about has names of the form of names. -/
theorem spelled_of_kindOf {kind : String} {needed : List String} {own : List (String × Check)}
    (h : Schema.kindOf kind needed own loops (.map entries) = []) :
    (Header.ofEntries entries).Spelled := by
  obtain ⟨_, hopened, -, -, hvalues⟩ := Schema.kindOf_eq_nil_iff.1 h
  obtain rfl := Value.map.inj hopened
  rintro s (hname | hshort)
  · exact isName_of_silent (hvalues ("name", Schema.name) (by simp [Schema.kindProperties,
      Schema.commonProperties]) _ (lookup?_of_valueAt hname))
  · exact isName_of_silent (hvalues ("short_name", Schema.name) (by simp [Schema.kindProperties,
      Schema.commonProperties]) _ (lookup?_of_valueAt hshort))

/-- The value under a key that the schema of a kind needs has passed its own schema. -/
theorem needed_of_kindOf {kind : String} {needed : List String} {own : List (String × Check)}
    (h : Schema.kindOf kind needed own loops (.map entries) = []) {key : String} {check : Check}
    (hneeded : key ∈ needed) (hcheck : (key, check) ∈ Schema.kindProperties kind own) :
    ∃ w, lookup? entries key = some w ∧ check loops w = [] := by
  obtain ⟨_, hopened, hall, -, hvalues⟩ := Schema.kindOf_eq_nil_iff.1 h
  obtain rfl := Value.map.inj hopened
  obtain ⟨w, hw⟩ := Option.isSome_iff_exists.1 (hall key hneeded)
  exact ⟨w, hw, hvalues _ hcheck w hw⟩

/-- A field is accepted by one of the kinds. -/
theorem Schema.silent_of_anyField {v : Value} (h : anyField found loops v = []) :
    ∃ kind ∈ kinds found, kind.2 loops v = [] := by
  have hbranches : [word, bitfield, struct found, blob, union found]
      = (kinds found).map Prod.snd := rfl
  unfold anyField at h
  rw [typed_eq_nil_iff, hbranches, List.forall_mem_cons, List.forall_mem_cons,
    List.forall_mem_singleton, choice_eq_nil_iff] at h
  obtain ⟨-, -, -, check, hcheck, hsilent⟩ := h
  obtain ⟨kind, hkind, rfl⟩ := List.mem_map.1 hcheck
  exact ⟨kind, hkind, hsilent⟩

/-- The schemas of all kinds are made alike. -/
theorem kindOf_of_kinds {kind : FieldKind × Check} (h : kind ∈ Schema.kinds found) :
    ∃ needed own, kind.2 = Schema.kindOf kind.1.name ("type" :: needed) own := by
  simp only [Schema.kinds, List.mem_cons, List.not_mem_nil, or_false] at h
  rcases h with rfl | rfl | rfl | rfl | rfl <;> exact ⟨_, _, rfl⟩

/-! ## Names that are read -/

namespace Field

/-- What is read of a mapping of some kind. -/
theorem ofEntries_of_type {kind : FieldKind} {fields : Except Failure (List Field)} {f : Field}
    (htype : lookup? entries "type" = some (.str kind.name))
    (h : ofEntries entries fields = .ok f) :
    f.header = .ofEntries entries ∧
      (∀ b, f = bitfield b → kind = .bitfield ∧ Item.listOf entries = .ok b.items) ∧
      (f.children = [] ∨ (kind = .struct ∨ kind = .union) ∧ fields = .ok f.children) := by
  rw [ofEntries, require_of_lookup? htype, ok_bind, ofValue?_name] at h
  cases kind with
  | word =>
    simp only [bind_eq_ok_iff, pure_eq_ok_iff] at h
    obtain ⟨bits, -, e, -, rfl⟩ := h
    exact ⟨rfl, by simp, .inl rfl⟩
  | bitfield =>
    simp only [bind_eq_ok_iff, pure_eq_ok_iff] at h
    obtain ⟨bits, -, items, hitems, rfl⟩ := h
    refine ⟨rfl, fun b hb => ⟨rfl, ?_⟩, .inl rfl⟩
    obtain rfl := Field.bitfield.inj hb
    exact hitems
  | blob =>
    simp only [bind_eq_ok_iff, pure_eq_ok_iff] at h
    obtain ⟨bytes, -, rfl⟩ := h
    exact ⟨rfl, by simp, .inl rfl⟩
  | struct =>
    simp only [bind_eq_ok_iff, pure_eq_ok_iff] at h
    obtain ⟨fs, hfs, rfl⟩ := h
    exact ⟨rfl, by simp, .inr ⟨.inl rfl, hfs⟩⟩
  | union =>
    simp only [bind_eq_ok_iff, pure_eq_ok_iff] at h
    obtain ⟨fs, hfs, rfl⟩ := h
    exact ⟨rfl, by simp, .inr ⟨.inr rfl, hfs⟩⟩

/-- The items of a bit field whose list the schema is silent about. -/
theorem spelled_of_listOf {items : List Item} {w : Value}
    (hw : lookup? entries "fields" = some w)
    (hsilent : Schema.typed .array [Schema.items Schema.item] loops w = [])
    (h : Item.listOf entries = .ok items) : ∀ i ∈ items, i.header.Spelled := by
  obtain ⟨xs, hopened, hchecks⟩ := Schema.listed_eq_nil_iff.1 hsilent
  rw [List.forall_mem_singleton, Schema.items_eq_nil_iff hopened] at hchecks
  rw [Item.listOf, require_of_lookup? hw, ok_bind] at h
  cases w with
  | list ys =>
    obtain rfl := Value.list.inj hopened
    intro i hi
    obtain ⟨x, hx, hread⟩ := exists_left_of_forall₂ (mapM_eq_ok_forall₂ h) hi
    cases x with
    | map entries =>
      simp only [Item.ofValue, bind_eq_ok_iff, pure_eq_ok_iff] at hread
      obtain ⟨bits, -, e, -, rfl⟩ := hread
      exact spelled_of_kindOf (hchecks _ hx)
    | _ => cases hread
  | again l => cases h
  | _ => cases hopened

/-- A schema that is silent about a mapping of a kind that lists fields has found nothing in
them. -/
theorem found_of_kinds {kind : FieldKind × Check} (hkind : kind ∈ Schema.kinds found)
    (hlists : kind.1 = .struct ∨ kind.1 = .union) (h : kind.2 loops (.map entries) = []) :
    found = [] := by
  have hlist : ∀ {keywords : List Check} {w : Value}, Schema.withItems found ∈ keywords →
      Schema.typed .array keywords loops w = [] → found = [] := by
    intro keywords w hmem hw
    obtain ⟨xs, hopened, hchecks⟩ := Schema.listed_eq_nil_iff.1 hw
    exact (Schema.withItems_eq_nil_iff hopened).1 (hchecks _ hmem)
  simp only [Schema.kinds, List.mem_cons, List.not_mem_nil, or_false] at hkind
  rcases hkind with rfl | rfl | rfl | rfl | rfl
  · simp at hlists
  · simp at hlists
  · obtain ⟨w, -, hw⟩ := needed_of_kindOf h (List.mem_cons_of_mem _ List.mem_cons_self)
      (List.mem_append_right _ (List.mem_cons_of_mem _ List.mem_cons_self))
    exact hlist List.mem_cons_self hw
  · simp at hlists
  · obtain ⟨w, -, hw⟩ := needed_of_kindOf h
      (List.mem_cons_of_mem _ (List.mem_cons_of_mem _ List.mem_cons_self))
      (List.mem_append_right _ (List.mem_cons_of_mem _ List.mem_cons_self))
    exact hlist (List.mem_cons_of_mem _ List.mem_cons_self) hw

/-- The items of a bit field that the schema accepts are spelled. -/
theorem spelled_of_kinds {kind : FieldKind × Check} (hkind : kind ∈ Schema.kinds found)
    (hbitfield : kind.1 = .bitfield) (h : kind.2 loops (.map entries) = []) {items : List Item}
    (hitems : Item.listOf entries = .ok items) : ∀ i ∈ items, i.header.Spelled := by
  simp only [Schema.kinds, List.mem_cons, List.not_mem_nil, or_false] at hkind
  rcases hkind with rfl | rfl | rfl | rfl | rfl
  · simp at hbitfield
  · obtain ⟨w, hw, hsilent⟩ := needed_of_kindOf h
      (List.mem_cons_of_mem _ (List.mem_cons_of_mem _ List.mem_cons_self))
      (List.mem_append_right _ (List.mem_cons_of_mem _ (List.mem_cons_of_mem _
        List.mem_cons_self)))
    exact spelled_of_listOf hw hsilent hitems
  · simp at hbitfield
  · simp at hbitfield
  · simp at hbitfield

/-- What is read of a value that the schema accepts is spelled, if what it holds is. -/
theorem spelled_of_anyField {fields : Except Failure (List Field)} {f : Field}
    (h : Schema.anyField found loops (.map entries) = [])
    (hf : ofEntries entries fields = .ok f)
    (hfields : found = [] → ∀ fs, fields = .ok fs → ∀ g ∈ fs, g.Spelled) : f.Spelled := by
  obtain ⟨kind, hkind, hsilent⟩ := Schema.silent_of_anyField h
  obtain ⟨needed, own, hcheck⟩ := kindOf_of_kinds hkind
  have hkindOf := hsilent
  rw [hcheck] at hkindOf
  obtain ⟨type, htype, hname⟩ := needed_of_kindOf hkindOf List.mem_cons_self
    (List.mem_append_right _ List.mem_cons_self)
  obtain rfl := Schema.constant_str_eq_nil_iff.1 hname
  obtain ⟨hheader, hitems, hchildren⟩ := ofEntries_of_type htype hf
  refine spelled_iff.2 ⟨ownSpelled_iff.2 ⟨hheader ▸ spelled_of_kindOf hkindOf, ?_⟩, ?_⟩
  · intro b hb
    obtain ⟨hbitfield, hlist⟩ := hitems b hb
    exact spelled_of_kinds hkind hbitfield hsilent hlist
  · rcases hchildren with hnone | ⟨hlists, hsome⟩
    · rw [hnone]
      exact List.forall_mem_nil _
    · exact hfields (found_of_kinds hkind hlists hsilent) _ hsome

variable {inner : Loop → List Violation}

mutual

/-- **What is read of a value that the schema accepts is spelled.** -/
theorem spelled_of_silent :
    (v : Value) → Schema.anyField (Schema.inFields loops inner v) loops v = [] →
      ∀ {f : Field}, ofValue v = .ok f → f.Spelled
  | .map entries, h, _, hf => spelled_of_anyField h hf fun hfound _ hfs =>
      spelled_of_entries entries hfound hfs
  | .null, _, _, hf | .bool _, _, _, hf | .num _, _, _, hf | .str _, _, _, hf
  | .date _, _, _, hf | .moment _ _, _, _, hf | .bytes _, _, _, hf | .list _, _, _, hf
  | .tuple _, _, _, hf | .set _, _, _, hf | .again _, _, _, hf => nomatch hf

theorem spelled_of_entries :
    (entries : List (Value × Value)) → Schema.inEntries loops inner entries = [] →
      ∀ {fs : List Field}, fieldsOf entries = .ok fs → ∀ f ∈ fs, f.Spelled
  | [], _, _, hfs => nomatch hfs
  | (key, value) :: rest, h, fs, hfs => by
    rw [Schema.inEntries] at h
    rw [fieldsOf.eq_def] at hfs
    simp only at hfs
    split at h
    · next hkey =>
      rw [if_pos hkey] at hfs
      cases value with
      | list xs => exact spelled_of_ofValues xs 0 h hfs
      | _ =>
        -- Any other value lists no fields, or it is not read.
        dsimp only at hfs
        split at hfs
        · obtain rfl := Except.ok.inj hfs
          exact List.forall_mem_nil _
        · cases hfs
    · next hkey =>
      rw [if_neg hkey] at hfs
      exact spelled_of_entries rest h hfs

theorem spelled_of_ofValues :
    (xs : List Value) → (index : Nat) → Schema.inItems loops inner index xs = [] →
      ∀ {fs : List Field}, ofValues xs = .ok fs → ∀ f ∈ fs, f.Spelled
  | [], _, _, fs, hfs => by
    obtain rfl := Except.ok.inj hfs
    exact List.forall_mem_nil _
  | x :: xs, index, h, fs, hfs => by
    rw [Schema.inItems, List.append_eq_nil_iff, List.map_eq_nil_iff] at h
    simp only [ofValues, bind_eq_ok_iff, pure_eq_ok_iff] at hfs
    obtain ⟨f, hf, more, hmore, rfl⟩ := hfs
    exact List.forall_mem_cons.2 ⟨spelled_of_silent x h.1 hf,
      spelled_of_ofValues xs (index + 1) h.2 hmore⟩

end

/-- **A tree that was read from an accepted document is spelled**, whatever the document is. -/
theorem spelled_of_validate {document : Looped Value} {text : Option Text} {raw : Field}
    (hvalid : validate document text = .ok ()) (hraw : ofValue document.root = .ok raw) :
    raw.Spelled :=
  spelled_of_silent document.root (validate_eq_ok_iff.1 hvalid) hraw

theorem spelled_of_ofText {text : Text} {raw : Field} (h : ofText text = .ok raw) :
    raw.Spelled := by
  simp only [ofText, bind_eq_ok_iff] at h
  obtain ⟨document, -, _, hvalid, hraw⟩ := h
  exact spelled_of_validate hvalid hraw

end Field

end RegisterLayout
