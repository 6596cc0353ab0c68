import RegisterLayout.Proofs.Branches
import RegisterLayout.Proofs.Descent

/-!
# What violations are about

Every violation that the schema finds leads down in the document: through texts and indices, or to
a constant of an enumeration.  What it complains about stands where it leads, so it can be written
if the document can, and the violations of its branches lead on from there.

Principal definitions: `Value.at?`, `Value.Leads`, `Violation.About`, `Schema.Sound`.
Principal result: `Schema.sound_anyField`.
-/

namespace RegisterLayout

open Value Violation

/-! ## Paths -/

/-- The value that a path of texts and indices leads to in a value without marks. -/
def Value.at? (v : Value) (path : List Value) : Option Value := Looped.at? ⟨v, []⟩ path

/-- A path leads down in a value: to a value in lists and mappings, or to a constant of an
enumeration, whose name need not be a text. -/
inductive Value.Leads : Value → List Value → Prop
  | here (v : Value) : Leads v []
  | step {v u step : Value} {path : List Value} (hstep : v.step? [] step = some u)
      (rest : Leads u path) : Leads v (step :: path)
  | constant {v : Value} {constants : List (Value × Value)} {c : Value × Value}
      (hconstants : v.step? [] (.str "enum") = some (.map constants)) (hc : c ∈ constants) :
      Leads v [.str "enum", c.1]

namespace Value

variable {xs : List Value} {entries : List (Value × Value)} {v u w step : Value}
  {path above : List Value}

theorem at?_cons : v.at? (step :: path) = (v.step? [] step).bind (at? · path) := List.foldlM_cons ..

theorem at?_append : v.at? (above ++ path) = (v.at? above).bind (at? · path) :=
  List.foldlM_append ..

theorem step?_item {i : Nat} (h : xs[i]? = some v) : (list xs).step? [] (.int i) = some v := h

theorem step?_key {s : Text} (h : lookup? entries s = some v) :
    (map entries).step? [] (.str s) = some v := h

/-- A step leads under a text in a mapping, or to an index in a list. -/
theorem step?_cases (h : v.step? [] step = some u) :
    (∃ entries s, v = map entries ∧ step = .str s ∧ lookup? entries s = some u) ∨
      ∃ (xs : List Value) (i : Nat), v = list xs ∧ step = .int i ∧ xs[i]? = some u := by
  unfold step? at h
  split at h
  · next entries s hv =>
    rw [opened_nil] at hv
    exact .inl ⟨entries, s, hv, rfl, h⟩
  · next xs i hv =>
    rw [opened_nil] at hv
    exact .inr ⟨xs, i, hv, rfl, h⟩
  · cases h

theorem isWritable_list : (list xs).isWritable = true ↔ ∀ x ∈ xs, x.isWritable = true := by
  show (true && allOf _ xs) = true ↔ _
  rw [Bool.true_and, allOf_eq_true_iff]
  rfl

theorem isWritable_map : (map entries).isWritable = true ↔
    ∀ entry ∈ entries, entry.1.isWritable = true ∧ entry.2.isWritable = true := by
  show (true && allOfEntries _ entries) = true ↔ _
  rw [Bool.true_and, allOfEntries_eq_true_iff]
  rfl

/-- What stands in a value that can be written can be written. -/
theorem isWritable_of_step? (hv : v.isWritable = true) (h : v.step? [] step = some u) :
    u.isWritable = true := by
  obtain ⟨entries, s, rfl, -, hu⟩ | ⟨xs, i, rfl, -, hu⟩ := step?_cases h
  · exact (isWritable_map.1 hv _ (mem_of_lookup? hu)).2
  · exact isWritable_list.1 hv _ (List.mem_of_getElem? hu)

theorem isWritable_of_at? (hv : v.isWritable = true) (h : v.at? path = some u) :
    u.isWritable = true := by
  induction path generalizing v with
  | nil =>
    obtain rfl := Option.some.inj h
    exact hv
  | cons step path ih =>
    rw [at?_cons] at h
    obtain ⟨x, hx, h⟩ := Option.bind_eq_some_iff.1 h
    exact ih (isWritable_of_step? hv hx) h

end Value

/-! ## Violations -/

/-- A violation that leads down in a value, with branches that lead on from there.  Its complaint
lacks a text only if a number in the value does. -/
inductive Violation.About : Value → Violation → Prop
  | mk {w u : Value} {path : List Value} {complaint : Complaint} {ofType : Bool}
      {below : List Violation} (leads : w.Leads path)
      (fault : ∀ e, complaint.fault? [] = some e → e = .longNumber ∧ ¬w.isWritable = true)
      (hu : below ≠ [] → w.at? path = some u) (inner : ∀ y ∈ below, About u y) :
      About w (.mk path complaint ofType below)

namespace Violation

variable {w v s : Value} {y : Violation} {c : Complaint}

theorem fault?_of_values (hne : c ≠ .tooDeep)
    (h : w.isWritable = true → ∀ v ∈ c.values, v.isWritable = true) {e : Failure}
    (he : c.fault? [] = some e) : e = .longNumber ∧ ¬w.isWritable = true := by
  unfold Complaint.fault? at he
  split at he
  · exact absurd rfl hne
  · split at he
    · cases he
    · next hvalues =>
      exact ⟨(Option.some.inj he).symm, fun hw => hvalues (List.all_eq_true.2 (h hw))⟩

/-- A violation by a value itself. -/
theorem about_here (hne : c ≠ .tooDeep)
    (h : w.isWritable = true → ∀ v ∈ c.values, v.isWritable = true) : About w (here c) :=
  .mk (.here w) (fun _ => fault?_of_values hne h) (fun _ => rfl) nofun

theorem about_self (hne : c ≠ .tooDeep) (hc : c.values = [w]) : About w (here c) :=
  about_here hne fun hw => by rwa [hc, List.forall_mem_singleton]

theorem About.tagged (h : About w y) (b : Bool) : About w (Schema.tagged b y) := by
  obtain ⟨leads, fault, hu, inner⟩ := h
  unfold Schema.tagged
  split
  · next heq =>
    obtain ⟨rfl, rfl, rfl, rfl⟩ := Violation.mk.inj heq
    exact .mk leads fault hu inner
  · exact .mk leads fault hu inner

/-- What a value behind a step violates is about the value before it too. -/
theorem About.under (h : About v y) (hv : w.step? [] s = some v) : About w (y.under s) := by
  obtain ⟨leads, fault, hu, inner⟩ := h
  refine .mk (.step hv leads) (fun e he => ⟨(fault e he).1, fun hw => (fault e he).2 ?_⟩)
    (fun hne => ?_) inner
  · exact isWritable_of_step? hw hv
  · rw [at?_cons, hv, Option.bind_some, hu hne]

end Violation

/-! ## Keywords -/

namespace Schema

variable {w v : Value} {y : Violation} {xs : List Value} {entries : List (Value × Value)}
  {check : Check} {found : List Violation}

/-- All that a check finds in a value is about that value. -/
def Sound (w : Value) (check : Check) : Prop := ∀ y ∈ check [] w, About w y

/-- All that a check finds in the value under a key is about the mapping. -/
def SoundUnder (entries : List (Value × Value)) (key : String) (check : Check) : Prop :=
  ∀ v, lookup? entries (key : String) = some v →
    ∀ y ∈ check [] v, About (.map entries) (y.under (.str key))

theorem soundUnder {key : String} (h : ∀ v, Sound v check) : SoundUnder entries key check :=
  fun v hv y hy => (h v y hy).under (step?_key hv)

theorem sound_hasType (t : ValueKind) : Sound w (hasType t) := by
  intro y hy
  unfold hasType at hy
  split at hy
  · cases hy
  · rw [List.mem_singleton.1 hy]
    exact about_self nofun rfl

theorem sound_oneOfConstants (constants : List Value) : Sound w (oneOfConstants constants) := by
  intro y hy
  unfold oneOfConstants at hy
  split at hy
  · cases hy
  · rw [List.mem_singleton.1 hy]
    exact about_self nofun rfl

theorem sound_constant (s : Text) : Sound w (constant (.str s)) := by
  intro y hy
  unfold constant at hy
  split at hy
  · cases hy
  · rw [List.mem_singleton.1 hy]
    exact about_here nofun fun _ => List.forall_mem_singleton.2 rfl

theorem sound_minimum (least : Int) : Sound w (minimum least) := by
  intro y hy
  unfold minimum at hy
  split at hy
  · split at hy
    · rw [List.mem_singleton.1 hy]
      exact about_self nofun rfl
    · cases hy
  · cases hy

theorem sound_maximum (greatest : Int) : Sound w (maximum greatest) := by
  intro y hy
  unfold maximum at hy
  split at hy
  · split at hy
    · rw [List.mem_singleton.1 hy]
      exact about_self nofun rfl
    · cases hy
  · cases hy

theorem sound_ofForm (form : List Char → Bool) (pattern : String) :
    Sound w (ofForm form pattern) := by
  intro y hy
  unfold ofForm at hy
  split at hy
  · split at hy
    · cases hy
    · rw [List.mem_singleton.1 hy]
      exact about_self nofun rfl
  · cases hy

theorem sound_nonEmpty : Sound w nonEmpty := by
  intro y hy
  unfold nonEmpty at hy
  split at hy
  · rw [List.mem_singleton.1 hy]
    exact about_self nofun rfl
  · cases hy

theorem sound_required (keys : List String) : Sound w (required keys) := by
  intro y hy
  unfold required at hy
  split at hy
  · obtain ⟨key, -, rfl⟩ := List.mem_map.1 hy
    exact about_here (by simp) fun _ => List.forall_mem_nil _
  · cases hy

theorem sound_closed (keys : List String) : Sound w (closed keys) := by
  intro y hy
  unfold closed at hy
  rw [opened_nil] at hy
  split at hy
  · next entries =>
    dsimp only at hy
    split at hy
    · cases hy
    · rw [List.mem_singleton.1 hy]
      refine about_here (by simp) fun hw key hkey => ?_
      have hmem := (Text.sortBy_perm _ _).subset hkey
      obtain ⟨entry, hentry, rfl⟩ := List.mem_map.1 (List.mem_filter.1 hmem).1
      exact (isWritable_map.1 hw entry hentry).1
  · cases hy

theorem sound_typed {t : ValueKind} {keywords : List Check}
    (h : ∀ check ∈ keywords, Sound w check) : Sound w (typed t keywords) := by
  intro y hy
  obtain ⟨z, rfl, hz | ⟨check, hcheck, hz⟩⟩ := exists_of_mem_typed hy
  · exact (sound_hasType t z hz).tagged _
  · exact (h check hcheck z hz).tagged _

theorem sound_properties {checks : List (String × Check)}
    (h : ∀ entries, w = .map entries → ∀ c ∈ checks, SoundUnder entries c.1 c.2) :
    Sound w (properties checks) := by
  intro y hy
  unfold properties at hy
  rw [opened_nil] at hy
  split at hy
  · next entries =>
    obtain ⟨c, hc, hy⟩ := List.mem_flatMap.1 hy
    dsimp only at hy
    split at hy
    · next v hv =>
      obtain ⟨z, hz, rfl⟩ := List.mem_map.1 hy
      exact h entries rfl c hc v hv z hz
    · cases hy
  · cases hy

theorem sound_items (h : ∀ x, Sound x check) : Sound w (items check) := by
  intro y hy
  obtain ⟨xs, rfl, i, x, hx, z, hz, rfl⟩ := exists_of_mem_items hy
  exact (h x z hz).under (step?_item hx)

theorem sound_choice {branches : List Check} (h : ∀ check ∈ branches, Sound w check) :
    Sound w (choice branches) := by
  intro y hy
  simp only [choice] at hy
  split at hy
  · cases hy
  · rw [List.mem_singleton.1 hy]
    have hvalues : w.isWritable = true → ∀ v ∈ (Complaint.noBranch w).values, v.isWritable = true :=
      fun hw => List.forall_mem_singleton.2 hw
    have hne : Complaint.noBranch w ≠ .tooDeep := by simp
    refine .mk (.here w) (fun e => fault?_of_values hne hvalues) (fun _ => rfl) fun z hz => ?_
    obtain ⟨found, hfound, hz⟩ := List.mem_flatten.1 hz
    obtain ⟨check, hcheck, rfl⟩ := List.mem_map.1 hfound
    exact h check hcheck z hz

/-- What is found in an enumeration is about the mapping that holds it. -/
theorem soundUnder_constants : SoundUnder entries "enum" constants := by
  intro v hv y hy
  have henum : (Value.map entries).step? [] (.str "enum") = some v := step?_key hv
  obtain ⟨z, rfl, hz | ⟨check, hcheck, hz⟩⟩ := exists_of_mem_typed hy
  · exact ((sound_hasType .object z hz).tagged _).under henum
  · obtain rfl := List.mem_singleton.1 hcheck
    obtain ⟨cs, rfl, c, hc, x, hx, rfl⟩ := allProperties_of_mem hz
    rw [tagged_under]
    obtain ⟨hpath, hbelow⟩ := flat_integer c.2 x hx
    obtain ⟨leads, fault, hu, inner⟩ := sound_typed (List.forall_mem_nil _) x hx
    obtain rfl : _ = [] := hpath
    obtain rfl : _ = [] := hbelow
    refine .mk (.constant henum hc) (fun e he => ⟨(fault e he).1, fun hw => (fault e he).2 ?_⟩)
      (fun hne => absurd rfl hne) inner
    exact (isWritable_map.1 (isWritable_of_step? hw henum) c hc).2

/-! ## Kinds of fields -/

theorem sound_name : Sound v name :=
  sound_typed (List.forall_mem_singleton.2 (sound_ofForm _ _))

theorem sound_text : Sound v text := sound_typed (List.forall_mem_nil _)

theorem sound_offset : Sound v offset :=
  sound_typed (List.forall_mem_singleton.2 (sound_minimum 0))

/-- What a kind finds is about the value, if that is so of the keys of its own. -/
theorem sound_kindOf {kind : String} {needed : List String} {own : List (String × Check)}
    (h : ∀ entries, w = .map entries → ∀ c ∈ own, SoundUnder entries c.1 c.2) :
    Sound w (kindOf kind needed own) := by
  have hall : ∀ entries, w = .map entries →
      ∀ c ∈ kindProperties kind own, SoundUnder entries c.1 c.2 := by
    intro entries hw
    refine List.forall_mem_append.2 ⟨?_, List.forall_mem_cons.2 ⟨?_, h entries hw⟩⟩
    · simp only [commonProperties, List.forall_mem_cons]
      exact ⟨soundUnder fun _ => sound_name, soundUnder fun _ => sound_name,
        soundUnder fun _ => sound_text, soundUnder fun _ => sound_offset, List.forall_mem_nil _⟩
    · exact soundUnder fun _ => sound_constant _
  refine sound_typed ?_
  simp only [List.forall_mem_cons]
  exact ⟨sound_required _, sound_closed _, sound_properties hall, List.forall_mem_nil _⟩

theorem sound_item : Sound w item := by
  refine sound_kindOf fun entries _ => ?_
  simp only [List.forall_mem_cons]
  refine ⟨soundUnder fun _ => sound_typed ?_, soundUnder_constants,
    soundUnder fun _ => sound_oneOfConstants _, List.forall_mem_nil _⟩
  simp only [List.forall_mem_cons]
  exact ⟨sound_minimum 1, sound_maximum 64, List.forall_mem_nil _⟩

theorem sound_listRules (kind : FieldKind)
    (hfound : ∀ xs, w = .list xs → ∀ y ∈ found, About (.list xs) y) :
    Sound w (typed .array (listRules found kind)) := by
  have hitems : Sound w (withItems found) := by
    intro y hy
    unfold withItems at hy
    rw [opened_nil] at hy
    split at hy
    · next xs => exact hfound xs rfl y hy
    · cases hy
  refine sound_typed ?_
  cases kind with
  | bitfield => exact List.forall_mem_singleton.2 (sound_items fun _ => sound_item)
  | union => exact List.forall_mem_cons.2 ⟨sound_nonEmpty, List.forall_mem_singleton.2 hitems⟩
  | _ => exact List.forall_mem_singleton.2 hitems

/-- What a kind finds is about the value, if that is so of what is found in its fields. -/
theorem sound_checkOf (kind : FieldKind)
    (hfound : ∀ entries xs, w = .map entries → lookup? entries "fields" = some (.list xs) →
      ∀ y ∈ found, About (.list xs) y) :
    Sound w (checkOf found kind) := by
  refine sound_kindOf fun entries hw => ?_
  have hwidth : SoundUnder entries "bits" width := soundUnder fun _ => sound_oneOfConstants _
  have hfields : SoundUnder entries "fields" (typed .array (listRules found kind)) := by
    intro v hv y hy
    refine (sound_listRules kind ?_ y hy).under (step?_key hv)
    rintro xs rfl
    exact hfound entries xs hw hv
  cases kind with
  | word =>
    simp only [owns, List.forall_mem_cons]
    exact ⟨hwidth, soundUnder fun _ => sound_typed (List.forall_mem_nil _),
      soundUnder fun _ => sound_text, soundUnder_constants, List.forall_mem_nil _⟩
  | bitfield =>
    simp only [owns, List.forall_mem_cons]
    exact ⟨hwidth, hfields, List.forall_mem_nil _⟩
  | blob =>
    simp only [owns, List.forall_mem_cons]
    exact ⟨soundUnder fun _ => sound_typed (List.forall_mem_singleton.2 (sound_minimum 1)),
      soundUnder fun _ => sound_text, List.forall_mem_nil _⟩
  | struct => exact List.forall_mem_singleton.2 hfields
  | union => exact List.forall_mem_singleton.2 hfields

/-- What is found in a field is about it, if that is so of the fields that it lists. -/
theorem sound_of_listed {inner : Loop → List Violation}
    (h : ∀ entries xs, w = .map entries → lookup? entries "fields" = some (.list xs) →
      ∀ x ∈ xs, Sound x (anyField (inFields [] inner x))) :
    Sound w (anyField (inFields [] inner w)) := by
  have hfound : ∀ entries xs, w = .map entries → lookup? entries "fields" = some (.list xs) →
      ∀ y ∈ inFields [] inner w, About (.list xs) y := by
    rintro entries xs rfl hlist y hy
    rw [inFields, inEntries_eq hlist, inFields, inItems_eq_numbered, mem_numbered] at hy
    obtain ⟨i, x, hx, z, hz, rfl⟩ := hy
    rw [Nat.zero_add]
    exact (h entries xs rfl hlist x (List.mem_of_getElem? hx) z hz).under (step?_item hx)
  have hkind : ∀ entries, w = .map entries → ∀ c ∈ fieldProperties, SoundUnder entries c.1 c.2 :=
    fun _ _ => List.forall_mem_singleton.2 (soundUnder fun _ => sound_oneOfConstants _)
  have hbranches : ∀ check ∈ FieldKind.all.map (checkOf (inFields [] inner w)), Sound w check :=
    List.forall_mem_map.2 fun kind _ => sound_checkOf kind hfound
  rw [anyField_eq]
  refine sound_typed ?_
  simp only [List.forall_mem_cons]
  exact ⟨sound_required _, sound_properties hkind, sound_choice hbranches, List.forall_mem_nil _⟩

mutual

theorem sound_fields {inner : Loop → List Violation} :
    (v : Value) → Sound v (anyField (inFields [] inner v)) ∧
      ∀ xs, v = .list xs → ∀ x ∈ xs, Sound x (anyField (inFields [] inner x))
  | .list xs => ⟨sound_of_listed nofun, fun _ hxs => Value.list.inj hxs ▸ sound_each xs⟩
  | .map entries => ⟨sound_of_listed fun _ xs hentries hlist =>
      sound_listed entries _ (Value.map.inj hentries ▸ hlist) xs rfl, nofun⟩
  | .null | .bool _ | .num _ | .str _ | .date _ | .moment _ _ | .bytes _ | .tuple _ | .set _
  | .again _ => ⟨sound_of_listed nofun, nofun⟩
termination_by structural v => v

theorem sound_listed {inner : Loop → List Violation} :
    (entries : List (Value × Value)) → ∀ v, lookup? entries "fields" = some v →
      ∀ xs, v = .list xs → ∀ x ∈ xs, Sound x (anyField (inFields [] inner x))
  | [] => nofun
  | (key, value) :: rest => by
    intro v hv
    by_cases hkey : key = .str "fields"
    · subst hkey
      obtain rfl := Option.some.inj (lookup?_cons_self.symm.trans hv)
      exact (sound_fields value).2
    · rw [lookup?_cons_of_ne hkey] at hv
      exact sound_listed rest v hv
termination_by structural entries => entries

theorem sound_each {inner : Loop → List Violation} :
    (xs : List Value) → ∀ x ∈ xs, Sound x (anyField (inFields [] inner x))
  | [] => nofun
  | x :: xs => List.forall_mem_cons.2 ⟨(sound_fields x).1, sound_each xs⟩
termination_by structural xs => xs

end

/-- **What violations are about.**  All that the schema finds in a document is about its value. -/
theorem sound_anyField {inner : Loop → List Violation} (v : Value) :
    Sound v (anyField (inFields [] inner v)) := (sound_fields v).1

end Schema

end RegisterLayout
