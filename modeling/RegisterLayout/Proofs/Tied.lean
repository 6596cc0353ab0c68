import RegisterLayout.Proofs.Grounded

/-!
# Documents that have been read

A collection of a document may contain itself.  The marks in a description of a field are all
grounded, so a document that describes a field has none: reading a document leaves marks only
where looking through them never ends.

Principal definitions: `AllGrounded`, `Looped.Tied`.
Principal results: `AllGrounded.of_isField`, `Looped.Tied.loops_eq_nil`.
-/

namespace RegisterLayout

open Value

/-! ## Descriptions of fields are grounded -/

section

variable {loops : Loops Value} {v w : Value} {entries : List (Value × Value)}

/-- All marks in a value are grounded. -/
def AllGrounded (loops : Loops Value) (v : Value) : Prop := ∀ l ∈ v.marks, Grounded loops l

theorem AllGrounded.of_isScalar (hv : v.isScalar = true) : AllGrounded loops v := by
  intro l hl
  rw [isScalar_marks hv] at hl
  cases hl

theorem AllGrounded.of_isName (hv : v.IsName) : AllGrounded loops v := by
  obtain ⟨_, _, _, _, rfl | rfl⟩ := hv <;> exact .of_isScalar rfl

theorem AllGrounded.of_isText (hv : v.IsText) : AllGrounded loops v := by
  obtain ⟨s, rfl⟩ := hv
  exact .of_isScalar rfl

theorem AllGrounded.of_isWhole {p : Int → Prop} (hv : v.IsWhole p) : AllGrounded loops v := by
  obtain ⟨n, m, rfl, -⟩ := hv
  exact .of_isScalar rfl

theorem AllGrounded.of_isFlag (hv : v.IsFlag) : AllGrounded loops v := by
  obtain ⟨b, rfl⟩ := hv
  exact .of_isScalar rfl

theorem AllGrounded.of_opened (h : AllGrounded loops (v.opened loops)) : AllGrounded loops v :=
  grounded_of_opened h

theorem AllGrounded.of_entries (hkeys : keysApart entries = true)
    (hvalues : ∀ entry ∈ entries, AllGrounded loops entry.2) :
    AllGrounded loops (.map entries) := by
  intro l hl
  obtain ⟨entry, hentry, hkey | hvalue⟩ := mem_marksAmong.1 (marks.eq_def _ ▸ hl)
  · have hfree := List.all_eq_true.1 (Bool.and_eq_true_iff.1 hkeys).1 entry hentry
    rw [isLoopFree_iff.1 hfree] at hkey
    cases hkey
  · exact hvalues entry hentry l hvalue

theorem AllGrounded.of_list {xs : List Value} (hw : w.opened loops = .list xs)
    (hxs : ∀ x ∈ xs, AllGrounded loops x) : AllGrounded loops w := by
  refine .of_opened ?_
  rw [hw]
  intro l hl
  obtain ⟨x, hx, hlx⟩ := mem_marksOf.1 (marks.eq_def _ ▸ hl)
  exact hxs x hx l hlx

variable (hbodies : ∀ entry ∈ loops, entry.2.WellKeyed)

include hbodies

theorem WellKeyed.opened (hv : v.WellKeyed) : (v.opened loops).WellKeyed := by
  rcases Schema.opened_eq_or loops v with h | ⟨l, body, rfl, hbody, h⟩
  · rwa [h]
  · rw [h]
    exact hbodies _ hbody

theorem AllGrounded.of_isEnumeration (hv : v.WellKeyed) (h : v.IsEnumeration loops) :
    AllGrounded loops v := by
  obtain ⟨entries, hopened, hwhole⟩ := h
  have hkeyed := WellKeyed.opened hbodies hv
  rw [hopened, wellKeyed_map_iff] at hkeyed
  refine .of_opened ?_
  rw [hopened]
  exact .of_entries hkeyed.1 fun entry hentry => .of_isWhole (hwhole entry hentry)

/-- A mapping with keys that are known has grounded marks if the values under those keys have. -/
theorem AllGrounded.of_rules {own : List String} (hv : v.WellKeyed)
    (hopened : v.opened loops = .map entries) (hamong : KeysAmong own entries)
    (hcommon : CommonRules entries) (htype : May entries "type" (AllGrounded loops))
    (hown : ∀ key ∈ own, May entries key fun w => w.WellKeyed → AllGrounded loops w) :
    AllGrounded loops v := by
  have hkeyed := WellKeyed.opened hbodies hv
  rw [hopened] at hkeyed
  have hkeys := (wellKeyed_map_iff.1 hkeyed).1
  refine .of_opened ?_
  rw [hopened]
  refine .of_entries hkeys fun entry hentry => ?_
  obtain ⟨key, hkey, heq⟩ := hamong entry hentry
  have hlookup : lookup? entries (key : String) = some entry.2 :=
    lookup?_of_mem hkeys (heq ▸ hentry)
  simp only [List.mem_append, List.mem_cons, List.not_mem_nil, or_false] at hkey
  rcases hkey with (rfl | rfl | rfl | rfl | rfl) | hkey
  · exact .of_isName (hcommon.name _ hlookup)
  · exact .of_isName (hcommon.shortName _ hlookup)
  · exact .of_isText (hcommon.desc _ hlookup)
  · exact .of_isWhole (hcommon.offset _ hlookup)
  · exact htype _ hlookup
  · exact hown key hkey _ hlookup (hkeyed.of_lookup? hlookup)

theorem AllGrounded.of_isItem (hv : v.WellKeyed) (h : v.IsItem loops) : AllGrounded loops v := by
  obtain ⟨entries, hopened, rules⟩ := h
  refine .of_rules hbodies hv hopened rules.keys rules.toCommonRules
    (fun w hw => rules.type w hw ▸ .of_isScalar rfl) ?_
  simp only [List.forall_mem_cons, List.not_mem_nil, false_imp_iff, implies_true, and_true]
  refine ⟨?_, ?_, ?_⟩
  · obtain ⟨u, hu, hwhole⟩ := rules.bits
    exact may_of_eq hu fun _ => .of_isWhole hwhole
  · exact fun w hw hkeyed => .of_isEnumeration hbodies hkeyed (rules.constants w hw)
  · intro w hw _
    rcases rules.only w hw with rfl | rfl <;> exact .of_isScalar rfl

/-- The marks in a description of a field are grounded. -/
theorem AllGrounded.of_isField (hv : v.WellKeyed) (h : v.IsField loops) : AllGrounded loops v := by
  have listed : ∀ {w : Value} {xs : List Value}, w.opened loops = .list xs → w.WellKeyed →
      (∀ x ∈ xs, x.WellKeyed → AllGrounded loops x) → AllGrounded loops w := by
    intro w xs hw hkeyed hxs
    have hall := WellKeyed.opened hbodies hkeyed
    rw [hw, wellKeyed_list_iff] at hall
    exact .of_list hw fun x hx => hxs x hx (hall x hx)
  induction h with
  | word hopened type rules =>
    refine .of_rules hbodies hv hopened rules.keys rules.toCommonRules
      (may_of_eq type (.of_isScalar rfl)) ?_
    simp only [List.forall_mem_cons, List.not_mem_nil, false_imp_iff, implies_true, and_true]
    refine ⟨?_, ?_, ?_, ?_⟩
    · obtain ⟨u, hu, hwhole⟩ := rules.bits
      exact may_of_eq hu fun _ => .of_isWhole hwhole
    · exact fun w hw _ => .of_isFlag (rules.signed w hw)
    · exact fun w hw _ => .of_isText (rules.typedef w hw)
    · exact fun w hw hkeyed => .of_isEnumeration hbodies hkeyed (rules.constants w hw)
  | bitfield hopened type rules =>
    refine .of_rules hbodies hv hopened rules.keys rules.toCommonRules
      (may_of_eq type (.of_isScalar rfl)) ?_
    simp only [List.forall_mem_cons, List.not_mem_nil, false_imp_iff, implies_true, and_true]
    refine ⟨?_, ?_⟩
    · obtain ⟨u, hu, hwhole⟩ := rules.bits
      exact may_of_eq hu fun _ => .of_isWhole hwhole
    · obtain ⟨u, hu, xs, hxs, hitems⟩ := rules.items
      exact may_of_eq hu fun hkeyed =>
        listed hxs hkeyed fun x hx hkeyed => .of_isItem hbodies hkeyed (hitems x hx)
  | struct hopened type rules _ ih
  | union hopened type rules _ ih =>
    refine .of_rules hbodies hv hopened rules.keys rules.toCommonRules
      (may_of_eq type (.of_isScalar rfl)) ?_
    obtain ⟨u, hu, hxs⟩ := rules.fields
    rw [List.forall_mem_singleton]
    exact may_of_eq hu fun hkeyed => listed hxs hkeyed fun x hx hkeyed => ih x hx hkeyed
  | blob hopened type rules =>
    refine .of_rules hbodies hv hopened rules.keys rules.toCommonRules
      (may_of_eq type (.of_isScalar rfl)) ?_
    simp only [List.forall_mem_cons, List.not_mem_nil, false_imp_iff, implies_true, and_true]
    refine ⟨?_, ?_⟩
    · obtain ⟨u, hu, hwhole⟩ := rules.bytes
      exact may_of_eq hu fun _ => .of_isWhole hwhole
    · exact fun w hw _ => .of_isText (rules.decl w hw)

end

/-! ## Tied documents -/

/-- A document as it is when it has been read: a mark stands for a collection, keys are apart, and
there are marks only if some collection does contain itself. -/
structure Looped.Tied (document : Looped Value) : Prop where
  bodies : Schema.BodiesHold document.loops
  rootKeyed : document.root.WellKeyed
  bodiesKeyed : ∀ entry ∈ document.loops, entry.2.WellKeyed
  untied : document.untied = document

theorem Looped.untied_of_nil (v : Value) : (Looped.mk v []).untied = ⟨v, []⟩ := by
  have hfill : v.fill (Loops.enter .again Value.fill []) = v := fill_again v
  simp [Looped.untied, hfill]

/-- What has been untied stays as it is. -/
theorem Looped.untied_untied (document : Looped Value) :
    document.untied.untied = document.untied := by
  by_cases hfree : (document.root.fill (document.loops.enter .again Value.fill)).isLoopFree = true
  · have huntied : document.untied = ⟨document.root.fill (document.loops.enter .again Value.fill),
        []⟩ := by
      rw [Looped.untied, if_pos hfree]
    rw [huntied, Looped.untied_of_nil]
  · have huntied : document.untied = document := by
      rw [Looped.untied, if_neg hfree]
    rw [huntied, huntied]

/-- A document without marks is tied if its keys are apart. -/
theorem Looped.Tied.of_root {v : Value} (hv : v.WellKeyed) : (Looped.mk v []).Tied where
  bodies := nofun
  rootKeyed := hv
  bodiesKeyed := nofun
  untied := Looped.untied_of_nil v

/-- A description of a field does not contain itself. -/
theorem Looped.Tied.loops_eq_nil {document : Looped Value} (h : document.Tied)
    (hfield : document.root.IsField document.loops) : document.loops = [] := by
  have hgrounded := AllGrounded.of_isField h.bodiesKeyed h.rootKeyed hfield
  have hfree : (document.root.fill (document.loops.enter .again Value.fill)).isLoopFree = true := by
    rw [isLoopFree_iff, List.eq_nil_iff_forall_not_mem]
    intro j hj
    obtain ⟨k, hk, hjk⟩ := (mem_marks_fill document.root).1 hj
    rw [(hgrounded k hk).marks_enter fun _ _ => rfl] at hjk
    cases hjk
  have huntied := h.untied
  rw [Looped.untied, if_pos hfree] at huntied
  rw [← huntied]

end RegisterLayout
