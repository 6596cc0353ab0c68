import Mathlib.Data.List.Induction
import RegisterLayout.Proofs.Tied

/-!
# Values inside a document

Where a path of texts and indices leads in a document: to the value under a text in a mapping, and
to the one at an index in a list, marks being looked through on the way.  In an untied document a
path leads to what it leads to in the document with its marks, unfolded.

Principal definitions: `Looped.at?`, `Value.Unfolds`.
Principal results: `Value.lookup?_putEntries`, `Looped.at?_untied`.
-/

namespace RegisterLayout

namespace Value

/-- One step down into a value: under a text in a mapping, or at an index in a list. -/
def step? (loops : Loops Value) (v step : Value) : Option Value :=
  match v.opened loops, step with
  | .map entries, .str s => lookup? entries s
  | .list xs, .num (.int (.ofNat i)) => xs[i]?
  | _, _ => none

end Value

/-- The value that a path of texts and indices leads to. -/
def Looped.at? (document : Looped Value) (path : List Value) : Option Value :=
  path.foldlM (Value.step? document.loops) document.root

namespace Value

variable {loops inner : Loops Value} {v w step : Value}

/-- A value that holds others. -/
def isCollection : Value → Bool
  | list _ | tuple _ | set _ | map _ => true
  | _ => false

/-! ## Entries put into a mapping -/

theorem str_same_iff {k : Value} {s : Text} : (str s).same k = true ↔ k = .str s := by
  cases k with
  | str t =>
    rw [same_str_iff]
    exact eq_comm
  | _ => exact iff_of_false Bool.false_ne_true nofun

theorem lookup?_append (entries more : List (Value × Value)) (s : Text) :
    lookup? (entries ++ more) s = (lookup? entries s).or (lookup? more s) := by
  rw [lookup?, List.find?_append, Option.map_or]
  rfl

theorem lookup?_eq_none {entries : List (Value × Value)} {s : Text}
    (h : ∀ entry ∈ entries, entry.1 ≠ .str s) : lookup? entries s = none := by
  induction entries with
  | nil => rfl
  | cons entry entries ih =>
    obtain ⟨hentry, hentries⟩ := List.forall_mem_cons.1 h
    rw [lookup?_cons_of_ne hentry, ih hentries]

theorem lookup?_putEntry_self (entries : List (Value × Value)) (s : Text) (value : Value) :
    lookup? (putEntry entries (.str s) value) s = some value := by
  unfold putEntry
  split
  · next hany =>
    induction entries with
    | nil => cases hany
    | cons entry entries ih =>
      obtain ⟨k, w⟩ := entry
      rw [List.map_cons]
      dsimp only
      by_cases hk : k = .str s
      · rw [if_pos (same_str_iff.2 hk), hk, lookup?_cons_self]
      · have hsame : ¬k.same (.str s) = true := mt same_str_iff.1 hk
        rw [if_neg hsame, lookup?_cons_of_ne hk, ih (by simpa [hsame] using hany)]
  · next hany =>
    have hkeys : ∀ entry ∈ entries, entry.1 ≠ .str s := fun entry hentry hkey =>
      hany (List.any_eq_true.2 ⟨entry, hentry, same_str_iff.2 hkey⟩)
    rw [lookup?_append, lookup?_eq_none hkeys, lookup?_cons_self, Option.none_or]

theorem lookup?_putEntry_of_ne (entries : List (Value × Value)) {key : Value} {s : Text}
    (h : key ≠ .str s) (value : Value) :
    lookup? (putEntry entries key value) s = lookup? entries s := by
  unfold putEntry
  split
  · next hany =>
    clear hany
    induction entries with
    | nil => rfl
    | cons entry entries ih =>
      obtain ⟨k, w⟩ := entry
      rw [List.map_cons]
      dsimp only
      by_cases hk : k = .str s
      · have hsame : ¬k.same key = true := hk ▸ mt str_same_iff.1 h
        rw [if_neg hsame, hk, lookup?_cons_self, lookup?_cons_self]
      · have hchanged : (if k.same key then (k, value) else (k, w)).1 ≠ .str s := by
          split <;> exact hk
        rw [lookup?_cons_of_ne hchanged, ih, lookup?_cons_of_ne hk]
  · have hnew : lookup? [(key, value)] s = none := lookup?_eq_none (List.forall_mem_singleton.2 h)
    rw [lookup?_append, hnew, Option.or_none]

/-- Of the pairs put into a mapping the last one with a key counts. -/
theorem lookup?_putEntries (pairs : List (Value × Value)) (s : Text) :
    lookup? (putEntries pairs) s = lookup? pairs.reverse s := by
  induction pairs using List.reverseRecOn with
  | nil => rfl
  | append_singleton pairs pair ih =>
    obtain ⟨key, value⟩ := pair
    rw [putEntries, List.foldl_append, List.reverse_append]
    show lookup? (putEntry (putEntries pairs) key value) s =
      lookup? ((key, value) :: pairs.reverse) s
    by_cases hkey : key = .str s
    · rw [hkey, lookup?_putEntry_self, lookup?_cons_self]
    · rw [lookup?_putEntry_of_ne _ hkey, lookup?_cons_of_ne hkey, ih]

/-! ## Unfolded values -/

/-- A value is another one with some of its marks unfolded. -/
def Unfolds (loops : Loops Value) (w v : Value) : Prop :=
  ∃ inner : Loops Value, (∀ l body, inner.lookup l = some body → loops.lookup l = some body) ∧
    v = w.fill (inner.enter .again fill)

theorem unfolds_self (loops : Loops Value) (v : Value) : v.Unfolds loops v :=
  ⟨[], nofun, (fill_again v).symm⟩

/-- The bodies of marks hold other values, unless a mark is all that there is. -/
def BodiesCollect (loops : Loops Value) : Prop :=
  ∀ l body, loops.lookup l = some body → body.isCollection = true ∨ body = .again l

theorem isCollection_fill (h : v.isCollection = true) (mark : Loop → Value) :
    (v.fill mark).isCollection = true := by
  cases v <;> first | rfl | cases h

/-- A mark that has been entered is not entered again. -/
theorem enter_without_self (l : Loop) : (inner.without l).enter .again fill l = .again l := by
  rw [Loops.enter_eq, Loops.lookup_without_self]

theorem enter_ne_str (hinner : BodiesCollect inner) (l : Loop) (s : Text) :
    inner.enter .again fill l ≠ .str s := by
  rw [Loops.enter_eq]
  split
  · nofun
  · next body hbody =>
    intro h
    rcases hinner l body hbody with hcollection | rfl
    · have hfilled := isCollection_fill hcollection ((inner.without l).enter .again fill)
      rw [h] at hfilled
      cases hfilled
    · rw [fill, enter_without_self] at h
      cases h

theorem fillAll_eq_map (mark : Loop → Value) (xs : List Value) :
    fillAll mark xs = xs.map (fill mark) := by
  induction xs with
  | nil => rfl
  | cons x xs ih => rw [fillAll, ih, List.map_cons]

theorem lookup?_fillEntries {mark : Loop → Value} {s : Text} (hmark : ∀ l, mark l ≠ .str s)
    (entries : List (Value × Value)) :
    lookup? (fillEntries mark entries) s = (lookup? entries s).map (fill mark) := by
  induction entries with
  | nil => rfl
  | cons entry entries ih =>
    obtain ⟨k, w⟩ := entry
    rw [fillEntries]
    by_cases hk : k = .str s
    · subst hk
      have hfilled : (str s).fill mark = .str s := rfl
      rw [hfilled, lookup?_cons_self, lookup?_cons_self, Option.map_some]
    · have hfilled : k.fill mark ≠ .str s := by
        cases k with
        | again l => exact hmark l
        | str t => exact hk
        | _ => nofun
      rw [lookup?_cons_of_ne hfilled, ih, lookup?_cons_of_ne hk]

/-- A step down into a value whose marks are filled, the value being no mark itself. -/
theorem step?_fill (loops : Loops Value) {mark : Loop → Value} (hmark : ∀ l s, mark l ≠ .str s)
    (hw : ∀ l, w ≠ .again l) :
    (w.fill mark).step? [] step = (w.step? loops step).map (fill mark) := by
  cases w with
  | again l => exact absurd rfl (hw l)
  | map entries =>
    cases step with
    | str s => exact lookup?_fillEntries (fun l => hmark l s) entries
    | _ => rfl
  | list xs =>
    have hitem : ∀ i : Nat, (fillAll mark xs)[i]? = xs[i]?.map (fill mark) := fun i => by
      rw [fillAll_eq_map, List.getElem?_map]
    match step with
    | .num (.int (.ofNat i)) => exact hitem i
    | .num (.int (.negSucc _)) | .num (.real _) => rfl
    | .null | .bool _ | .str _ | .date _ | .moment _ _ | .bytes _ | .list _ | .tuple _ | .set _
    | .map _ | .again _ => rfl
  | _ => rfl

theorem bodiesCollect_of_lookup (hloops : BodiesCollect loops)
    (h : ∀ l body, inner.lookup l = some body → loops.lookup l = some body) :
    BodiesCollect inner :=
  fun l body hl => hloops l body (h l body hl)

/-- A step down in a value with marks unfolded leads to what it leads to in the value itself,
unfolded. -/
theorem step?_unfolds {v' : Value} (hloops : BodiesCollect loops) (h : w.Unfolds loops v)
    (hstep : v.step? [] step = some v') :
    ∃ w', w.step? loops step = some w' ∧ w'.Unfolds loops v' := by
  obtain ⟨inner, hinner, rfl⟩ := h
  have hmark : ∀ {rest : Loops Value},
      (∀ l body, rest.lookup l = some body → loops.lookup l = some body) →
      ∀ l s, rest.enter .again fill l ≠ .str s := fun hrest =>
    enter_ne_str (bodiesCollect_of_lookup hloops hrest)
  by_cases hw : ∀ l, w ≠ .again l
  · rw [step?_fill loops (hmark hinner) hw] at hstep
    obtain ⟨w', hw', rfl⟩ := Option.map_eq_some_iff.1 hstep
    exact ⟨w', hw', inner, hinner, rfl⟩
  · obtain ⟨l, rfl⟩ := not_forall_not.1 hw
    -- The mark is filled with its body, in which it is not entered again.
    rw [fill, Loops.enter_eq] at hstep
    cases hl : inner.lookup l with
    | none =>
      rw [hl] at hstep
      cases hstep
    | some body =>
      rw [hl] at hstep
      have hrest : ∀ k other, (inner.without l).lookup k = some other →
          loops.lookup k = some other := by
        intro k other hk
        by_cases hkl : k = l
        · subst hkl
          rw [Loops.lookup_without_self] at hk
          cases hk
        · exact hinner k other (Loops.lookup_without_of_ne _ hkl ▸ hk)
      have hbody : ∀ k, body ≠ .again k := by
        rintro k rfl
        rcases hloops l _ (hinner l _ hl) with hcollection | heq
        · cases hcollection
        · obtain rfl := again.inj heq
          dsimp only at hstep
          rw [fill, enter_without_self] at hstep
          cases hstep
      rw [step?_fill loops (hmark hrest) hbody] at hstep
      obtain ⟨w', hw', rfl⟩ := Option.map_eq_some_iff.1 hstep
      refine ⟨w', ?_, _, hrest, rfl⟩
      have hopened : body.opened loops = body := by
        cases body with
        | again k => exact absurd rfl (hbody k)
        | _ => rfl
      have hmarked : (again l).opened loops = body := by simp [opened, hinner l body hl]
      unfold step? at hw' ⊢
      rw [hopened] at hw'
      rw [hmarked]
      exact hw'

end Value

namespace Looped

variable {document : Looped Value} {path : List Value} {v : Value}

theorem unfolds_of_steps {loops : Loops Value} (hloops : Value.BodiesCollect loops)
    {path : List Value} {v w v' : Value} (h : w.Unfolds loops v)
    (hv : path.foldlM (Value.step? []) v = some v') :
    ∃ w', path.foldlM (Value.step? loops) w = some w' ∧ w'.Unfolds loops v' := by
  induction path generalizing v w with
  | nil =>
    obtain rfl := Option.some.inj hv
    exact ⟨w, rfl, h⟩
  | cons step path ih =>
    rw [List.foldlM_cons] at hv ⊢
    obtain ⟨u, hu, hv⟩ := Option.bind_eq_some_iff.1 hv
    obtain ⟨x, hx, hxu⟩ := Value.step?_unfolds hloops h hu
    obtain ⟨w', hw', hunfolds⟩ := ih hxu hv
    exact ⟨w', Option.bind_eq_some_iff.2 ⟨x, hx, hw'⟩, hunfolds⟩

/-- **A path in an untied document** leads to what it leads to in the document with its marks,
unfolded. -/
theorem at?_untied (hloops : Value.BodiesCollect document.loops)
    (h : document.untied.at? path = some v) :
    ∃ w, document.at? path = some w ∧ w.Unfolds document.loops v := by
  simp only [untied] at h
  split at h
  · exact unfolds_of_steps hloops ⟨document.loops, fun _ _ hl => hl, rfl⟩ h
  · exact ⟨v, h, Value.unfolds_self _ v⟩

end Looped

end RegisterLayout
