import RegisterLayout.Proofs.About
import RegisterLayout.Proofs.Messages

/-!
# What explains a violation

The violation that explains another one best is sought by comparing paths.  The steps that lead
down from one value are all texts or all indices, so that they compare, but for the names of the
constants of an enumeration, which may be anything.  What is found leads down in the document, and
its path can be written unless a number in the document is too long.

Principal definitions: `Value.Incomparable`, `Value.IsShort`.
Principal results: `Violation.yields_best`, `Violation.fault?_of_about`, `failsOnly_pathText`.
-/

namespace RegisterLayout

open Value Violation

namespace Value

variable {v w u u' s t : Value} {p q above : List Value} {constants : List (Value × Value)}

/-- An enumeration in a value has two constants whose names have no order. -/
def Incomparable (w : Value) : Prop :=
  ∃ path constants, w.at? (path ++ [.str "enum"]) = some (.map constants) ∧
    ∃ c ∈ constants, ∃ d ∈ constants, compareSteps c.1 d.1 = .error .wrongType

/-- All numbers in a value can be written, and so can the indices of its lists. -/
def IsShort (w : Value) : Prop :=
  w.isWritable = true ∧ ∀ path xs, w.at? path = some (.list xs) →
    ∀ i < xs.length, (Value.int i).isWritable = true

/-! ## Paths that lead down -/

theorem Incomparable.of_at? (hu : w.at? above = some u) (h : u.Incomparable) : w.Incomparable := by
  obtain ⟨path, constants, hconstants, h⟩ := h
  refine ⟨above ++ path, constants, ?_, h⟩
  rw [List.append_assoc, at?_append, hu, Option.bind_some, hconstants]

theorem at?_step (h : v.step? [] s = some u) : v.at? [s] = some u := by
  rw [at?_cons, h]
  rfl

theorem Leads.append (hu : w.at? above = some u) (h : u.Leads p) : w.Leads (above ++ p) := by
  induction above generalizing w with
  | nil =>
    obtain rfl := Option.some.inj hu
    exact h
  | cons s above ih =>
    rw [at?_cons] at hu
    obtain ⟨v, hv, hu⟩ := Option.bind_eq_some_iff.1 hu
    exact .step hv (ih hu)

/-- Where the rest of a path leads after its first step: down from the value there, or it is the
name of a constant. -/
def LeadsOn (u : Value) (p : List Value) : Prop :=
  u.Leads p ∨ ∃ constants c, u = .map constants ∧ c ∈ constants ∧ p = [c.1]

theorem Leads.cons (h : w.Leads (s :: p)) : ∃ u, w.step? [] s = some u ∧ u.LeadsOn p ∧
    (¬u.Leads p → s = .str "enum") := by
  cases h with
  | step hs rest => exact ⟨_, hs, .inl rest, fun hnot => absurd rest hnot⟩
  | constant hconstants hc => exact ⟨_, hconstants, .inr ⟨_, _, rfl, hc, rfl⟩, fun _ => rfl⟩

/-- A path into a mapping begins with one of its keys. -/
theorem LeadsOn.head (h : (map constants).LeadsOn (s :: p)) : ∃ c ∈ constants, s = c.1 := by
  have hkey : ∀ {v}, (map constants).step? [] s = some v → ∃ c ∈ constants, s = c.1 := by
    intro v hv
    obtain ⟨entries, t, hentries, rfl, hlookup⟩ | ⟨_, _, heq, -⟩ := step?_cases hv
    · obtain rfl := map.inj hentries
      exact ⟨_, mem_of_lookup? hlookup, rfl⟩
    · cases heq
  obtain h | ⟨_, c, heq, hc, hpath⟩ := h
  · obtain ⟨v, hv, -⟩ := h.cons
    exact hkey hv
  · obtain rfl := map.inj heq
    exact ⟨c, hc, (List.cons.inj hpath).1⟩

/-! ## Comparison -/

/-- Steps down from one value compare, and those that are the same lead to one value. -/
theorem compareSteps_of_step? (hs : v.step? [] s = some u) (ht : v.step? [] t = some u') :
    ∃ o, compareSteps s t = .ok o ∧ (o = .eq → u = u') := by
  have hok : ∃ o, compareSteps s t = .ok o := by
    obtain ⟨entries, x, rfl, rfl, -⟩ | ⟨xs, i, rfl, rfl, -⟩ := step?_cases hs <;>
      obtain ⟨_, y, heq, rfl, -⟩ | ⟨_, j, heq, rfl, -⟩ := step?_cases ht
    · unfold compareSteps
      split <;> exact ⟨_, rfl⟩
    · cases heq
    · cases heq
    · unfold compareSteps
      split <;> exact ⟨_, rfl⟩
  obtain ⟨o, ho⟩ := hok
  refine ⟨o, ho, ?_⟩
  rintro rfl
  have hsame := same_of_compareSteps ho
  obtain ⟨entries, x, rfl, rfl, hx⟩ | ⟨xs, i, rfl, rfl, hi⟩ := step?_cases hs
  · obtain rfl := str_same_iff.1 hsame
    exact Option.some.inj (hs.symm.trans ht)
  · obtain ⟨_, _, heq, -⟩ | ⟨_, j, -, rfl, -⟩ := step?_cases ht
    · cases heq
    · obtain rfl : i = j := by simpa [same, number?] using hsame
      exact Option.some.inj (hs.symm.trans ht)

/-- Of two paths into a mapping one of which is a single name, the first steps are compared and
nothing else. -/
theorem failsOnly_comparePaths_names (hw : w.at? [.str "enum"] = some (.map constants))
    (hp : (map constants).LeadsOn p) (hq : (map constants).LeadsOn q)
    (hname : p.length ≤ 1 ∨ q.length ≤ 1) :
    FailsOnly (fun e => e = .wrongType ∧ w.Incomparable) (comparePaths p q) := by
  match p, q with
  | [], [] | [], _ :: _ | _ :: _, [] => exact .ok
  | s :: p, t :: q =>
    obtain ⟨c, hc, rfl⟩ := hp.head
    obtain ⟨d, hd, rfl⟩ := hq.head
    have hnames : FailsOnly (fun e => e = .wrongType ∧ w.Incomparable) (compareSteps c.1 d.1) := by
      intro e he
      obtain rfl := failsOnly_compareSteps c.1 d.1 e he
      exact ⟨rfl, [], constants, hw, c, hc, d, hd, he⟩
    have hends : p = [] ∨ q = [] := by simpa using hname
    rw [comparePaths]
    refine hnames.bind fun o _ => ?_
    cases o with
    | eq =>
      rcases hends with rfl | rfl
      · cases q <;> exact .ok
      · cases p <;> exact .ok
    | lt => exact .pure
    | gt => exact .pure

/-- Paths that lead down from one value compare, unless the names of constants do not. -/
theorem failsOnly_comparePaths (hp : w.Leads p) (hq : w.Leads q) :
    FailsOnly (fun e => e = .wrongType ∧ w.Incomparable) (comparePaths p q) := by
  induction p generalizing w q with
  | nil => cases q <;> exact .ok
  | cons s p ih =>
    cases q with
    | nil => exact .ok
    | cons t q =>
      obtain ⟨u, hu, hup, hs⟩ := hp.cons
      obtain ⟨u', hu', huq, ht⟩ := hq.cons
      obtain ⟨o, ho, hsame⟩ := compareSteps_of_step? hu hu'
      rw [comparePaths, ho, ok_bind]
      cases o with
      | lt => exact .pure
      | gt => exact .pure
      | eq =>
        obtain rfl := hsame rfl
        by_cases hboth : u.Leads p ∧ u.Leads q
        · intro e he
          obtain ⟨hwrong, hu⟩ := ih hboth.1 hboth.2 e he
          exact ⟨hwrong, hu.of_at? (at?_step ‹_›)⟩
        · -- One of the paths ends with the name of a constant.
          rcases not_and_or.1 hboth with hnot | hnot
          · obtain ⟨constants, c, rfl, -, rfl⟩ := hup.resolve_left hnot
            exact failsOnly_comparePaths_names (at?_step (hs hnot ▸ hu)) hup huq (.inl le_rfl)
          · obtain ⟨constants, c, rfl, -, rfl⟩ := huq.resolve_left hnot
            exact failsOnly_comparePaths_names (at?_step (ht hnot ▸ hu')) hup huq (.inr le_rfl)

end Value

/-! ## The best explanation -/

namespace Violation

variable {root w u : Value} {above : List Value}

theorem About.leads {x : Violation} (h : About w x) : w.Leads x.path := by
  obtain ⟨leads, -, -, -⟩ := h
  exact leads

mutual

/-- **What explains a violation** leads down in the document.  It is found unless the names of
constants do not compare. -/
theorem yields_best : (x : Violation) → ∀ ⦃above w⦄, root.at? above = some w → About w x →
    Yields (fun e => e = .wrongType ∧ root.Incomparable) (fun found => root.Leads found.1)
      (best x above)
  | mk path complaint ofType below => by
    intro above w hw h
    obtain ⟨leads, -, hu, inner⟩ := h
    rename_i u
    have hbelow : ∀ x ∈ below, About u x ∧ root.at? (above ++ path) = some u := fun x hx =>
      ⟨inner x hx, by rw [at?_append, hw, Option.bind_some, hu (List.ne_nil_of_mem hx)]⟩
    have hcompare : ∀ x ∈ below, ∀ y ∈ below,
        FailsOnly (fun e => e = .wrongType ∧ root.Incomparable) (compare x y) := by
      intro x hx y hy
      have hpaths := failsOnly_comparePaths (inner x hx).leads (inner y hy).leads
      exact failsOnly_compare (hpaths.imp fun e he => ⟨he.1, he.2.of_at? (hbelow x hx).2⟩)
    rw [best]
    refine (yields_choose hcompare fun x hx =>
      yields_best_each below (hbelow x hx).2 inner x hx).bind fun r hr => ?_
    cases r with
    | none => exact .pure (leads.append hw)
    | some found => exact .pure (hr found rfl)

theorem yields_best_each : (xs : List Violation) → ∀ ⦃above w⦄, root.at? above = some w →
    (∀ x ∈ xs, About w x) → ∀ x ∈ xs,
    Yields (fun e => e = .wrongType ∧ root.Incomparable) (fun found => root.Leads found.1)
      (best x above)
  | [] => fun _ _ _ _ => nofun
  | x :: xs => by
    intro above w hw h
    obtain ⟨hx, hxs⟩ := List.forall_mem_cons.1 h
    exact List.forall_mem_cons.2 ⟨yields_best x hw hx, yields_best_each xs hw hxs⟩

end

/-! ## Numbers on the way -/

mutual

/-- A violation has a text if the value that it is about can be written. -/
theorem fault?_of_about : (x : Violation) → ∀ ⦃w⦄, About w x → ∀ e, fault? [] x = some e →
    e = .longNumber ∧ ¬w.isWritable = true
  | mk path complaint ofType below => by
    rintro w ⟨-, fault, hu, inner⟩ e he
    rw [fault?, Option.or_eq_some_iff] at he
    rcases he with he | ⟨-, he⟩
    · obtain ⟨hlong, hwritable⟩ := firstFault?_of_about below inner e he
      refine ⟨hlong, fun hw => hwritable (isWritable_of_at? hw (hu ?_))⟩
      rintro rfl
      cases he
    · exact fault e he

theorem firstFault?_of_about : (xs : List Violation) → ∀ ⦃w⦄, (∀ x ∈ xs, About w x) →
    ∀ e, firstFault? [] xs = some e → e = .longNumber ∧ ¬w.isWritable = true
  | [] => fun _ _ => nofun
  | x :: xs => by
    intro w h e he
    obtain ⟨hx, hxs⟩ := List.forall_mem_cons.1 h
    rw [firstFault?, Option.or_eq_some_iff] at he
    rcases he with he | ⟨-, he⟩
    · exact fault?_of_about x hx e he
    · exact firstFault?_of_about xs hxs e he

end

end Violation

namespace Value

variable {w u s : Value} {p : List Value}

theorem IsShort.of_step? (h : w.IsShort) (hu : w.step? [] s = some u) : u.IsShort := by
  refine ⟨isWritable_of_step? h.1 hu, fun path xs hxs => h.2 (s :: path) xs ?_⟩
  rw [at?_cons, hu, Option.bind_some, hxs]

theorem isWritable_of_leads (h : w.IsShort) (hp : w.Leads p) : ∀ s ∈ p, s.isWritable = true := by
  induction hp with
  | here v => exact List.forall_mem_nil _
  | step hs rest ih =>
    refine List.forall_mem_cons.2 ⟨?_, ih (h.of_step? hs)⟩
    obtain ⟨entries, t, rfl, rfl, -⟩ | ⟨xs, i, rfl, rfl, hi⟩ := step?_cases hs
    · rfl
    · obtain ⟨hlt, -⟩ := List.getElem?_eq_some_iff.1 hi
      exact h.2 [] xs rfl i hlt
  | constant hconstants hc =>
    have hwritable := isWritable_of_step? h.1 hconstants
    exact List.forall_mem_cons.2 ⟨rfl,
      List.forall_mem_singleton.2 (isWritable_map.1 hwritable _ hc).1⟩

end Value

/-- The path to what explains a violation can be written if the numbers in the document are
short. -/
theorem failsOnly_pathText {w : Value} {p : List Value} (hp : w.Leads p) :
    FailsOnly (fun e => e = .longNumber ∧ ¬w.IsShort) (pathText p) := by
  refine (FailsOnly.mapM fun s hs => (failsOnly_longNumber_written s).imp fun e he => ?_).bind
    fun _ _ => .pure
  exact ⟨he.1, fun h => he.2 (isWritable_of_leads h hp s hs)⟩

theorem isWritable_of_pathText {p : List Value} {t : Text} (h : pathText p = .ok t) :
    ∀ s ∈ p, s.isWritable = true := by
  obtain ⟨texts, htexts, -⟩ := bind_eq_ok_iff.1 h
  have hwritten := mapM_eq_ok_forall₂ htexts
  clear htexts h
  induction hwritten with
  | nil => exact List.forall_mem_nil _
  | cons hs _ ih => exact List.forall_mem_cons.2 ⟨isWritable_of_written hs, ih⟩

end RegisterLayout
