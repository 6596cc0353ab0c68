import Mathlib.Data.List.Perm.Basic
import RegisterLayout.Proofs.Outcome
import RegisterLayout.Schema.Violation

/-!
# The most relevant violation

What explains a choice is the most relevant violation of its branches, unless a second one is as
relevant.  The order of relevance is no order of all violations: where two paths have steps of
different types it fails, and the undefined number is neither before nor behind another.  It is
therefore enough, and all that can be used, that some violations stand before all the others: the
most relevant one is then among those.

Principal results: `Violation.chosen_cases`, `Violation.chosen_single`, `Violation.chosen_tied`,
`Violation.chosen_among`, `Violation.chosen_apart`, `Violation.yields_choose`.
-/

namespace RegisterLayout

/-! ## Texts -/

theorem Text.compare_swap (s t : Text) : Text.compare t s = (Text.compare s t).swap := by
  induction s generalizing t with
  | nil => cases t <;> rfl
  | cons a s ih =>
    cases t with
    | nil => rfl
    | cons b t =>
      rw [Text.compare, Text.compare, Ordering.swap_then, ih t, ← Nat.compare_swap]

namespace Violation

variable {x y : Violation}

/-! ## Order of relevance -/

theorem candidates_eq_map (xs : List Violation) : candidates xs = xs.map fun x => (x, best x) := by
  induction xs with
  | nil => rfl
  | cons x xs ih => rw [candidates, ih, List.map_cons]

/-- One violation stands before another, and the order says so from both sides. -/
def Before (x y : Violation) : Prop := compare x y = .ok .lt ∧ compare y x = .ok .gt

theorem before_of_deeper (h : y.path.length < x.path.length) : Before x y := by
  have hlt : Ord.compare y.path.length x.path.length = .lt := Nat.compare_eq_lt.2 h
  have hgt : Ord.compare x.path.length y.path.length = .gt := Nat.compare_eq_gt.2 h
  exact ⟨by simp [compare, hlt, pure, Except.pure], by simp [compare, hgt, pure, Except.pure]⟩

/-- Of two equally deep violations the one on the earlier path stands before the other. -/
theorem before_of_path (hlength : x.path.length = y.path.length)
    (hlt : comparePaths x.path y.path = .ok .lt) (hgt : comparePaths y.path x.path = .ok .gt) :
    Before x y := by
  constructor
  · simp [compare, hlength, hlt, bind, Except.bind, pure, Except.pure]
  · simp [compare, hlength, hgt, bind, Except.bind, pure, Except.pure]

/-- At one place a choice stands before what is none. -/
theorem before_of_isChoice (hlength : x.path.length = y.path.length)
    (heq : comparePaths x.path y.path = .ok .eq) (heq' : comparePaths y.path x.path = .ok .eq)
    (hx : x.isChoice = true) (hy : y.isChoice = false) : Before x y := by
  have hlt : Ord.compare (!x.isChoice) (!y.isChoice) = .lt := by rw [hx, hy]; rfl
  have hgt : Ord.compare (!y.isChoice) (!x.isChoice) = .gt := by rw [hx, hy]; rfl
  constructor
  · simp [compare, hlength, heq, hlt, bind, Except.bind, pure, Except.pure]
  · simp [compare, hlength, heq', hgt, bind, Except.bind, pure, Except.pure]

theorem compare_eq_of_path (hlength : x.path.length = y.path.length)
    (heq : comparePaths x.path y.path = .ok .eq) (hchoice : x.isChoice = y.isChoice)
    (htype : x.ofType = y.ofType) : compare x y = .ok .eq := by
  cases hx : y.isChoice <;> cases ht : y.ofType <;>
    simp [compare, hlength, heq, hchoice, htype, hx, ht, bind, Except.bind, pure, Except.pure]

/-- Equally relevant violations have the same path. -/
theorem comparePaths_of_compare_eq (h : compare x y = .ok .eq) :
    comparePaths x.path y.path = .ok .eq := by
  simp only [compare] at h
  split at h
  · next hne => exact absurd (Except.ok.inj h) hne
  · cases hpaths : comparePaths x.path y.path with
    | error e => simp [hpaths, bind, Except.bind] at h
    | ok o =>
      cases o with
      | eq => rfl
      | lt => simp [hpaths, bind, Except.bind, pure, Except.pure] at h
      | gt => simp [hpaths, bind, Except.bind, pure, Except.pure] at h

/-! ## Paths -/

theorem comparePaths_cons_of_same {a b : Value} (h : a.same b = true) (p q : List Value) :
    comparePaths (a :: p) (b :: q) = comparePaths p q := by
  simp [comparePaths, compareSteps, h, bind, Except.bind]

theorem compareSteps_of_comparePaths {a b : Value} (h : comparePaths [a] [b] = .ok .eq) :
    compareSteps a b = .ok .eq := by
  rw [comparePaths] at h
  obtain ⟨o, ho, h⟩ := bind_eq_ok_iff.1 h
  cases o with
  | eq => exact ho
  | lt => cases h
  | gt => cases h

/-- Steps that two paths begin with do not matter. -/
theorem comparePaths_append {q : List Value} (h : ∀ s ∈ q, s.same s = true) (p p' : List Value) :
    comparePaths (q ++ p) (q ++ p') = comparePaths p p' := by
  induction q with
  | nil => rfl
  | cons s q ih =>
    obtain ⟨hs, hq⟩ := List.forall_mem_cons.1 h
    rw [List.cons_append, List.cons_append, comparePaths_cons_of_same hs, ih hq]

theorem comparePaths_int_lt {i j : Int} (h : i < j) (p q : List Value) :
    comparePaths (.int i :: p) (.int j :: q) = .ok .lt ∧
      comparePaths (.int j :: q) (.int i :: p) = .ok .gt := by
  have hne : i ≠ j := by omega
  have hij : (Value.int i).same (.int j) = false := by
    simp [Value.same, Value.number?, hne]
  have hji : (Value.int j).same (.int i) = false := by
    simp [Value.same, Value.number?, hne.symm]
  have hnot : ¬j < i := by omega
  constructor
  · simp [comparePaths, compareSteps, hij, h, bind, Except.bind, pure, Except.pure]
  · simp [comparePaths, compareSteps, hji, hnot, bind, Except.bind, pure, Except.pure]

theorem comparePaths_str_lt {s t : Text} (h : Text.compare s t = .lt) (p q : List Value) :
    comparePaths (.str s :: p) (.str t :: q) = .ok .lt ∧
      comparePaths (.str t :: q) (.str s :: p) = .ok .gt := by
  have hts : Text.compare t s = .gt := by rw [Text.compare_swap, h]; rfl
  have hne : s ≠ t := by
    rintro rfl
    rw [h] at hts
    cases hts
  have hst : (Value.str s).same (.str t) = false := by simpa [Value.same] using hne
  have hts' : (Value.str t).same (.str s) = false := by simpa [Value.same] using hne.symm
  constructor
  · simp [comparePaths, compareSteps, hst, h, Value.number?, bind, Except.bind, pure, Except.pure]
  · simp [comparePaths, compareSteps, hts', hts, Value.number?, bind, Except.bind, pure,
      Except.pure]

/-! ## The two most relevant candidates -/

/-- Some candidates stand before all the others. -/
def Leading (leads : Candidate → Bool) (cs : List Candidate) : Prop :=
  ∀ c ∈ cs, ∀ d ∈ cs, leads c = true → leads d = false → Before c.1 d.1

theorem Leading.of_subset {leads : Candidate → Bool} {cs ds : List Candidate}
    (h : Leading leads cs) (hsubset : ds ⊆ cs) : Leading leads ds :=
  fun c hc d hd => h c (hsubset hc) d (hsubset hd)

/-- What does not stand behind a leading candidate is leading itself. -/
theorem Leading.of_compare {leads : Candidate → Bool} {cs : List Candidate} {c d : Candidate}
    {o : Ordering} (h : Leading leads cs) (hc : c ∈ cs) (hd : d ∈ cs)
    (hcompare : compare c.1 d.1 = .ok o) (ho : o ≠ .gt) (hleads : leads d = true) :
    leads c = true := by
  by_contra hc'
  have hgt := (h d hd c hc hleads (by simpa using hc')).2
  rw [hcompare] at hgt
  exact ho (Except.ok.inj hgt)

/-- What a leading candidate does not stand before is leading too. -/
theorem Leading.of_compare_right {leads : Candidate → Bool} {cs : List Candidate}
    {c d : Candidate} {o : Ordering} (h : Leading leads cs) (hc : c ∈ cs) (hd : d ∈ cs)
    (hcompare : compare c.1 d.1 = .ok o) (ho : o ≠ .lt) (hleads : leads c = true) :
    leads d = true := by
  by_contra hd'
  have hlt := (h c hc d hd hleads (by simpa using hd')).1
  rw [hcompare] at hlt
  exact ho (Except.ok.inj hlt)

/-- The two candidates in front, and the others. -/
structure InFront (leads : Candidate → Bool) (cs : List Candidate) (r : Candidate × Candidate)
    (others : List Candidate) : Prop where
  perm : (r.1 :: r.2 :: others).Perm cs
  first : leads r.2 = true → leads r.1 = true
  others : leads r.2 = false → ∀ c ∈ others, leads c = false

/-- One more candidate that is behind: if it leads, so does the second in front. -/
theorem InFront.cons {leads : Candidate → Bool} {cs : List Candidate}
    {r : Candidate × Candidate} {others : List Candidate} (h : InFront leads cs r others)
    {c : Candidate} (hc : leads c = true → leads r.2 = true) :
    InFront leads (c :: cs) r (c :: others) where
  perm := (@List.perm_middle _ c [r.1, r.2] others).trans (h.perm.cons c)
  first := h.first
  others hr d hd := by
    rcases List.mem_cons.1 hd with rfl | hd
    · cases hlead : leads d with
      | false => rfl
      | true => rw [hc hlead] at hr; cases hr
    · exact h.others hr d hd

theorem InFront.of_perm {leads : Candidate → Bool} {cs ds : List Candidate}
    {r : Candidate × Candidate} {others : List Candidate} (h : InFront leads cs r others)
    (hperm : cs.Perm ds) : InFront leads ds r others :=
  { h with perm := h.perm.trans hperm }

/-- The search for the two candidates in front keeps every leading one in front, as long as the
second does not lead where the first does not. -/
theorem twoBest_inFront {leads : Candidate → Bool} {first second : Candidate}
    {rest : List Candidate} {r : Candidate × Candidate}
    (hleading : Leading leads (first :: second :: rest))
    (hfirst : leads second = true → leads first = true)
    (h : twoBest first second rest = .ok r) :
    (leads second = true → leads r.2 = true) ∧
      ∃ others, InFront leads (first :: second :: rest) r others := by
  induction rest generalizing first second with
  | nil =>
    obtain rfl := Except.ok.inj h
    exact ⟨id, [], .refl _, hfirst, fun _ => nofun⟩
  | cons next rest ih =>
    have hmem₁ : first ∈ first :: second :: next :: rest := by simp
    have hmem₂ : second ∈ first :: second :: next :: rest := by simp
    have hmem₃ : next ∈ first :: second :: next :: rest := by simp
    rw [twoBest] at h
    obtain ⟨o, hsecond, h⟩ := bind_eq_ok_iff.1 h
    split at h
    · next ho =>
      have hnext : leads second = true → leads next = true :=
        hleading.of_compare hmem₃ hmem₂ hsecond (by simp [ho])
      obtain ⟨o', hcompare, h⟩ := bind_eq_ok_iff.1 h
      split at h
      · next ho' =>
        obtain ⟨hkept, others, hfront⟩ := ih (hleading.of_subset (by intro c; simp; tauto))
          (hleading.of_compare hmem₃ hmem₁ hcompare (by simp [ho'])) h
        refine ⟨fun hs => hkept (hfirst hs), second :: others,
          (hfront.cons fun hs => hkept (hfirst hs)).of_perm ?_⟩
        exact @List.perm_middle _ first [second, next] rest
      · next ho' =>
        obtain ⟨hkept, others, hfront⟩ := ih (hleading.of_subset (by intro c; simp; tauto))
          (hleading.of_compare_right hmem₃ hmem₁ hcompare ho') h
        refine ⟨fun hs => hkept (hnext hs), second :: others,
          (hfront.cons fun hs => hkept (hnext hs)).of_perm ?_⟩
        exact .swap first second (next :: rest)
    · next ho =>
      obtain ⟨hkept, others, hfront⟩ := ih (hleading.of_subset (by intro c; simp; tauto)) hfirst h
      refine ⟨hkept, next :: others, (hfront.cons fun hn => hkept ?_).of_perm ?_⟩
      · exact hleading.of_compare_right hmem₃ hmem₂ hsecond ho hn
      · exact (@List.perm_middle _ next [first, second] rest).symm

/-- What comes of candidates some of which lead: the only leading one is explained, or one of two
leading ones that are not equally relevant, or nothing because they are. -/
def Outcome (leads : Candidate → Bool) (cs : List Candidate) (above : List Value)
    (r : Option (List Value × Complaint)) : Prop :=
  ∃ c others, (c :: others).Perm cs ∧ leads c = true ∧
    ((∀ d ∈ others, leads d = false) ∧ (∃ x, c.2 above = .ok x ∧ r = some x) ∨
      ∃ d ∈ others, leads d = true ∧ ∃ o, compare c.1 d.1 = .ok o ∧
        if o = .eq then r = none else ∃ x, c.2 above = .ok x ∧ r = some x)

theorem Outcome.of_perm {leads : Candidate → Bool} {cs ds : List Candidate} {above : List Value}
    {r : Option (List Value × Complaint)} (h : Outcome leads cs above r) (hperm : cs.Perm ds) :
    Outcome leads ds above r := by
  obtain ⟨c, others, hc, hrest⟩ := h
  exact ⟨c, others, hc.trans hperm, hrest⟩

/-- The decision between the two candidates in front. -/
theorem outcome_of_twoBest {leads : Candidate → Bool} {first second : Candidate}
    {rest : List Candidate} {above : List Value} {r : Option (List Value × Complaint)}
    (hleading : Leading leads (first :: second :: rest))
    (hfirst : leads second = true → leads first = true)
    (hsome : ∃ c ∈ first :: second :: rest, leads c = true)
    (h : (do
      let (first, second) ← twoBest first second rest
      if (← compare first.1 second.1) = Ordering.eq then return none
      return some (← first.2 above)) = Except.ok r) :
    Outcome leads (first :: second :: rest) above r := by
  obtain ⟨⟨c, d⟩, hbest, h⟩ := bind_eq_ok_iff.1 h
  obtain ⟨o, hcompare, h⟩ := bind_eq_ok_iff.1 h
  obtain ⟨-, others, hfront⟩ := twoBest_inFront hleading hfirst hbest
  have hleads : leads c = true := by
    obtain ⟨e, he, hlead⟩ := hsome
    by_contra hc
    have hd : leads d = false := by
      cases hd : leads d with
      | false => rfl
      | true => exact absurd (hfront.first hd) hc
    rcases List.mem_cons.1 (hfront.perm.mem_iff.2 he) with rfl | he
    · exact hc hlead
    · rcases List.mem_cons.1 he with rfl | he
      · rw [hd] at hlead; cases hlead
      · rw [hfront.others hd e he] at hlead; cases hlead
  have hr : if o = .eq then r = none else ∃ x, c.2 above = .ok x ∧ r = some x := by
    split at h
    · next ho =>
      rw [if_pos ho]
      exact pure_eq_ok_iff.1 h
    · next ho =>
      rw [if_neg ho]
      obtain ⟨x, hx, hr⟩ := bind_eq_ok_iff.1 h
      exact ⟨x, hx, pure_eq_ok_iff.1 hr⟩
  refine ⟨c, d :: others, hfront.perm, hleads, ?_⟩
  cases hd : leads d with
  | true => exact .inr ⟨d, by simp, hd, o, hcompare, hr⟩
  | false =>
    have hbefore := hleading c (hfront.perm.subset (by simp)) d (hfront.perm.subset (by simp))
      hleads hd
    have ho : o ≠ .eq := by
      rintro rfl
      rw [hbefore.1] at hcompare
      cases hcompare
    rw [if_neg ho] at hr
    exact .inl ⟨List.forall_mem_cons.2 ⟨hd, hfront.others hd⟩, hr⟩

theorem outcome_of_choose {leads : Candidate → Bool} {cs : List Candidate} {above : List Value}
    {r : Option (List Value × Complaint)} (hleading : Leading leads cs)
    (hsome : ∃ c ∈ cs, leads c = true) (h : choose above cs = .ok r) :
    Outcome leads cs above r := by
  match cs with
  | [] => simp at hsome
  | [only] =>
    rw [choose] at h
    obtain ⟨x, hx, hr⟩ := bind_eq_ok_iff.1 h
    exact ⟨only, [], .refl _, by simpa using hsome,
      .inl ⟨fun _ => nofun, x, hx, pure_eq_ok_iff.1 hr⟩⟩
  | a :: b :: rest =>
    have hmema : a ∈ a :: b :: rest := by simp
    have hmemb : b ∈ a :: b :: rest := by simp
    have hswap : (b :: a :: rest).Perm (a :: b :: rest) := .swap a b rest
    rw [choose] at h
    obtain ⟨o, hab, h⟩ := bind_eq_ok_iff.1 h
    by_cases ho : o = Ordering.lt
    · rw [if_pos ho] at h
      have hleads := hleading.of_compare hmemb hmema hab (by simp [ho])
      obtain ⟨c, hc, hlead⟩ := hsome
      exact (outcome_of_twoBest (hleading.of_subset hswap.subset) hleads
        ⟨c, hswap.mem_iff.2 hc, hlead⟩ h).of_perm hswap
    · rw [if_neg ho] at h
      exact outcome_of_twoBest hleading (hleading.of_compare_right hmemb hmema hab ho) hsome h

/-! ## What the search can fail with -/

section

variable {fails : Failure → Prop} {cs : List Candidate}

theorem yields_twoBest (hcompare : ∀ c ∈ cs, ∀ d ∈ cs, FailsOnly fails (compare c.1 d.1))
    {first second : Candidate} {rest : List Candidate} (h : first :: second :: rest ⊆ cs) :
    Yields fails (fun r => r.1 ∈ cs ∧ r.2 ∈ cs) (twoBest first second rest) := by
  induction rest generalizing first second with
  | nil => exact .pure ⟨h (by simp), h (by simp)⟩
  | cons next rest ih =>
    have hfirst : first ∈ cs := h (by simp)
    have hsecond : second ∈ cs := h (by simp)
    have hnext : next ∈ cs := h (by simp)
    have hsubset : ∀ {a b : Candidate}, a ∈ cs → b ∈ cs → a :: b :: rest ⊆ cs := by
      intro a b ha hb
      refine List.cons_subset.2 ⟨ha, List.cons_subset.2 ⟨hb, fun c hc => h ?_⟩⟩
      simp [hc]
    rw [twoBest]
    refine (hcompare _ hnext _ hsecond).yields.bind fun o _ => ?_
    split
    · refine (hcompare _ hnext _ hfirst).yields.bind fun o' _ => ?_
      split
      · exact ih (hsubset hnext hfirst)
      · exact ih (hsubset hfirst hnext)
    · exact ih (hsubset hfirst hsecond)

/-- What is chosen is what one of the violations comes to, and the choice fails only where a
comparison or that violation does. -/
theorem yields_choose {xs : List Violation} {above : List Value}
    {post : List Value × Complaint → Prop}
    (hcompare : ∀ x ∈ xs, ∀ y ∈ xs, FailsOnly fails (compare x y))
    (h : ∀ x ∈ xs, Yields fails post (best x above)) :
    Yields fails (fun r => ∀ found, r = some found → post found)
      (choose above (candidates xs)) := by
  have hcompared : ∀ c ∈ candidates xs, ∀ d ∈ candidates xs,
      FailsOnly fails (compare c.1 d.1) := by
    rw [candidates_eq_map]
    exact List.forall_mem_map.2 fun x hx => List.forall_mem_map.2 fun y hy => hcompare x hx y hy
  have hexplained : ∀ c ∈ candidates xs, Yields fails post (c.2 above) := by
    rw [candidates_eq_map]
    exact List.forall_mem_map.2 h
  match hcs : candidates xs with
  | [] => exact .pure nofun
  | [only] =>
    exact (hexplained only (by simp [hcs])).bind fun found hfound => .pure fun _ heq =>
      Option.some.inj heq ▸ hfound
  | a :: b :: rest =>
    rw [hcs] at hcompared hexplained
    have hrest : ∀ {first second : Candidate}, first :: second :: rest ⊆ a :: b :: rest →
        Yields fails (fun r => ∀ found, r = some found → post found) (do
          let (first, second) ← twoBest first second rest
          if (← compare first.1 second.1) = .eq then return none
          return some (← first.2 above)) := by
      intro first second hsubset
      refine (yields_twoBest hcompared hsubset).bind fun r hr => ?_
      refine (hcompared _ hr.1 _ hr.2).yields.bind fun o _ => ?_
      split
      · exact .pure nofun
      · exact (hexplained _ hr.1).bind fun found hfound => .pure fun _ heq =>
          Option.some.inj heq ▸ hfound
    rw [choose]
    refine (hcompared b (by simp) a (by simp)).yields.bind fun o _ => ?_
    by_cases ho : o = Ordering.lt
    · rw [if_pos ho]
      exact hrest (List.Perm.swap a b rest).subset
    · rw [if_neg ho]
      exact hrest (List.Subset.refl _)

end

/-! ## What explains a list of violations -/

section

variable {leads : Violation → Bool} {xs : List Violation} {above : List Value}
  {r : Option (List Value × Complaint)}
  (hbefore : ∀ x ∈ xs, ∀ y ∈ xs, leads x = true → leads y = false → Before x y)
  (hsome : ∃ x ∈ xs, leads x = true) (h : choose above (candidates xs) = .ok r)

include hbefore hsome h

/-- The outcome for the violations themselves. -/
theorem chosen_cases :
    ∃ x others, (x :: others).Perm xs ∧ leads x = true ∧
      ((∀ y ∈ others, leads y = false) ∧ (∃ found, best x above = .ok found ∧ r = some found) ∨
        ∃ y ∈ others, leads y = true ∧ ∃ o, compare x y = .ok o ∧
          if o = .eq then r = none else ∃ found, best x above = .ok found ∧ r = some found) := by
  rw [candidates_eq_map] at h
  have hleading : Leading (fun c => leads c.1) (xs.map fun x => (x, best x)) := by
    intro c hc d hd
    obtain ⟨x, hx, rfl⟩ := List.mem_map.1 hc
    obtain ⟨y, hy, rfl⟩ := List.mem_map.1 hd
    exact hbefore x hx y hy
  obtain ⟨z, hz, hlead⟩ := hsome
  obtain ⟨c, others, hperm, hleads, hrest⟩ := outcome_of_choose hleading
    ⟨_, List.mem_map_of_mem hz, hlead⟩ h
  have hfst : (c.1 :: others.map Prod.fst).Perm xs := by
    have hmap := hperm.map Prod.fst
    have hid : (xs.map fun x => (x, best x)).map Prod.fst = xs := by
      rw [List.map_map]
      exact List.map_id xs
    rwa [hid, List.map_cons] at hmap
  obtain ⟨x, -, rfl⟩ := List.mem_map.1 (hperm.subset (List.mem_cons_self))
  refine ⟨x, others.map Prod.fst, hfst, hleads, ?_⟩
  rcases hrest with ⟨hothers, hfound⟩ | ⟨d, hd, hlead, o, hcompare, hr⟩
  · refine .inl ⟨fun y hy => ?_, hfound⟩
    obtain ⟨e, he, rfl⟩ := List.mem_map.1 hy
    exact hothers e he
  · exact .inr ⟨d.1, List.mem_map_of_mem hd, hlead, o, hcompare, hr⟩

/-- A single violation before all others is explained. -/
theorem chosen_single (hone : xs.countP leads = 1) :
    ∃ x ∈ xs, leads x = true ∧ ∃ found, best x above = .ok found ∧ r = some found := by
  obtain ⟨x, others, hperm, hlead, ⟨-, hfound⟩ | ⟨y, hy, hleady, -⟩⟩ :=
    chosen_cases hbefore hsome h
  · exact ⟨x, hperm.subset List.mem_cons_self, hlead, hfound⟩
  · have hcount := hperm.countP_eq leads
    rw [List.countP_cons_of_pos hlead, hone] at hcount
    have hpos := List.countP_pos_iff.2 ⟨y, hy, hleady⟩
    omega

/-- Several equally relevant violations before all others explain nothing. -/
theorem chosen_tied (hmany : 2 ≤ xs.countP leads)
    (heq : ∀ x ∈ xs, ∀ y ∈ xs, leads x = true → leads y = true → compare x y = .ok .eq) :
    r = none := by
  obtain ⟨x, others, hperm, hlead, ⟨hothers, -⟩ | ⟨y, hy, hleady, o, hcompare, hr⟩⟩ :=
    chosen_cases hbefore hsome h
  · have hcount := hperm.countP_eq leads
    have hzero : others.countP leads = 0 := List.countP_eq_zero.2 (by simpa using hothers)
    rw [List.countP_cons_of_pos hlead] at hcount
    omega
  · have hequal := heq x (hperm.subset List.mem_cons_self) y
      (hperm.subset (List.mem_cons_of_mem _ hy)) hlead hleady
    obtain rfl := Except.ok.inj (hcompare.symm.trans hequal)
    simpa using hr

/-- What is explained is one of the leading violations. -/
theorem chosen_among {found : List Value × Complaint} (hr : r = some found) :
    ∃ x ∈ xs, leads x = true ∧ best x above = .ok found := by
  obtain ⟨x, others, hperm, hlead, ⟨-, hfound⟩ | ⟨y, hy, hleady, o, hcompare, hcase⟩⟩ :=
    chosen_cases hbefore hsome h
  · obtain ⟨_, hbest, hsome⟩ := hfound
    obtain rfl := Option.some.inj (hr.symm.trans hsome)
    exact ⟨x, hperm.subset List.mem_cons_self, hlead, hbest⟩
  · split at hcase
    · rw [hr] at hcase; cases hcase
    · obtain ⟨_, hbest, hsome⟩ := hcase
      obtain rfl := Option.some.inj (hr.symm.trans hsome)
      exact ⟨x, hperm.subset List.mem_cons_self, hlead, hbest⟩

/-- Leading violations no two of which are equally relevant: one of them is explained. -/
theorem chosen_apart (hapart : xs.Pairwise fun x y => leads x = true → leads y = true →
      compare x y ≠ .ok .eq ∧ compare y x ≠ .ok .eq) :
    ∃ x ∈ xs, leads x = true ∧ ∃ found, best x above = .ok found ∧ r = some found := by
  obtain ⟨x, others, hperm, hlead, ⟨-, hfound⟩ | ⟨y, hy, hleady, o, hcompare, hcase⟩⟩ :=
    chosen_cases hbefore hsome h
  · exact ⟨x, hperm.subset List.mem_cons_self, hlead, hfound⟩
  · have hpairwise := (hperm.pairwise_iff fun hxy hx hy => (hxy hy hx).symm).2 hapart
    have hne := ((List.pairwise_cons.1 hpairwise).1 y hy hlead hleady).1
    have ho : o ≠ .eq := by
      rintro rfl
      exact hne hcompare
    rw [if_neg ho] at hcase
    exact ⟨x, hperm.subset List.mem_cons_self, hlead, hcase⟩

end

/-- A violation that is no choice explains itself. -/
theorem best_of_no_branches {path above : List Value} {complaint : Complaint} {ofType : Bool} :
    best (.mk path complaint ofType []) above = .ok (above ++ path, complaint) := by
  rw [best]
  rfl

theorem path_of_best {x : Violation} {above : List Value} {found : List Value × Complaint}
    (hplain : x.branches = []) (h : best x above = .ok found) : found.1 = above ++ x.path := by
  obtain ⟨path, complaint, ofType, branches⟩ := x
  obtain rfl : branches = [] := hplain
  rw [best_of_no_branches] at h
  rw [← Except.ok.inj h]
  rfl

/-- The place of a choice and what is chosen from its branches. -/
theorem best_of_choose {path above : List Value} {complaint : Complaint} {ofType : Bool}
    {branches : List Violation} {found : List Value × Complaint}
    (h : best (.mk path complaint ofType branches) above = .ok found) :
    ∃ r, choose (above ++ path) (candidates branches) = .ok r ∧
      found = r.getD (above ++ path, complaint) := by
  rw [best] at h
  obtain ⟨r, hr, h⟩ := bind_eq_ok_iff.1 h
  refine ⟨r, hr, ?_⟩
  cases r with
  | none => exact pure_eq_ok_iff.1 h
  | some x => exact pure_eq_ok_iff.1 h

end Violation

end RegisterLayout
