import RegisterLayout.Proofs.Listed
import RegisterLayout.Proofs.Relevance

/-!
# What the report on a rejected mapping is about

A mapping that no kind accepts is explained by one violation of its branches, if by any.  The
deepest ones are looked at first and, of those, the ones on the earliest path; where several equally
relevant complaints meet, nothing is explained and the mapping itself is reported.  What a report is
about can therefore be read off the mapping: a constant of a listed value, a key of a listed value,
a constant of the mapping, one of its keys, or the mapping as a whole.

Principal definitions: `Blame`, `Value.blame`.
Principal result: `covers_of_best`.
-/

namespace RegisterLayout

open Value Schema Violation

/-! ## Choices that a path decides -/

section

variable {xs : List Violation} {above q : List Value} {r : Option (List Value × Complaint)}

/-- The complaints about the value under a key that stand before all else: a single one is
explained, and several explain nothing. -/
theorem chosen_key {tables : List KeyTable} {v : Value} {key : String}
    (hq : ∀ s ∈ q, s.same s = true)
    (hbefore : ∀ x ∈ xs, ∀ y ∈ xs, x.path = q → y.path ≠ q → Before x y)
    (hpast : pastAll q xs = v.findingsUnder tables key) (hagree : AgreeUnder tables key)
    (hmisfit : key ∈ v.misfits tables) (h : choose above (candidates xs) = .ok r) :
    r.map Prod.fst = if v.complaintsUnder tables key = 1 then some (above ++ q) else none := by
  have hlead : ∀ x ∈ xs, ∀ y ∈ xs, onPath q x = true → onPath q y = false → Before x y := by
    intro x hx y hy hxq hyq
    exact hbefore x hx y hy (onPath_iff.1 hxq) (satisfying_eq_false_iff.1 hyq)
  have hcount : xs.countP (onPath q) = v.complaintsUnder tables key := by
    rw [countP_onPath, hpast, complaintsUnder]
  have hsome : ∃ x ∈ xs, onPath q x = true := by
    refine List.countP_pos_iff.1 (Nat.pos_of_ne_zero ?_)
    rw [hcount]
    exact (mem_misfits.1 hmisfit).2
  obtain ⟨b, hmarked⟩ := marked_findingsUnder (v := v) hagree
  have hplain : ∀ x ∈ xs, x.path = q → x.branches = [] ∧ x.ofType = b := by
    intro x hx hpath
    obtain ⟨y, rfl, hy⟩ := eq_underAll_of_path (hpath.trans (List.append_nil q).symm)
    rw [branches_underAll, ofType_underAll]
    exact hmarked y (hpast ▸ mem_pastAll.2 hx) hy
  rw [← hcount]
  by_cases hone : xs.countP (onPath q) = 1
  · obtain ⟨x, hx, hxq, ⟨place, k⟩, hbest, rfl⟩ := chosen_single hlead hsome h hone
    have hplace := path_of_best (hplain x hx (onPath_iff.1 hxq)).1 hbest
    rw [onPath_iff.1 hxq] at hplace
    rw [if_pos hone, Option.map_some, hplace]
  · rw [if_neg hone, Option.map_eq_none_iff]
    have hpos := List.countP_pos_iff.2 hsome
    refine chosen_tied hlead hsome h (by omega) fun x hx y hy hxq hyq => ?_
    have hxpath := onPath_iff.1 hxq
    have hypath := onPath_iff.1 hyq
    obtain ⟨hxplain, hxtype⟩ := hplain x hx hxpath
    obtain ⟨hyplain, hytype⟩ := hplain y hy hypath
    refine compare_eq_of_path (by rw [hxpath, hypath]) ?_ ?_ (by rw [hxtype, hytype])
    · have hself := comparePaths_append hq [] []
      rw [List.append_nil] at hself
      rw [hxpath, hypath, hself]
      rfl
    · rw [isChoice, isChoice, hxplain, hyplain]

/-- The first misfit of a value stands before its others. -/
theorem before_of_misfits {tables : List KeyTable} {v : Value} {key key' : String}
    {rest : List String} {x y : Violation} (hq : ∀ s ∈ q, s.same s = true)
    (hmisfits : v.misfits tables = key :: rest) (hkey' : key' ∈ v.misfits tables)
    (hx : x.path = q ++ [.str (Text.ofString key)])
    (hy : y.path = q ++ [.str (Text.ofString key')]) (hne : y.path ≠ x.path) : Before x y := by
  have hother : key' ≠ key := by
    rintro rfl
    exact hne (hy.trans hx.symm)
  have hsorted := @pairwise_misfits tables v
  rw [hmisfits] at hsorted hkey'
  have hlt := (List.pairwise_cons.1 hsorted).1 key' ((List.mem_cons.1 hkey').resolve_left hother)
  have hpaths := comparePaths_str_lt hlt [] []
  refine before_of_path (by simp [hx, hy]) ?_ ?_
  · rw [hx, hy, comparePaths_append hq]
    exact hpaths.1
  · rw [hx, hy, comparePaths_append hq]
    exact hpaths.2

/-- The constants of an enumeration that stand before all else: one of them is explained, since
their keys are apart. -/
theorem chosen_constant {v : Value} {cs : List (Value × Value)} (hkeyed : v.WellKeyed)
    (hcs : v.under? "enum" = some (.map cs)) (hbad : v.holdsBadConstant = true)
    (hq : ∀ s ∈ q, s.same s = true)
    (hbefore : ∀ x ∈ xs, ∀ y ∈ xs, (∃ c, x.path = q ++ [c]) → (¬∃ c, y.path = q ++ [c]) →
      Before x y)
    (hpast : pastAll q xs = constants [] (.map cs))
    (h : choose above (candidates xs) = .ok r) :
    ∃ c ∈ v.badConstants, ∃ k, r = some (above ++ (q ++ [c.1]), k) := by
  obtain ⟨c, hc⟩ := holdsBadConstant_iff.1 hbad
  obtain ⟨_, hcs', hc, hholds⟩ := mem_badConstants.1 hc
  obtain rfl := Value.map.inj (Option.some.inj (hcs.symm.trans hcs'))
  have hlead : ∀ x ∈ xs, ∀ y ∈ xs, satisfying (fun x => ∃ c, x.path = q ++ [c]) x = true →
      satisfying (fun x => ∃ c, x.path = q ++ [c]) y = false → Before x y := by
    intro x hx y hy hxq hyq
    exact hbefore x hx y hy (satisfying_iff.1 hxq) (satisfying_eq_false_iff.1 hyq)
  have hsome : ∃ x ∈ xs, satisfying (fun x => ∃ c, x.path = q ++ [c]) x = true := by
    obtain ⟨y, hy, hpath⟩ := exists_mem_constants hc hholds
    refine ⟨underAll q y, mem_pastAll.1 (hpast ▸ hy), satisfying_iff.2 ⟨c.1, ?_⟩⟩
    rw [path_underAll, hpath]
  have hapart : xs.Pairwise fun x y => satisfying (fun x => ∃ c, x.path = q ++ [c]) x = true →
      satisfying (fun x => ∃ c, x.path = q ++ [c]) y = true →
      compare x y ≠ .ok .eq ∧ compare y x ≠ .ok .eq := by
    have hconstants := pairwise_constants (hkeyed.keysApart hcs)
    rw [← hpast] at hconstants
    refine (pairwise_pastAll (R := fun x x' => ∀ c d, x.path = q ++ [c] → x'.path = q ++ [d] →
      c.same d = false ∧ d.same c = false) (hconstants.imp ?_)).imp ?_
    · intro y z hyz c d hc hd
      rw [path_underAll] at hc hd
      exact hyz c d (List.append_cancel_left hc) (List.append_cancel_left hd)
    · intro x y hxy hxq hyq
      obtain ⟨c, hc⟩ := satisfying_iff.1 hxq
      obtain ⟨d, hd⟩ := satisfying_iff.1 hyq
      obtain ⟨z, hz, -⟩ := eq_underAll_of_path hc
      obtain ⟨t, ht, -⟩ := eq_underAll_of_path hd
      obtain ⟨hcd, hdc⟩ := hxy z t hz ht c d hc hd
      have hdiffer : ∀ {x y : Violation} {c d : Value}, x.path = q ++ [c] → y.path = q ++ [d] →
          c.same d = false → compare x y ≠ .ok .eq := by
        intro x y c d hc hd hcd hequal
        have hpaths := comparePaths_of_compare_eq hequal
        rw [hc, hd, comparePaths_append hq] at hpaths
        rw [same_of_compareSteps (compareSteps_of_comparePaths hpaths)] at hcd
        cases hcd
      exact ⟨hdiffer hc hd hcd, hdiffer hd hc hdc⟩
  obtain ⟨x, hx, hxq, ⟨place, k⟩, hbest, hr⟩ := chosen_apart hlead hsome h hapart
  obtain ⟨d, hd⟩ := satisfying_iff.1 hxq
  obtain ⟨y, rfl, hy⟩ := eq_underAll_of_path hd
  obtain ⟨hplain, hnil | ⟨_, heq, c', hc', hpath, hholds'⟩⟩ :=
    mem_constants (hpast ▸ mem_pastAll.2 hx)
  · rw [hnil] at hy
    cases hy
  · obtain rfl := Value.map.inj heq
    have hplace := path_of_best (by rw [branches_underAll, hplain]) hbest
    rw [path_underAll, hpath] at hplace
    exact ⟨c', mem_badConstants.2 ⟨_, hcs, hc', hholds'⟩, k, by rw [hr, ← hplace]⟩

end

/-! ## The deepest violations -/

section

variable {e : List (Value × Value)} {inner : Loop → List Violation} {above : List Value}
  {r : Option (List Value × Complaint)}

/-- What is found at a path of three steps or more stands before what is found outside of listed
values. -/
theorem before_or_listed {x y : Violation} (hx : 3 ≤ x.path.length)
    (hy : y ∈ findingsOf inner (.map e)) :
    Before x y ∨ ∃ (j : Nat) (w : Value), (Value.map e).listedFields[j]? = some w ∧
      ∃ z ∈ listedFindings inner w, y = underAll [.str "fields", .int j] z := by
  rcases mem_findingsOf hy with ⟨hpath, -⟩ | ⟨key, hpath, -⟩ | ⟨d, hpath, -⟩ | hlisted
  · exact .inl (before_of_deeper (by rw [hpath, List.length_nil]; omega))
  · exact .inl (before_of_deeper (by rw [hpath, List.length_singleton]; omega))
  · exact .inl (before_of_deeper (by rw [hpath]; exact hx))
  · exact .inr hlisted

/-- Of equally deep violations in listed values the one in the earlier value stands before. -/
theorem before_of_index {i j : Nat} (hij : i < j) {y z : Violation}
    (hlength : y.path.length = z.path.length) :
    Before (underAll [.str "fields", .int i] y) (underAll [.str "fields", .int j] z) := by
  have hpaths := comparePaths_int_lt (Int.ofNat_lt.2 hij) y.path z.path
  have hfields : ∀ s ∈ [Value.str "fields"], s.same s = true := by simp [same]
  refine before_of_path (by simp [hlength]) ?_ ?_
  · rw [path_underAll, path_underAll]
    exact (comparePaths_append hfields _ _).trans hpaths.1
  · rw [path_underAll, path_underAll]
    exact (comparePaths_append hfields _ _).trans hpaths.2

theorem findingsUnder_enum {tables : List KeyTable} {v : Value} {cs : List (Value × Value)}
    (htables : checksUnder tables "enum" = [constants]) (h : v.under? "enum" = some (.map cs)) :
    v.findingsUnder tables "enum" = constants [] (.map cs) := by
  rw [findingsUnder, h, htables]
  exact List.flatMap_singleton _ _

variable (h : choose above (candidates (findingsOf inner (.map e))) = .ok r)

include h

/-- The constants of the first listed value with one that is no whole number are deeper, or
earlier, than all else. -/
theorem chosen_listedConstant {i : Nat} {u : Value}
    (hu : (Value.map e).listedFields[i]? = some u) (hbad : u.holdsBadConstant = true)
    (hfirst : ∀ j w, j < i → (Value.map e).listedFields[j]? = some w → w.holdsBadConstant = false)
    (hkeyed : (Value.map e).WellKeyed) :
    ∃ c ∈ u.badConstants, ∃ k,
      r = some (above ++ [.str "fields", .int i, .str "enum", c.1], k) := by
  obtain ⟨c, hc⟩ := holdsBadConstant_iff.1 hbad
  obtain ⟨cs, hcs, -⟩ := mem_badConstants.1 hc
  have hpast : pastAll [.str "fields", .int i, .str "enum"] (findingsOf inner (.map e)) =
      constants [] (.map cs) := by
    change past (.str "enum") (pastAll [.str "fields", .int i] _) = _
    rw [pastAll_listed hu, past_listedFindings, findingsUnder_enum rfl hcs]
  refine chosen_constant (hkeyed.of_listed hu) hcs hbad (by simp [same, number?]) ?_ hpast h
  rintro x hx y hy ⟨d, hd⟩ hnot
  have hlength : x.path.length = 4 := by rw [hd]; rfl
  obtain hbefore | ⟨j, w, hw, z, hz, rfl⟩ := before_or_listed (x := x) (by omega) hy
  · exact hbefore
  rcases mem_listedFindings hz with hz | ⟨key, -, hz, -⟩ | ⟨d', hz, -, hconstant⟩
  · exact before_of_deeper (by simp [hlength, hz])
  · exact before_of_deeper (by simp [hlength, hz])
  · have hij : i < j := by
      rcases Nat.lt_trichotomy j i with hlt | rfl | hgt
      · rw [hfirst j w hlt hw] at hconstant
        cases hconstant
      · exact absurd ⟨d', by rw [path_underAll, hz]; rfl⟩ hnot
      · exact hgt
    obtain ⟨t, rfl, ht⟩ := eq_underAll_of_path (q := [.str "fields", .int i]) hd
    exact before_of_index hij (by simp [ht, hz])

/-- Where no listed value has such a constant, the complaints under the first misfit of the first
listed value with one are deeper, or earlier, than all else. -/
theorem chosen_listedKey {i : Nat} {u : Value}
    (hnone : ∀ (j : Nat) (w : Value), (Value.map e).listedFields[j]? = some w →
      w.holdsBadConstant = false)
    (hu : (Value.map e).listedFields[i]? = some u) (hmisfit : u.misfits listedTables ≠ [])
    (hfirst : ∀ j w, j < i → (Value.map e).listedFields[j]? = some w →
      w.misfits listedTables = []) :
    r.map Prod.fst = (u.soleMisfit listedTables).map fun key =>
      above ++ [.str "fields", .int i, .str (Text.ofString key)] := by
  obtain ⟨key, rest, hmisfits⟩ := List.exists_cons_of_ne_nil hmisfit
  rw [map_soleMisfit hmisfits]
  have hpast : pastAll [.str "fields", .int i, .str (Text.ofString key)]
      (findingsOf inner (.map e)) = u.findingsUnder listedTables key := by
    change past (.str (Text.ofString key)) (pastAll [.str "fields", .int i] _) = _
    rw [pastAll_listed hu, past_listedFindings]
  have hkey : key ∈ u.misfits listedTables := by rw [hmisfits]; exact List.mem_cons_self
  refine chosen_key (by simp [same, number?]) ?_ hpast (agreeUnder_listedTables key) hkey h
  intro x hx y hy hpath hnot
  have hlength : x.path.length = 3 := by rw [hpath]; rfl
  obtain hbefore | ⟨j, w, hw, z, hz, rfl⟩ := before_or_listed hlength.ge hy
  · exact hbefore
  rcases mem_listedFindings hz with hpz | ⟨key', hkey', hpz, -⟩ | ⟨d', hpz, -, hconstant⟩
  · exact before_of_deeper (by simp [hlength, hpz])
  · obtain ⟨t, rfl, ht⟩ := eq_underAll_of_path (q := [.str "fields", .int i]) hpath
    rcases Nat.lt_trichotomy j i with hlt | rfl | hgt
    · rw [hfirst j w hlt hw] at hkey'
      cases hkey'
    · obtain rfl := Option.some.inj (hu.symm.trans hw)
      exact before_of_misfits (q := [.str "fields", .int j]) (by simp [same, number?]) hmisfits
        hkey' hpath (by rw [path_underAll, hpz]) fun hsame => hnot (hsame.trans hpath)
    · exact before_of_index hgt (by simp [ht, hpz])
  · rw [hnone j w hw] at hconstant
    cases hconstant

/-- Where nothing is wrong below the keys of listed values, the mapping's own constants stand
before them. -/
theorem chosen_ownConstant
    (hnone : ∀ (i : Nat) (u : Value), (Value.map e).listedFields[i]? = some u →
      u.holdsBadConstant = false)
    (hfit : ∀ (i : Nat) (u : Value), (Value.map e).listedFields[i]? = some u →
      u.misfits listedTables = [])
    (hbad : (Value.map e).holdsBadConstant = true) (hkeyed : (Value.map e).WellKeyed) :
    ∃ c ∈ (Value.map e).badConstants, ∃ k, r = some (above ++ [.str "enum", c.1], k) := by
  obtain ⟨c, hc⟩ := holdsBadConstant_iff.1 hbad
  obtain ⟨cs, hcs, -⟩ := mem_badConstants.1 hc
  have hpast : pastAll [.str "enum"] (findingsOf inner (.map e)) = constants [] (.map cs) := by
    change past (.str "enum") _ = _
    rw [findingsOf, past_branchesOf, findingsUnder_enum rfl hcs]
  refine chosen_constant hkeyed hcs hbad (by simp [same]) ?_ hpast h
  rintro x hx y hy ⟨d, hd⟩ hnot
  have hlength : x.path.length = 2 := by rw [hd]; rfl
  rcases mem_findingsOf hy with ⟨hy, -⟩ | ⟨key, hy, -⟩ | ⟨d', hy, -⟩ | ⟨i, u, hu, z, hz, rfl⟩
  · exact before_of_deeper (by simp [hlength, hy])
  · exact before_of_deeper (by simp [hlength, hy])
  · exact absurd ⟨d', hy⟩ hnot
  rcases mem_listedFindings hz with hpz | ⟨key, hkey, -⟩ | ⟨d', -, -, hconstant⟩
  · have henum : Text.compare "enum" "fields" = .lt := by decide +kernel
    have hpaths := comparePaths_str_lt henum [d] [.int i]
    refine before_of_path (by simp [hlength, hpz]) ?_ ?_
    · rw [hd, path_underAll, hpz]
      exact hpaths.1
    · rw [hd, path_underAll, hpz]
      exact hpaths.2
  · rw [hfit i u hu] at hkey
    cases hkey
  · rw [hnone i u hu] at hconstant
    cases hconstant

/-- Where nothing is wrong below the keys of listed values, nor with the constants of the mapping,
the first listed value has no kind, which is found twice and explains nothing. -/
theorem chosen_listed {u : Value}
    (hnone : ∀ (i : Nat) (u : Value), (Value.map e).listedFields[i]? = some u →
      u.holdsBadConstant = false)
    (hfit : ∀ (i : Nat) (u : Value), (Value.map e).listedFields[i]? = some u →
      u.misfits listedTables = [])
    (hgood : (Value.map e).holdsBadConstant = false)
    (hu : (Value.map e).listedFields[0]? = some u) : r = none := by
  have hcount : 2 ≤ (findingsOf inner (.map e)).countP (satisfying fun x =>
      ∃ y, x = underAll [.str "fields", .int 0] y ∧ y.path = [] ∧ y.isChoice = true) := by
    rw [countP_pastAll, ← Int.natCast_zero, pastAll_listed hu]
    exact two_le_countP_listedFindings (hfit 0 u hu)
  have hself : ∀ s ∈ [Value.str "fields", .int 0], s.same s = true := by simp [same, number?]
  have hpaths := comparePaths_append hself [] []
  have hsome := List.countP_pos_iff.1 (Nat.lt_of_lt_of_le Nat.zero_lt_two hcount)
  refine chosen_tied ?_ hsome h hcount ?_
  · intro x _ y hy hx hnot
    obtain ⟨z, rfl, hpz, hchoice⟩ := satisfying_iff.1 hx
    have hnot := satisfying_eq_false_iff.1 hnot
    rcases mem_findingsOf hy with ⟨hy, -⟩ | ⟨key, hy, -⟩ | ⟨d, -, -, hbad⟩ | ⟨i, w, hw, t, ht, rfl⟩
    · exact before_of_deeper (by simp [hpz, hy])
    · exact before_of_deeper (by simp [hpz, hy])
    · rw [hgood] at hbad
      cases hbad
    rcases mem_listedFindings ht with hpt | ⟨key, hkey, -⟩ | ⟨d, -, -, hconstant⟩
    · cases i with
      | zero =>
        have hother : t.isChoice = false := by
          by_contra hchoice'
          exact hnot ⟨t, rfl, hpt, by simpa using hchoice'⟩
        refine before_of_isChoice (by simp [hpz, hpt]) ?_ ?_ (by simpa [isChoice] using hchoice)
          (by simpa [isChoice] using hother)
        · rw [path_underAll, path_underAll, hpz, hpt]
          exact hpaths
        · rw [path_underAll, path_underAll, hpz, hpt]
          exact hpaths
      | succ i => exact before_of_index (Nat.succ_pos i) (by simp [hpz, hpt])
    · rw [hfit i w hw] at hkey
      cases hkey
    · rw [hnone i w hw] at hconstant
      cases hconstant
  · intro x hx y hy hxlead hylead
    obtain ⟨z, rfl, hpz, hz⟩ := satisfying_iff.1 hxlead
    obtain ⟨t, rfl, hpt, ht⟩ := satisfying_iff.1 hylead
    have htype : ∀ {y : Violation},
        underAll [.str "fields", .int 0] y ∈ findingsOf inner (.map e) → y.path = [] →
        y.isChoice = true → y.ofType = ValueKind.object.holds u := by
      intro y hy hpath hchoice
      have hmem := mem_pastAll.2 hy
      rw [← Int.natCast_zero, pastAll_listed hu] at hmem
      exact ofType_of_mem_listedFindings hmem hpath hchoice
    refine compare_eq_of_path (by simp [hpz, hpt]) ?_ ?_ ?_
    · rw [path_underAll, path_underAll, hpz, hpt]
      exact hpaths
    · rw [isChoice, isChoice, branches_underAll, branches_underAll]
      exact hz.trans ht.symm
    · rw [ofType_underAll, ofType_underAll, htype hx hpz hz, htype hy hpt ht]

omit h in
/-- Without a listed value what is found is at the keys of the mapping, if not in itself. -/
theorem mem_findingsOf_unlisted (hlisted : (Value.map e).listedFields = [])
    (hgood : (Value.map e).holdsBadConstant = false) {x : Violation}
    (hx : x ∈ findingsOf inner (.map e)) :
    x.path = [] ∧ x.branches = [] ∨
      ∃ key ∈ (Value.map e).misfits (kindTables []), x.path = [.str (Text.ofString key)] := by
  rcases mem_findingsOf hx with hself | ⟨key, hpath, -⟩ | ⟨d, -, -, hbad⟩ | ⟨i, u, hu, -⟩
  · exact .inl hself
  · obtain ⟨y, rfl, hy⟩ := eq_under_of_path hpath
    rw [findingsOf_of_unlisted hlisted, ← mem_past, past_branchesOf] at hx
    exact .inr ⟨key, mem_misfits_of_mem (known_kindTables []) hx hy, hpath⟩
  · rw [hgood] at hbad
    cases hbad
  · rw [hlisted] at hu
    cases hu

/-- Without a listed value the complaints under the first misfit stand before all else. -/
theorem chosen_ownKey (hlisted : (Value.map e).listedFields = [])
    (hgood : (Value.map e).holdsBadConstant = false)
    (hmisfit : (Value.map e).misfits (kindTables []) ≠ []) :
    r.map Prod.fst = ((Value.map e).soleMisfit (kindTables [])).map fun key =>
      above ++ [.str (Text.ofString key)] := by
  obtain ⟨key, rest, hmisfits⟩ := List.exists_cons_of_ne_nil hmisfit
  rw [map_soleMisfit hmisfits]
  have hpast : pastAll [.str (Text.ofString key)] (findingsOf inner (.map e)) =
      (Value.map e).findingsUnder (kindTables []) key := by
    change past (.str (Text.ofString key)) _ = _
    rw [findingsOf_of_unlisted hlisted, past_branchesOf]
  have hkey : key ∈ (Value.map e).misfits (kindTables []) := by
    rw [hmisfits]
    exact List.mem_cons_self
  refine chosen_key (by simp [same]) ?_ hpast (agreeUnder_kindTables key) hkey h
  intro x hx y hy hpath hnot
  rcases mem_findingsOf_unlisted hlisted hgood hy with ⟨hy, -⟩ | ⟨key', hkey', hy⟩
  · exact before_of_deeper (by simp [hpath, hy])
  · exact before_of_misfits (q := []) (by simp) hmisfits hkey' hpath hy
      fun hsame => hnot (hsame.trans hpath)

/-- Where nothing is wrong below any key, what is explained is the mapping itself. -/
theorem chosen_whole (hlisted : (Value.map e).listedFields = [])
    (hgood : (Value.map e).holdsBadConstant = false)
    (hmisfits : (Value.map e).misfits (kindTables []) = []) {found : List Value × Complaint}
    (hr : r = some found) : found.1 = above := by
  have hlead : ∀ x ∈ findingsOf inner (.map e), ∀ y ∈ findingsOf inner (.map e),
      (fun _ : Violation => true) x = true → (fun _ : Violation => true) y = false →
      Before x y := by
    intro _ _ _ _ _ hnot
    cases hnot
  have hsome : ∃ x ∈ findingsOf inner (.map e), (fun _ : Violation => true) x = true := by
    cases hfindings : findingsOf inner (.map e) with
    | nil =>
      rw [hfindings] at h
      rw [← Except.ok.inj h] at hr
      cases hr
    | cons x xs => exact ⟨x, List.mem_cons_self, rfl⟩
  obtain ⟨x, hx, -, hbest⟩ := chosen_among hlead hsome h hr
  rcases mem_findingsOf_unlisted hlisted hgood hx with ⟨hpath, hplain⟩ | ⟨key, hkey, -⟩
  · rw [path_of_best hplain hbest, hpath, List.append_nil]
  · rw [hmisfits] at hkey
    cases hkey

end

/-! ## Reports -/

/-- What a report on a mapping is about. -/
inductive Blame where
  /-- The mapping itself. -/
  | whole
  /-- The value under one of its keys. -/
  | key (key : String)
  /-- A constant of its enumeration. -/
  | constant
  /-- The value under a key of the mapping listed at an index. -/
  | listedKey (index : Nat) (key : String)
  /-- A constant of the enumeration of the mapping listed at an index. -/
  | listedConstant (index : Nat)
  deriving DecidableEq, Repr

/-- The paths that a report on a mapping may show. -/
def Blame.Covers (v : Value) : Blame → List Value → Prop
  | whole, path => path = []
  | key k, path => path = [.str (Text.ofString k)]
  | constant, path => ∃ c ∈ v.badConstants, path = [.str "enum", c.1]
  | listedKey i k, path => path = [.str "fields", .int i, .str (Text.ofString k)]
  | listedConstant i, path => ∃ u, v.listedFields[i]? = some u ∧
      ∃ c ∈ u.badConstants, path = [.str "fields", .int i, .str "enum", c.1]

/-- What the report on a rejected mapping is about.  The first listed value with a constant that is
no whole number comes first, and then the first listed value with a misfit. -/
def Value.blame (v : Value) : Blame :=
  match v.listedFields.findIdx? holdsBadConstant,
    v.listedFields.findIdx? fun u => !(u.misfits listedTables).isEmpty with
  | some i, _ => .listedConstant i
  | none, some i =>
    match v.listedFields[i]?.bind (soleMisfit listedTables) with
    | some key => .listedKey i key
    | none => .whole
  | none, none =>
    if v.holdsBadConstant then .constant
    else if v.listedFields.isEmpty then
      match v.soleMisfit (kindTables []) with
      | some key => .key key
      | none => .whole
    else .whole

namespace Value

variable {v : Value} {key : String} {i : Nat}

/-- A report about a key of a mapping without listed values. -/
theorem of_blame_eq_key (h : v.blame = .key key) :
    v.listedFields = [] ∧ v.soleMisfit (kindTables []) = some key := by
  unfold blame at h
  repeat' split at h
  all_goals simp_all

/-- A report about a key of a listed value. -/
theorem of_blame_eq_listedKey (h : v.blame = .listedKey i key) :
    ∃ u, v.listedFields[i]? = some u ∧ u.soleMisfit listedTables = some key := by
  unfold blame at h
  repeat' split at h
  all_goals simp_all [Option.bind_eq_some_iff]

end Value

theorem findIdx?_eq_some_iff_getElem? {α : Type} {p : α → Bool} {xs : List α} {i : Nat} :
    xs.findIdx? p = some i ↔ (∃ x, xs[i]? = some x ∧ p x = true) ∧
      ∀ j x, j < i → xs[j]? = some x → p x = false := by
  rw [List.findIdx?_eq_some_iff_getElem]
  constructor
  · rintro ⟨hi, hp, hfirst⟩
    refine ⟨⟨xs[i], List.getElem?_eq_getElem hi, hp⟩, fun j x hj hx => ?_⟩
    obtain ⟨hlt, rfl⟩ := List.getElem?_eq_some_iff.1 hx
    simpa using hfirst j hj
  · rintro ⟨⟨x, hx, hp⟩, hfirst⟩
    obtain ⟨hi, rfl⟩ := List.getElem?_eq_some_iff.1 hx
    refine ⟨hi, hp, fun j hj => ?_⟩
    simp [hfirst j _ hj (List.getElem?_eq_getElem (hj.trans hi))]

theorem findIdx?_eq_none_iff_getElem? {α : Type} {p : α → Bool} {xs : List α} :
    xs.findIdx? p = none ↔ ∀ (i : Nat) (x : α), xs[i]? = some x → p x = false := by
  rw [List.findIdx?_eq_none_iff]
  constructor
  · exact fun h i x hx => h x (List.mem_of_getElem? hx)
  · intro h x hx
    obtain ⟨i, hi⟩ := List.mem_iff_getElem?.1 hx
    exact h i x hi

/-- **What a report is about.**  The path of the violation that explains best why a mapping is
rejected is one that its blame covers. -/
theorem covers_of_best {e : List (Value × Value)} {inner : Loop → List Violation}
    {complaint : Complaint} {ofType : Bool} {found : List Value × Complaint}
    (hkeyed : (Value.map e).WellKeyed)
    (h : best (.mk [] complaint ofType (findingsOf inner (.map e))) [] = .ok found) :
    (Value.map e).blame.Covers (.map e) found.1 := by
  obtain ⟨r, hr, rfl⟩ := best_of_choose h
  have hfound : (r.getD ([], complaint)).1 = (r.map Prod.fst).getD [] := by cases r <;> rfl
  change Blame.Covers _ _ (r.getD ([], complaint)).1
  rw [hfound, Value.blame]
  split
  · next i hconstant =>
    obtain ⟨⟨u, hu, hbad⟩, hfirst⟩ := findIdx?_eq_some_iff_getElem?.1 hconstant
    obtain ⟨c, hc, k, rfl⟩ := chosen_listedConstant hr hu hbad hfirst hkeyed
    exact ⟨u, hu, c, hc, rfl⟩
  · next i hconstant hmisfit =>
    have hnone := findIdx?_eq_none_iff_getElem?.1 hconstant
    obtain ⟨⟨u, hu, hmisfits⟩, hfirst⟩ := findIdx?_eq_some_iff_getElem?.1 hmisfit
    have hchosen := chosen_listedKey hr hnone hu (by simpa using hmisfits)
      fun j w hj hw => by simpa using hfirst j w hj hw
    rw [hu, Option.bind_some, hchosen]
    cases u.soleMisfit listedTables with
    | none => rfl
    | some key => rfl
  · next hconstant hmisfit =>
    have hnone := findIdx?_eq_none_iff_getElem?.1 hconstant
    have hfit : ∀ (j : Nat) (w : Value), (Value.map e).listedFields[j]? = some w →
        w.misfits listedTables = [] := fun j w hw => by
      simpa using findIdx?_eq_none_iff_getElem?.1 hmisfit j w hw
    split
    · next hbad =>
      obtain ⟨c, hc, k, rfl⟩ := chosen_ownConstant hr hnone hfit hbad hkeyed
      exact ⟨c, hc, rfl⟩
    · next hbad =>
      have hgood : (Value.map e).holdsBadConstant = false := by simpa using hbad
      split
      · next hempty =>
        have hlisted := List.isEmpty_iff.1 hempty
        by_cases hmisfits : (Value.map e).misfits (kindTables []) = []
        · rw [soleMisfit, hmisfits]
          cases r with
          | none => rfl
          | some found => exact chosen_whole hr hlisted hgood hmisfits rfl
        · rw [chosen_ownKey hr hlisted hgood hmisfits]
          cases (Value.map e).soleMisfit (kindTables []) with
          | none => rfl
          | some key => rfl
      · next hne =>
        obtain ⟨u, hu⟩ : ∃ u, (Value.map e).listedFields[0]? = some u := by
          cases hxs : (Value.map e).listedFields with
          | nil => simp [hxs] at hne
          | cons u us => exact ⟨u, rfl⟩
        rw [chosen_listed hr hnone hfit hgood hu]
        rfl

end RegisterLayout
