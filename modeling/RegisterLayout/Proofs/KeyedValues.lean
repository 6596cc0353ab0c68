import RegisterLayout.Proofs.NodeTree
import RegisterLayout.Proofs.ScalarReading
import RegisterLayout.Proofs.Tied
import RegisterLayout.Value.OfNode

/-!
# Keys of values that are read

The mappings of a value that is read from a document keep their keys apart.  A key holds nothing
that can be changed, so equality of keys goes both ways, and an entry is put at the place of the one
with the same key or behind all entries.  Nothing changes when marks are replaced, since no key has
marks in it.

Principal results: `Value.same_comm_of_isKey`, `Value.wellKeyed_mappingOf`,
`Value.wellKeyed_ofNode`, `Value.wellKeyed_fill`.
-/

namespace RegisterLayout

open Document

/-! ## Equality of keys -/

theorem Binary64.same_comm (x y : Binary64) : x.same y = y.same x := by
  unfold Binary64.same
  cases x.toRat? <;> cases y.toRat? <;> grind

theorem Number.same_comm (a b : Number) : a.same b = b.same a := by
  cases a <;> cases b
  · exact Bool.beq_comm
  · rfl
  · rfl
  · exact Binary64.same_comm _ _

namespace Value

mutual

/-- A test that is passed wherever another one is. -/
theorem all_mono {p q : Value → Bool} (hpq : ∀ v, p v = true → q v = true) :
    (v : Value) → v.all p = true → v.all q = true
  | list xs | tuple xs | set xs => by
    simp only [all, Bool.and_eq_true]
    exact And.imp (hpq _) (allOf_mono hpq xs)
  | map entries => by
    simp only [all, Bool.and_eq_true]
    exact And.imp (hpq _) (allOfEntries_mono hpq entries)
  | null | bool _ | num _ | str _ | date _ | moment _ _ | bytes _ | again _ => hpq _

theorem allOf_mono {p q : Value → Bool} (hpq : ∀ v, p v = true → q v = true) :
    (xs : List Value) → allOf p xs = true → allOf q xs = true
  | [] => id
  | x :: xs => by
    simp only [allOf, Bool.and_eq_true]
    exact And.imp (all_mono hpq x) (allOf_mono hpq xs)

theorem allOfEntries_mono {p q : Value → Bool} (hpq : ∀ v, p v = true → q v = true) :
    (entries : List (Value × Value)) → allOfEntries p entries = true → allOfEntries q entries = true
  | [] => id
  | (key, value) :: entries => by
    simp only [allOfEntries, Bool.and_eq_true]
    exact And.imp (And.imp (all_mono hpq key) (all_mono hpq value)) (allOfEntries_mono hpq entries)

end

/-- A key holds no collection that contains itself. -/
theorem isLoopFree_of_isKey {v : Value} (h : v.isKey = true) : v.isLoopFree = true := by
  refine all_mono (fun v hv => ?_) v h
  cases v <;> first | rfl | cases hv

/-- A key holds no mapping. -/
theorem wellKeyed_of_isKey {v : Value} (h : v.isKey = true) : v.WellKeyed := by
  refine all_mono (fun v hv => ?_) v h
  cases v <;> first | rfl | cases hv

theorem isKey_tuple_iff {xs : List Value} :
    (tuple xs).isKey = true ↔ ∀ x ∈ xs, x.isKey = true := by
  simp only [isKey, all, Bool.true_and, allOf_eq_true_iff]

/-- Where a truth value is the same as a number, it counts as that number. -/
theorem same_bool_num (b : Bool) (n : Number) : (bool b).same (num n) = (num n).same (bool b) := by
  have hnum : ∀ k : Int, (Number.int k).same n = (n.same (.int k) || n == .int k) := by
    intro k
    rw [Number.same_comm]
    by_cases heq : n = .int k
    · rw [heq, Number.same_int, beq_self_eq_true, Bool.true_or]
    · rw [beq_eq_false_iff_ne.2 heq, Bool.or_false]
  exact hnum _

mutual

/-- **Equality of keys goes both ways.** -/
theorem same_comm_of_isKey : (v : Value) → v.isKey = true → ∀ w : Value, w.isKey = true →
    v.same w = w.same v
  | null, _, w, _ => by cases w <;> rfl
  | bool b, _, w, _ => by
    cases w with
    | bool c => exact Number.same_comm (.int _) (.int _)
    | num n => exact same_bool_num b n
    | _ => rfl
  | num n, _, w, _ => by
    cases w with
    | bool b => exact (same_bool_num b n).symm
    | num m => exact congrArg₂ (· || ·) (Number.same_comm n m) Bool.beq_comm
    | _ => rfl
  | str s, _, w, _ => by
    cases w with
    | str t => exact Bool.beq_comm
    | _ => rfl
  | date d, _, w, _ => by
    cases w with
    | date e => exact Bool.beq_comm
    | _ => rfl
  | moment d c, _, w, _ => by
    cases w with
    | moment e k => exact congrArg₂ (· && ·) Bool.beq_comm Bool.beq_comm
    | _ => rfl
  | bytes a, _, w, _ => by
    cases w with
    | bytes b => exact Bool.beq_comm
    | _ => rfl
  | tuple xs, h, w, hw => by
    cases w with
    | tuple ys => exact sameList_comm xs (isKey_tuple_iff.1 h) ys (isKey_tuple_iff.1 hw)
    | _ => rfl
  | list _, h, _, _ | set _, h, _, _ | map _, h, _, _ | again _, h, _, _ =>
    absurd h Bool.false_ne_true

theorem sameList_comm : (xs : List Value) → (∀ x ∈ xs, x.isKey = true) → ∀ ys : List Value,
    (∀ y ∈ ys, y.isKey = true) → sameList xs ys = sameList ys xs
  | [], _, ys, _ => by cases ys <;> rfl
  | x :: xs, hxs, ys, hys => by
    cases ys with
    | nil => rfl
    | cons y ys =>
      obtain ⟨hx, hxs⟩ := List.forall_mem_cons.1 hxs
      obtain ⟨hy, hys⟩ := List.forall_mem_cons.1 hys
      exact congrArg₂ (· && ·) (same_comm_of_isKey x hx y hy) (sameList_comm xs hxs ys hys)

end

/-! ## Entries put into a mapping -/

theorem keysApart_iff {entries : List (Value × Value)} : keysApart entries = true ↔
    (∀ k ∈ entries.map Prod.fst, k.isLoopFree = true) ∧
      (entries.map Prod.fst).Pairwise fun a b => !a.same b && !b.same a := by
  rw [keysApart, Bool.and_eq_true, List.all_eq_true, decide_eq_true_eq, List.forall_mem_map]

/-- Entries as they are in a mapping that is read: what stands under the keys has its keys apart,
too. -/
structure Keyed (entries : List (Value × Value)) : Prop where
  isKey : ∀ entry ∈ entries, entry.1.isKey = true
  values : ∀ entry ∈ entries, entry.2.WellKeyed

theorem Keyed.nil : Keyed [] := ⟨List.forall_mem_nil _, List.forall_mem_nil _⟩

theorem Keyed.append {entries more : List (Value × Value)} (h : Keyed entries)
    (hmore : Keyed more) : Keyed (entries ++ more) :=
  ⟨List.forall_mem_append.2 ⟨h.isKey, hmore.isKey⟩,
    List.forall_mem_append.2 ⟨h.values, hmore.values⟩⟩

section

variable {entries : List (Value × Value)} {key value : Value}

/-- An entry with a new key stands behind all others, any other one leaves the keys as they are. -/
theorem map_fst_putEntry : (putEntry entries key value).map Prod.fst
    = if entries.any fun entry => entry.1.same key then entries.map Prod.fst
      else entries.map Prod.fst ++ [key] := by
  unfold putEntry
  split
  · rw [List.map_map]
    refine List.map_congr_left fun entry _ => ?_
    simp only [Function.comp_apply]
    split <;> rfl
  · rw [List.map_append]
    rfl

theorem mem_putEntry {entry : Value × Value} (h : entry ∈ putEntry entries key value) :
    entry ∈ entries ∨ entry.2 = value ∧ (entry.1 = key ∨ entry.1 ∈ entries.map Prod.fst) := by
  unfold putEntry at h
  split at h
  · obtain ⟨old, hold, rfl⟩ := List.mem_map.1 h
    dsimp only
    split
    · exact .inr ⟨rfl, .inr (List.mem_map.2 ⟨old, hold, rfl⟩)⟩
    · exact .inl hold
  · rcases List.mem_append.1 h with h | h
    · exact .inl h
    · obtain rfl := List.mem_singleton.1 h
      exact .inr ⟨rfl, .inl rfl⟩

theorem Keyed.putEntry (h : Keyed entries) (hkey : key.isKey = true) (hvalue : value.WellKeyed) :
    Keyed (putEntry entries key value) := by
  constructor
  · intro entry hentry
    rcases mem_putEntry hentry with hold | ⟨-, hnew | hold⟩
    · exact h.isKey entry hold
    · exact hnew ▸ hkey
    · obtain ⟨old, hold, heq⟩ := List.mem_map.1 hold
      exact heq ▸ h.isKey old hold
  · intro entry hentry
    rcases mem_putEntry hentry with hold | ⟨hnew, -⟩
    · exact h.values entry hold
    · exact hnew ▸ hvalue

/-- **Putting an entry keeps keys apart.** -/
theorem keysApart_putEntry (h : Keyed entries) (hkey : key.isKey = true)
    (hapart : keysApart entries = true) : keysApart (putEntry entries key value) = true := by
  rw [keysApart_iff] at hapart ⊢
  rw [map_fst_putEntry]
  split
  · exact hapart
  · next hnew =>
    obtain ⟨hfree, hpairwise⟩ := hapart
    have hkeyFree : ∀ k ∈ [key], k.isLoopFree = true :=
      List.forall_mem_singleton.2 (isLoopFree_of_isKey hkey)
    refine ⟨List.forall_mem_append.2 ⟨hfree, hkeyFree⟩,
      List.pairwise_append.2 ⟨hpairwise, List.pairwise_singleton _ _, ?_⟩⟩
    intro k hk k' hmem
    rw [List.mem_singleton.1 hmem]
    obtain ⟨entry, hentry, rfl⟩ := List.mem_map.1 hk
    have hne : entry.1.same key = false := by
      simpa using List.any_eq_false.1 (Bool.eq_false_iff.2 hnew) entry hentry
    rw [same_comm_of_isKey key hkey _ (h.isKey entry hentry), hne]
    rfl

end

theorem keyed_putEntries {pairs : List (Value × Value)} (h : Keyed pairs) :
    Keyed (putEntries pairs) ∧ keysApart (putEntries pairs) = true := by
  have hfold : ∀ entries : List (Value × Value), Keyed entries → keysApart entries = true →
      Keyed (pairs.foldl (fun entries pair => putEntry entries pair.1 pair.2) entries) ∧
        keysApart (pairs.foldl (fun entries pair => putEntry entries pair.1 pair.2) entries)
          = true := by
    induction pairs with
    | nil => exact fun entries hentries hapart => ⟨hentries, hapart⟩
    | cons pair pairs ih =>
      intro entries hentries hapart
      obtain ⟨hkey, hkeys⟩ := List.forall_mem_cons.1 h.isKey
      obtain ⟨hvalue, hvalues⟩ := List.forall_mem_cons.1 h.values
      exact ih ⟨hkeys, hvalues⟩ _ (hentries.putEntry hkey hvalue)
        (keysApart_putEntry hentries hkey hapart)
  exact hfold [] .nil rfl

/-- **A mapping that is read keeps its keys apart.** -/
theorem wellKeyed_mappingOf {tag : Tag} {entries : List (Value × Value)} (h : Keyed entries) :
    (mappingOf tag entries).WellKeyed := by
  obtain ⟨hkeyed, hapart⟩ := keyed_putEntries h
  unfold mappingOf
  dsimp only
  split
  · simp only [WellKeyed, all, Bool.true_and, allOf_eq_true_iff, List.forall_mem_map]
    exact fun entry hentry => wellKeyed_of_isKey (hkeyed.isKey entry hentry)
  · refine wellKeyed_map_iff.2 ⟨hapart, fun entry hentry => ?_⟩
    exact ⟨wellKeyed_of_isKey (hkeyed.isKey entry hentry), hkeyed.values entry hentry⟩

/-! ## Reading nodes -/

theorem wellKeyed_of_isScalar {v : Value} (h : v.isScalar = true) : v.WellKeyed := by
  cases v <;> first | rfl | cases h

section

variable {inner : Loop → Except Failure Value}

/-- What a computation comes to has its keys apart. -/
abbrev ReadsKeyed (x : Except Failure Value) : Prop := ∀ v, x = .ok v → v.WellKeyed

theorem keyed_ofNodes {items : List Node} (h : ∀ item ∈ items, ReadsKeyed (ofNode inner item))
    {xs : List Value} (hxs : ofNodes inner items = .ok xs) : ∀ x ∈ xs, x.WellKeyed := by
  induction items generalizing xs with
  | nil =>
    obtain rfl := Except.ok.inj hxs
    exact List.forall_mem_nil _
  | cons item items ih =>
    obtain ⟨hitem, hitems⟩ := List.forall_mem_cons.1 h
    simp only [ofNodes, bind_eq_ok_iff, pure_eq_ok_iff] at hxs
    obtain ⟨v, hv, rest, hrest, rfl⟩ := hxs
    exact List.forall_mem_cons.2 ⟨hitem v hv, ih hitems hrest⟩

theorem keyed_pairsOf {items : List Node}
    (h : ∀ item ∈ items, ∀ p ∈ item.parts, ReadsKeyed (ofNode inner p)) {xs : List Value}
    (hxs : pairsOf inner items = .ok xs) : ∀ x ∈ xs, x.WellKeyed := by
  induction items generalizing xs with
  | nil =>
    obtain rfl := Except.ok.inj hxs
    exact List.forall_mem_nil _
  | cons item items ih =>
    obtain ⟨hitem, hitems⟩ := List.forall_mem_cons.1 h
    match item with
    | .mapping start tag [(key, value)] =>
      simp only [pairsOf, bind_eq_ok_iff, pure_eq_ok_iff] at hxs
      obtain ⟨k, hk, v, hv, rest, hrest, rfl⟩ := hxs
      have hmem : (key, value) ∈ (Node.mapping start tag [(key, value)]).entries :=
        List.mem_singleton_self _
      have hpair : ∀ x ∈ [k, v], x.WellKeyed := by
        rw [List.forall_mem_cons, List.forall_mem_singleton]
        exact ⟨hitem key (Node.key_mem_parts hmem) k hk,
          hitem value (Node.value_mem_parts hmem) v hv⟩
      refine List.forall_mem_cons.2 ⟨?_, ih hitems hrest⟩
      simpa only [WellKeyed, all, Bool.true_and, allOf_eq_true_iff] using hpair
    | .mapping _ _ [] | .mapping _ _ (_ :: _ :: _) | .scalar .. | .sequence .. | .again _ =>
      cases hxs

theorem keyed_ofEntries {entries : List (Node × Node)}
    (h : ∀ entry ∈ entries, ReadsKeyed (ofNode inner entry.2) ∧
      ∀ merged, mergedEntries inner entry.2 = .ok merged → Keyed merged)
    {r : List (Value × Value) × List (Value × Value)} (hr : ofEntries inner entries = .ok r) :
    Keyed r.1 ∧ Keyed r.2 := by
  induction entries generalizing r with
  | nil =>
    obtain rfl := Except.ok.inj hr
    exact ⟨.nil, .nil⟩
  | cons entry entries ih =>
    obtain ⟨⟨hvalue, hmerged⟩, hentries⟩ := List.forall_mem_cons.1 h
    obtain ⟨key, value⟩ := entry
    rw [ofEntries, bind_eq_ok_iff] at hr
    obtain ⟨⟨merged, own⟩, hrest, hr⟩ := hr
    obtain ⟨ihmerged, ihown⟩ := ih hentries hrest
    dsimp only at hr
    split at hr
    · simp only [bind_eq_ok_iff, pure_eq_ok_iff] at hr
      obtain ⟨more, hmore, rfl⟩ := hr
      exact ⟨(hmerged more hmore).append ihmerged, ihown⟩
    · simp only [bind_eq_ok_iff, pure_eq_ok_iff, asKey_eq_ok_iff] at hr
      obtain ⟨k, hk, _, ⟨rfl, hkey⟩, v, hv, rfl⟩ := hr
      exact ⟨ihmerged, List.forall_mem_cons.2 ⟨hkey, ihown.isKey⟩,
        List.forall_mem_cons.2 ⟨hvalue v hv, ihown.values⟩⟩

theorem keyed_mergedLists {items : List Node}
    (h : ∀ item ∈ items, ∀ merged, mergedEntries inner item = .ok merged → Keyed merged)
    {lists : List (List (Value × Value))} (hlists : mergedLists inner items = .ok lists) :
    ∀ merged ∈ lists, Keyed merged := by
  induction items generalizing lists with
  | nil =>
    obtain rfl := Except.ok.inj hlists
    exact List.forall_mem_nil _
  | cons item items ih =>
    obtain ⟨hitem, hitems⟩ := List.forall_mem_cons.1 h
    simp only [mergedLists, bind_eq_ok_iff, pure_eq_ok_iff] at hlists
    obtain ⟨merged, hmerged, rest, hrest, rfl⟩ := hlists
    exact List.forall_mem_cons.2 ⟨hitem merged hmerged, ih hitems hrest⟩

theorem keyed_flatten {lists : List (List (Value × Value))} (h : ∀ merged ∈ lists, Keyed merged) :
    Keyed lists.flatten := by
  constructor
  · intro entry hentry
    obtain ⟨merged, hmerged, hentry⟩ := List.mem_flatten.1 hentry
    exact (h merged hmerged).isKey entry hentry
  · intro entry hentry
    obtain ⟨merged, hmerged, hentry⟩ := List.mem_flatten.1 hentry
    exact (h merged hmerged).values entry hentry

theorem ReadsKeyed.list {x : Except Failure (List Value)}
    (h : ∀ xs, x = .ok xs → ∀ v ∈ xs, v.WellKeyed) : ReadsKeyed (do return .list (← x)) := by
  intro v hv
  obtain ⟨xs, hxs, hv⟩ := bind_eq_ok_iff.1 hv
  obtain rfl := pure_eq_ok_iff.1 hv
  exact wellKeyed_list_iff.2 (h xs hxs)

theorem readsKeyed_sequence {start : Nat} {tag : Tag} {items : List Node}
    (hitems : ∀ item ∈ items, ReadsKeyed (ofNode inner item))
    (hpairs : ∀ item ∈ items, ∀ p ∈ item.parts, ReadsKeyed (ofNode inner p)) :
    ReadsKeyed (ofNode inner (.sequence start tag items)) := by
  rw [ofNode.eq_def]
  dsimp only
  split
  · exact .list fun xs hxs => keyed_ofNodes hitems hxs
  · exact .list fun xs hxs => keyed_pairsOf hpairs hxs
  · exact .list fun xs hxs => keyed_pairsOf hpairs hxs
  · intro v hv
    cases hv

theorem readsKeyed_mapping {start : Nat} {tag : Tag} {entries : List (Node × Node)}
    (hread : ∀ r, ofEntries inner entries = .ok r → Keyed (r.1 ++ r.2)) :
    ReadsKeyed (ofNode inner (.mapping start tag entries)) := by
  have hmapping : ∀ tag : Tag, ReadsKeyed (do
      let r ← ofEntries inner entries
      return mappingOf tag (r.1 ++ r.2)) := by
    intro tag v hv
    obtain ⟨r, hr, hv⟩ := bind_eq_ok_iff.1 hv
    obtain rfl := pure_eq_ok_iff.1 hv
    exact wellKeyed_mappingOf (hread r hr)
  rw [ofNode.eq_def]
  dsimp only
  split
  · exact hmapping _
  · exact hmapping _
  · intro v hv
    obtain ⟨text, -, hv⟩ := bind_eq_ok_iff.1 hv
    exact wellKeyed_of_isScalar (isScalar_of_readScalar hv)

/-- **What a node is read as keeps its keys apart,** if the values of marks do; so do the entries
that are merged from it. -/
theorem wellKeyed_ofNode (hinner : ∀ l, ReadsKeyed (inner l)) (n : Node) :
    ReadsKeyed (ofNode inner n) ∧
      (∀ merged, mergedEntries inner n = .ok merged → Keyed merged) ∧
      ∀ p ∈ n.parts, ReadsKeyed (ofNode inner p) := by
  induction n using Node.inductionOn with
  | node n ih =>
    have hparts : ∀ p ∈ n.parts, ReadsKeyed (ofNode inner p) := fun p hp => (ih p hp).1
    cases n with
    | scalar start tag text =>
      refine ⟨fun v hv => wellKeyed_of_isScalar (isScalar_of_readScalar hv), ?_, hparts⟩
      intro merged hmerged
      cases hmerged
    | again l =>
      refine ⟨hinner l, ?_, hparts⟩
      intro merged hmerged
      cases hmerged
    | sequence start tag items =>
      refine ⟨readsKeyed_sequence hparts fun item hitem => (ih item hitem).2.2, ?_, hparts⟩
      intro merged hmerged
      simp only [mergedEntries, bind_eq_ok_iff, pure_eq_ok_iff] at hmerged
      obtain ⟨lists, hlists, rfl⟩ := hmerged
      have hkeyed := keyed_mergedLists (fun item hitem => (ih item hitem).2.1) hlists
      exact keyed_flatten fun merged hmem => hkeyed merged (List.mem_reverse.1 hmem)
    | mapping start tag entries =>
      have hread : ∀ r, ofEntries inner entries = .ok r → Keyed (r.1 ++ r.2) := by
        intro r hr
        obtain ⟨hmerged, hown⟩ := keyed_ofEntries (fun entry hentry =>
          (ih _ (Node.value_mem_parts hentry)).imp_right And.left) hr
        exact hmerged.append hown
      refine ⟨readsKeyed_mapping hread, ?_, hparts⟩
      intro merged hmerged
      simp only [mergedEntries, bind_eq_ok_iff, pure_eq_ok_iff] at hmerged
      obtain ⟨r, hr, rfl⟩ := hmerged
      exact hread r hr

end

/-! ## Replaced marks -/

/-- No mark is in a key, so keys stay as they are. -/
theorem map_fst_fillEntries {mark : Loop → Value} {entries : List (Value × Value)}
    (h : ∀ k ∈ entries.map Prod.fst, k.isLoopFree = true) :
    (fillEntries mark entries).map Prod.fst = entries.map Prod.fst := by
  induction entries with
  | nil => rfl
  | cons entry entries ih =>
    obtain ⟨hkey, hkeys⟩ := List.forall_mem_cons.1 h
    have hnone : ∀ l ∈ entry.1.marks, mark l = .again l := by
      rw [isLoopFree_iff.1 hkey]
      exact List.forall_mem_nil _
    rw [fillEntries, List.map_cons, List.map_cons, fill_eq_self _ hnone, ih hkeys]

mutual

/-- **Marks can be replaced by values that keep their keys apart.** -/
theorem wellKeyed_fill {mark : Loop → Value} (hmark : ∀ l, (mark l).WellKeyed) :
    (v : Value) → v.WellKeyed → (v.fill mark).WellKeyed
  | list xs, h | tuple xs, h | set xs, h => by
    simp only [WellKeyed, fill, all, Bool.true_and, allOf_eq_true_iff] at h ⊢
    exact wellKeyed_fillAll hmark xs h
  | map entries, h => by
    obtain ⟨hapart, hentries⟩ := wellKeyed_map_iff.1 h
    refine wellKeyed_map_iff.2 ⟨?_, wellKeyed_fillEntries hmark entries hentries⟩
    rw [keysApart_iff] at hapart ⊢
    rwa [map_fst_fillEntries hapart.1]
  | again l, _ => hmark l
  | null, h | bool _, h | num _, h | str _, h | date _, h | moment _ _, h | bytes _, h => h

theorem wellKeyed_fillAll {mark : Loop → Value} (hmark : ∀ l, (mark l).WellKeyed) :
    (xs : List Value) → (∀ x ∈ xs, x.WellKeyed) → ∀ x ∈ fillAll mark xs, x.WellKeyed
  | [], _ => List.forall_mem_nil _
  | x :: xs, h => by
    obtain ⟨hx, hxs⟩ := List.forall_mem_cons.1 h
    exact List.forall_mem_cons.2 ⟨wellKeyed_fill hmark x hx, wellKeyed_fillAll hmark xs hxs⟩

theorem wellKeyed_fillEntries {mark : Loop → Value} (hmark : ∀ l, (mark l).WellKeyed) :
    (entries : List (Value × Value)) →
      (∀ entry ∈ entries, entry.1.WellKeyed ∧ entry.2.WellKeyed) →
    ∀ entry ∈ fillEntries mark entries, entry.1.WellKeyed ∧ entry.2.WellKeyed
  | [], _ => List.forall_mem_nil _
  | (key, value) :: entries, h => by
    obtain ⟨⟨hkey, hvalue⟩, hentries⟩ := List.forall_mem_cons.1 h
    have hentry := And.intro (wellKeyed_fill hmark key hkey) (wellKeyed_fill hmark value hvalue)
    exact List.forall_mem_cons.2 ⟨hentry, wellKeyed_fillEntries hmark entries hentries⟩

end

/-- What a mark is replaced by keeps its keys apart if all bodies do. -/
theorem wellKeyed_enter {loops : Loops Value} (h : ∀ entry ∈ loops, entry.2.WellKeyed) (l : Loop) :
    (loops.enter .again fill l).WellKeyed := by
  induction hn : loops.length using Nat.strong_induction_on generalizing loops l with
  | _ n ih =>
    rw [Loops.enter_eq]
    cases hl : loops.lookup l with
    | none => rfl
    | some body =>
      have hrest : ∀ entry ∈ loops.without l, entry.2.WellKeyed :=
        fun entry hentry => h entry (List.mem_filter.1 hentry).1
      have hbody : body.WellKeyed := by
        obtain ⟨before, after, hloops, -⟩ := List.lookup_eq_some_iff.1 hl
        exact h (l, body) (hloops ▸ by simp)
      exact wellKeyed_fill
        (fun k => ih _ (hn ▸ Loops.length_without_lt hl) hrest k rfl) body hbody

end Value

end RegisterLayout
