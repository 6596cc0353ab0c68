import Mathlib.Algebra.Order.BigOperators.Group.List
import Mathlib.Algebra.Order.Group.Nat
import RegisterLayout.Proofs.AdmissionSteps
import RegisterLayout.Proofs.ScalarReading

/-!
# Admission of documents without cycles

Where no collection contains itself, no way down in a document is longer than the count of its
nodes, so admission comes to an end.  It meets no mark, and it refuses a document as malformed or
because a node does not hold what its tag asks for, and for no other reason.

Principal definitions: `Looped.Acyclic`, `Node.Misreads`, `Node.Refused`.
Principal result: `admittedLoops_of_acyclic`.
-/

namespace RegisterLayout

open Document Admission

/-- A document in which no collection contains itself. -/
def Looped.Acyclic (document : Looped Node) : Prop :=
  ∀ n ∈ document.root.nodes, n.isAgain = false

namespace Document.Node

/-- A node in a tree does not hold what its tag asks for: its text, or that of a scalar within it,
is none of that kind, or a time is asked of what is no scalar. -/
def Misreads (root : Node) (e : Failure) : Prop :=
  ∃ n ∈ root.nodes, ∃ tag, n.tag? = some tag ∧
    ((∃ m ∈ n.nodes, ∃ text, m.text? = some text ∧ Value.readScalar tag text = .error e) ∨
      tag = .timestamp ∧ n.text? = none ∧ e = .wrongType)

/-- Why a tree without marks is refused. -/
def Refused (root : Node) (e : Failure) : Prop := e = .malformedText ∨ root.Misreads e

/-! ## Sizes -/

theorem sizeAll_eq_sum (ns : List Node) : sizeAll ns = (ns.map size).sum := by
  induction ns with
  | nil => rfl
  | cons n ns ih => rw [sizeAll, ih, List.map_cons, List.sum_cons]

theorem sizeEntries_eq_sum (entries : List (Node × Node)) :
    sizeEntries entries = (entries.map fun entry => entry.1.size + entry.2.size).sum := by
  induction entries with
  | nil => rfl
  | cons entry entries ih => rw [sizeEntries, ih, List.map_cons, List.sum_cons]

theorem size_pos (n : Node) : 0 < n.size := by
  cases n <;> simp [size]

theorem size_lt_of_mem_parts {p n : Node} (h : p ∈ n.parts) : p.size < n.size := by
  cases n with
  | sequence start tag items =>
    have hle := List.le_sum_of_mem (List.mem_map_of_mem (f := size) (l := items) h)
    rw [size, sizeAll_eq_sum]
    omega
  | mapping start tag entries =>
    obtain ⟨entry, hentry, hp⟩ := mem_parts_mapping.1 h
    have hle := List.le_sum_of_mem
      (List.mem_map_of_mem (f := fun entry : Node × Node => entry.1.size + entry.2.size) hentry)
    rw [size, sizeEntries_eq_sum]
    rcases hp with rfl | rfl <;> omega
  | _ => cases h

end Document.Node

/-! ## The steps of an admission -/

section

variable {α β : Type} {root n : Node} {fuel : Nat}

/-- A step that meets no mark and fails only where the tree is refused. -/
abbrev Admits (root : Node) (post : α → Prop) (x : Admit α) : Prop :=
  Keeps (fun a => a.met = []) root.Refused post x

/-- A node of a tree that is smaller than some node. -/
def Document.Node.Inside (root n m : Node) : Prop := m ∈ root.nodes ∧ m.size < n.size

theorem admits_refuse {post : α → Prop} : Admits root post refuse := .throw (.inl rfl)

theorem admits_opened (hn : n.isAgain = false) : Admits root (· = n) (opened n) :=
  .bind .get fun a _ => .pure (Node.opened_of_not_again hn a.loops)

theorem admits_tagOf (hn : n.isAgain = false) :
    Admits root (fun tag => tag = .str ∨ n.tag? = some tag) (tagOf n) := by
  refine keeps_tagOf (fun _ => .inl rfl) (fun a _ tag htag => ?_) fun a _ hmark => ?_
  · rw [Node.opened_of_not_again hn] at htag
    exact .inr htag
  · rw [Node.opened_of_not_again hn] at hmark
    cases n with
    | again l => cases hn
    | _ => cases hmark

theorem admits_entriesOf (hn : n.isAgain = false) :
    Admits root (fun entries => ∃ start tag, n = .mapping start tag entries) (entriesOf n) := by
  refine (admits_opened hn).bind fun m hm => ?_
  rw [hm]
  split
  · exact .pure ⟨_, _, rfl⟩
  · exact admits_refuse

theorem admits_setEntries {start : Nat} {tag : Tag} {old entries : List (Node × Node)} :
    Admits root (· = .mapping start tag entries)
      (setEntries (.mapping start tag old) entries) := by
  refine (admits_opened rfl).bind fun m hm => ?_
  subst hm
  exact .pure rfl

theorem admits_cutAtMerge {entries : List (Node × Node)}
    (h : ∀ entry ∈ entries, entry.1.isAgain = false) :
    Admits root (fun r => (r.2 = none ∧ r.1 = entries) ∨
      ∃ key value after, r.2 = some (value, after) ∧ entries = r.1 ++ (key, value) :: after)
      (cutAtMerge entries) := by
  induction entries with
  | nil => exact .pure (.inl ⟨rfl, rfl⟩)
  | cons entry entries ih =>
    obtain ⟨hentry, hentries⟩ := List.forall_mem_cons.1 h
    refine (admits_tagOf hentry).bind fun tag _ => .ite (fun _ => ?_) fun _ => ?_
    · exact .pure (.inr ⟨entry.1, entry.2, entries, rfl, rfl⟩)
    · refine (ih hentries).bind fun r hr => .pure ?_
      rcases hr with ⟨hnone, hbefore⟩ | ⟨key, value, after, hsome, hentries⟩
      · exact .inl ⟨hnone, congrArg _ hbefore⟩
      · exact .inr ⟨key, value, after, hsome, congrArg _ hentries⟩

/-- A list of entries that stand inside a node. -/
def EntriesInside (root n : Node) (entries : List (Node × Node)) : Prop :=
  ∀ entry ∈ entries, root.Inside n entry.1 ∧ root.Inside n entry.2

theorem inside_of_mem_parts {p : Node} (hparts : ∀ p ∈ n.parts, p ∈ root.nodes)
    (h : p ∈ n.parts) : root.Inside n p :=
  ⟨hparts p h, Node.size_lt_of_mem_parts h⟩

theorem EntriesInside.of_parts {start : Nat} {tag : Tag} {entries : List (Node × Node)}
    (hparts : ∀ p ∈ (Node.mapping start tag entries).parts, p ∈ root.nodes) :
    EntriesInside root (.mapping start tag entries) entries := fun _ hentry =>
  ⟨inside_of_mem_parts hparts (Node.key_mem_parts hentry),
    inside_of_mem_parts hparts (Node.value_mem_parts hentry)⟩

theorem EntriesInside.mono {m : Node} {entries : List (Node × Node)}
    (h : EntriesInside root m entries) (hsize : m.size ≤ n.size) : EntriesInside root n entries :=
  fun entry hentry => ⟨⟨(h entry hentry).1.1, (h entry hentry).1.2.trans_le hsize⟩,
    (h entry hentry).2.1, (h entry hentry).2.2.trans_le hsize⟩

theorem parts_mem_nodes (hn : n ∈ root.nodes) : ∀ p ∈ n.parts, p ∈ root.nodes :=
  fun _ hp => Node.mem_nodes_trans hn (Node.mem_nodes_of_parts hp)

/-- Before the rest, a mapping takes over entries from the value of a key that merges. -/
theorem admits_taken (hroot : ∀ n ∈ root.nodes, n.isAgain = false) {value : Node}
    (hvalue : root.Inside n value)
    (hmerge : ∀ m, root.Inside n m → Admits root (EntriesInside root n) (merge fuel m))
    {post : α → Prop} {rest : List (Node × Node) → Admit α}
    (hrest : ∀ taken, EntriesInside root n taken → Admits root post (rest taken)) :
    Admits root post (do
      match ← opened value with
      | .mapping .. => rest (← merge fuel value)
      | .sequence _ _ items => rest (← items.mapM (merge fuel)).reverse.flatten
      | _ => rest (← refuse)) := by
  refine (admits_opened (hroot value hvalue.1)).bind fun m hm => ?_
  subst hm
  split
  · exact (hmerge _ hvalue).bind hrest
  · next start tag items =>
    have hitems : ∀ item ∈ items, root.Inside n item := fun item hitem =>
      ⟨parts_mem_nodes hvalue.1 item hitem,
        (Node.size_lt_of_mem_parts (n := .sequence start tag items) hitem).trans hvalue.2⟩
    refine (Keeps.flatten_mapM fun item hitem => hmerge item (hitems item hitem)).bind
      fun taken htaken => hrest _ fun entry hentry => htaken entry ?_
    exact (taken.reverse_perm.flatten).subset hentry
  · exact admits_refuse.bind hrest

/-- A mapping takes over entries of the nodes inside it, and the way there is no longer than its
size. -/
theorem admits_merge (hroot : ∀ n ∈ root.nodes, n.isAgain = false) (hn : n.isAgain = false)
    (hparts : ∀ p ∈ n.parts, p ∈ root.nodes) (hfuel : n.size ≤ fuel) :
    Admits root (EntriesInside root n) (merge fuel n) := by
  induction fuel generalizing n with
  | zero => exact absurd hfuel (Nat.not_le.2 n.size_pos)
  | succ fuel ih =>
    have hinside : ∀ m, root.Inside n m → m.size ≤ fuel := fun m hm => by
      have hlt := hm.2
      omega
    have hmerge : ∀ m, root.Inside n m → Admits root (EntriesInside root n) (merge fuel m) :=
      fun m hm => (ih (hroot m hm.1) (parts_mem_nodes hm.1) (hinside m hm)).imp fun _ h =>
        h.mono hm.2.le
    unfold merge
    refine (admits_entriesOf hn).bind fun entries ⟨start, tag, heq⟩ => ?_
    subst heq
    have hentries : EntriesInside root _ entries := .of_parts hparts
    have hkeys : ∀ entry ∈ entries, entry.1.isAgain = false := fun entry hentry =>
      hroot _ (hentries entry hentry).1.1
    refine (admits_cutAtMerge hkeys).bind fun r hr => ?_
    rcases hr with ⟨hnone, hbefore⟩ | ⟨key, value, after, hsome, hcut⟩
    · obtain ⟨before, cut⟩ := r
      obtain rfl : cut = none := hnone
      obtain rfl : before = entries := hbefore
      exact (keeps_takeKeysForTexts (fun _ _ ha => ha) _).bind fun _ _ => .pure hentries
    · obtain ⟨before, cut⟩ := r
      obtain rfl : cut = some (value, after) := hsome
      obtain rfl : entries = before ++ (key, value) :: after := hcut
      have hvalue : root.Inside _ value := (hentries (key, value) (by simp)).2
      -- What is left of the mapping is smaller, and its entries are still nodes of the tree.
      have hrest : ∀ p ∈ (Node.mapping start tag (before ++ after)).parts, p ∈ root.nodes := by
        intro p hp
        obtain ⟨entry, hentry, hp⟩ := Node.mem_parts_mapping.1 hp
        have hmem : entry ∈ before ++ (key, value) :: after := by
          rcases List.mem_append.1 hentry with h | h
          · exact List.mem_append_left _ h
          · exact List.mem_append_right _ (List.mem_cons_of_mem _ h)
        rcases hp with rfl | rfl
        · exact (hentries entry hmem).1.1
        · exact (hentries entry hmem).2.1
      have hsize : (Node.mapping start tag (before ++ after)).size <
          (Node.mapping start tag (before ++ (key, value) :: after)).size := by
        have hpos := key.size_pos
        simp only [Node.size, Node.sizeEntries_eq_sum, List.map_append, List.map_cons,
          List.sum_append, List.sum_cons]
        omega
      refine admits_setEntries.bind fun m hm => ?_
      subst hm
      refine admits_taken hroot hvalue hmerge fun taken htaken => ?_
      have hleft : Admits root (EntriesInside root _)
          (merge fuel (.mapping start tag (before ++ after))) :=
        (ih rfl hrest (by omega)).imp fun _ h => h.mono hsize.le
      refine hleft.bind fun left hleft => admits_setEntries.bind fun _ _ => .pure ?_
      exact List.forall_mem_append.2 ⟨htaken, hleft⟩

theorem admits_scalarText (hroot : ∀ n ∈ root.nodes, n.isAgain = false) (hn : n ∈ root.nodes)
    (hfuel : n.size ≤ fuel) :
    Admits root (fun text => ∃ m ∈ n.nodes, m.text? = some text) (scalarText fuel n) := by
  induction fuel generalizing n with
  | zero => exact absurd hfuel (Nat.not_le.2 n.size_pos)
  | succ fuel ih =>
    unfold scalarText
    refine (admits_opened (hroot n hn)).bind fun m hm => ?_
    subst hm
    split
    · exact .pure ⟨_, Node.mem_nodes_self _, rfl⟩
    · next start tag entries =>
      have hkeys : ∀ entry ∈ entries, entry.1.isAgain = false := fun entry hentry =>
        hroot _ (parts_mem_nodes hn _ (Node.key_mem_parts hentry))
      refine (Keeps.findM? fun entry hentry =>
        (admits_tagOf (hkeys entry hentry)).bind fun _ _ => .pure trivial).bind
          fun found hfound => ?_
      split
      · next key value =>
        have hvalue : value ∈ (Node.mapping start tag entries).parts :=
          Node.value_mem_parts (n := .mapping start tag entries) (hfound (key, value) rfl)
        have hlt := Node.size_lt_of_mem_parts hvalue
        refine (ih (parts_mem_nodes hn _ hvalue) (by omega)).imp fun text hfound => ?_
        obtain ⟨m, hm, htext⟩ := hfound
        exact ⟨m, Node.mem_nodes_trans (Node.mem_nodes_of_parts hvalue) hm, htext⟩
      · exact admits_refuse
    · exact admits_refuse

/-- A node that is met waits or is a scalar. -/
theorem admits_meet (hroot : ∀ n ∈ root.nodes, n.isAgain = false) (hn : n ∈ root.nodes)
    (hfuel : n.size ≤ fuel) : Admits root (fun waiting => ∀ m ∈ waiting, m = n) (meet fuel n) := by
  have hagain := hroot n hn
  refine (admits_tagOf hagain).bind fun tag htag => .ite (fun _ => ?_) fun _ => .ite
    (fun _ => admits_refuse) fun _ => ?_
  · split
    · cases hagain
    · exact .pure fun m hm => List.mem_singleton.1 hm
  · refine (admits_scalarText hroot hn hfuel).bind fun text htext =>
      (admits_opened hagain).bind fun m hm => ?_
    extract_lets isPlain stop read
    have hread : ∀ u, Admits root (fun waiting => ∀ m ∈ waiting, m = n) (read u) := by
      intro u
      have hvalue : Admits root (fun _ => True) (liftM (Value.readScalar tag text)) := by
        refine .lift (fun _ _ => trivial) fun e he => .inr ⟨n, hn, tag, ?_, .inl ?_⟩
        · rcases htag with rfl | htag
          · exact absurd he (Value.readScalar_str text e)
          · exact htag
        · obtain ⟨k, hk, hktext⟩ := htext
          exact ⟨k, hk, text, hktext, he⟩
      refine hvalue.bind fun _ _ => ?_
      split
      · cases hagain
      · exact .pure nofun
    refine .refuse (fun hstop => .inr ⟨n, hn, .timestamp, ?_, .inr ⟨rfl, ?_, rfl⟩⟩)
      fun _ => hread ()
    · rcases htag with rfl | htag
      · cases hstop.1
      · rw [htag, hstop.1]
    · have hplain : isPlain = false := by simpa using hstop.2
      rw [← hm]
      cases m with
      | scalar start tag' text' => exact nomatch (show true = false from hplain)
      | _ => rfl

theorem admits_meetKey (hroot : ∀ n ∈ root.nodes, n.isAgain = false) (hn : n ∈ root.nodes)
    (hfuel : n.size ≤ fuel) : Admits root (fun _ => True) (meetKey fuel n) :=
  (admits_tagOf (hroot n hn)).bind fun _ _ => .refuse (fun _ => .inl rfl) fun _ =>
    (admits_meet hroot hn hfuel).bind fun _ _ => .pure trivial

theorem admits_pairOf (hroot : ∀ n ∈ root.nodes, n.isAgain = false) (hn : n ∈ root.nodes) :
    Admits root (fun pair => root.Inside n pair.1 ∧ root.Inside n pair.2) (pairOf n) := by
  refine (admits_entriesOf (hroot n hn)).bind fun entries ⟨start, tag, heq⟩ => ?_
  subst heq
  have hentries := EntriesInside.of_parts (parts_mem_nodes hn)
  match entries with
  | [pair] => exact .pure (hentries pair (List.mem_singleton_self pair))
  | [] => exact admits_refuse
  | _ :: _ :: _ => exact admits_refuse

theorem admits_meet_inside (hroot : ∀ n ∈ root.nodes, n.isAgain = false) {m : Node}
    (hm : root.Inside n m) (hfuel : n.size ≤ fuel) :
    Admits root (fun waiting => ∀ k ∈ waiting, root.Inside n k) (meet fuel m) := by
  have hlt := hm.2
  refine (admits_meet hroot hm.1 (by omega)).imp fun waiting h k hk => ?_
  rw [h k hk]
  exact hm

theorem admits_pairs (hroot : ∀ n ∈ root.nodes, n.isAgain = false) {items : List Node}
    (hitems : ∀ item ∈ items, root.Inside n item) (hfuel : n.size ≤ fuel) :
    Admits root (fun waiting => ∀ m ∈ waiting, root.Inside n m) (do
      let waiting ← items.mapM fun item => do
        let (key, value) ← pairOf item
        return (← meet fuel key) ++ (← meet fuel value)
      return waiting.flatten) := by
  refine keeps_waiting fun item hitem => ?_
  have hinside : ∀ m, root.Inside item m → root.Inside n m := fun m hm =>
    ⟨hm.1, hm.2.trans (hitems item hitem).2⟩
  refine (admits_pairOf hroot (hitems item hitem).1).bind fun pair ⟨hkey, hvalue⟩ => ?_
  refine (admits_meet_inside hroot (hinside _ hkey) hfuel).bind fun keys hkeys => ?_
  refine (admits_meet_inside hroot (hinside _ hvalue) hfuel).bind fun values hvalues => .pure ?_
  exact List.forall_mem_append.2 ⟨hkeys, hvalues⟩

/-- What is met when a node has its turn stands inside it. -/
theorem admits_takeTurn (hroot : ∀ n ∈ root.nodes, n.isAgain = false) (hn : n ∈ root.nodes)
    (hfuel : n.size ≤ fuel) :
    Admits root (fun waiting => ∀ m ∈ waiting, root.Inside n m) (takeTurn fuel n) := by
  have hagain := hroot n hn
  have hparts : ∀ p ∈ n.parts, root.Inside n p := fun p hp =>
    inside_of_mem_parts (parts_mem_nodes hn) hp
  have hmapping : Admits root (fun waiting => ∀ m ∈ waiting, root.Inside n m) (do
      let waiting ← (← merge fuel n).mapM fun (key, value) => do
        meetKey fuel key
        meet fuel value
      return waiting.flatten) := by
    refine (admits_merge hroot hagain (parts_mem_nodes hn) hfuel).bind fun entries hentries =>
      keeps_waiting fun entry hentry => ?_
    obtain ⟨hkey, hvalue⟩ := hentries entry hentry
    have hlt := hkey.2
    exact (admits_meetKey hroot hkey.1 (by omega)).bind fun _ _ =>
      admits_meet_inside hroot hvalue hfuel
  refine (admits_opened hagain).bind fun m hm => ?_
  subst hm
  split
  · exact keeps_waiting fun item hitem => admits_meet_inside hroot (hparts item hitem) hfuel
  · exact admits_pairs hroot hparts hfuel
  · exact admits_pairs hroot hparts hfuel
  · exact hmapping
  · exact hmapping
  · exact admits_refuse

theorem admits_takeTurns (hroot : ∀ n ∈ root.nodes, n.isAgain = false) {levels : Nat}
    {waiting : List Node} (hwaiting : ∀ m ∈ waiting, m ∈ root.nodes ∧ m.size ≤ fuel)
    (hlevels : 0 < levels) (hsizes : ∀ m ∈ waiting, m.size ≤ levels) :
    Admits root (fun _ => True) (takeTurns fuel levels waiting) := by
  induction levels generalizing waiting with
  | zero => cases hlevels
  | succ levels ih =>
    unfold takeTurns
    have hturn : ∀ m ∈ waiting, Admits root
        (fun next => ∀ k ∈ next, k ∈ root.nodes ∧ k.size ≤ fuel ∧ k.size ≤ levels)
        (takeTurn fuel m) := by
      intro m hm
      refine (admits_takeTurn hroot (hwaiting m hm).1 (hwaiting m hm).2).imp fun next h k hk => ?_
      have hlt := (h k hk).2
      have hfuel := (hwaiting m hm).2
      have hsize := hsizes m hm
      exact ⟨(h k hk).1, by omega, by omega⟩
    refine (Keeps.flatten_mapM hturn).bind fun next hall =>
      .ite (fun hmore => ?_) fun _ => .pure trivial
    refine ih (fun k hk => ⟨(hall k hk).1, (hall k hk).2.1⟩) ?_ fun k hk => (hall k hk).2.2
    cases hflat : next.flatten with
    | nil => simp [hflat] at hmore
    | cons k ks =>
      have hle := (hall k (hflat ▸ List.mem_cons_self)).2.2
      have hpos := k.size_pos
      omega

end

/-- **Admission of documents without cycles.**  No mark is met on the way, and a document is refused
as malformed or because a node does not hold what its tag asks for. -/
theorem admittedLoops_of_acyclic {document : Looped Node} (h : document.Acyclic) :
    (∀ admitted, admittedLoops document = .ok admitted → admitted.2 = []) ∧
      FailsOnly document.root.Refused (admittedLoops document) := by
  have hrun : ∀ fuel, document.root.size ≤ fuel →
      Admits document.root (fun _ => True) (do
        let waiting ← meet fuel document.root
        takeTurns fuel (fuel + 1) waiting) := by
    intro fuel hfuel
    refine (admits_meet h (Node.mem_nodes_self _) hfuel).bind fun waiting hwaiting => ?_
    have hroot : ∀ m ∈ waiting, m ∈ document.root.nodes ∧ m.size ≤ fuel := by
      intro m hm
      rw [hwaiting m hm]
      exact ⟨Node.mem_nodes_self _, hfuel⟩
    exact admits_takeTurns h hroot (Nat.succ_pos fuel) fun m hm =>
      (hroot m hm).2.trans (Nat.le_succ fuel)
  obtain ⟨hok, hfails⟩ := hrun (document.root.size
    + document.loops.foldr (fun loop nodes => loop.2.size + nodes) 0 + 1) (by omega)
    { loops := document.loops } rfl
  refine ⟨fun admitted hadmitted => ?_, hfails.bind fun _ _ => .pure⟩
  obtain ⟨r, hr, hadmitted⟩ := bind_eq_ok_iff.1 hadmitted
  obtain rfl := pure_eq_ok_iff.1 hadmitted
  exact (hok r hr).2

end RegisterLayout
