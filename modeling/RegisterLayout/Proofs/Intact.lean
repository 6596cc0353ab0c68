import RegisterLayout.Proofs.AdmissionSteps

/-!
# Marks of admitted documents

A document is admitted node by node.  Where no key of it merges, the marks stand afterwards for
what they stood for before, but for those of collections that count as a scalar: such a mark then
stands for that scalar.  The marks that were met are those of collections that count as such.

Principal definitions: `Looped.MergeFree`, `Intact`.
Principal result: `intact_of_admittedLoops`.
-/

namespace RegisterLayout

open Document Admission

/-- No key in a document merges another mapping into its own. -/
def Looped.MergeFree (document : Looped Node) : Prop :=
  ∀ n ∈ document.nodes, ∀ entry ∈ n.entries,
    (entry.1.opened document.loops).tag? ≠ some .merge

/-- A node of a document that counts as a collection by its tag; a mark without a body does. -/
def Looped.Collects (document : Looped Node) (n : Node) : Prop :=
  ∀ tag, (n.opened document.loops).tag? = some tag → tag.isCollection = true

/-- Marks stand for what they stood for in a document, or for the scalars that they count as; those
that were met count as collections. -/
structure Intact (document : Looped Node) (loops : Loops Node) (met : List Loop) : Prop where
  lookup : ∀ l, loops.lookup l = document.loops.lookup l ∨
    ¬document.Collects (.again l) ∧
      ∃ tag text, loops.lookup l = some (.scalar 0 tag text) ∧ tag.isScalar = true
  met : ∀ l ∈ met, document.Collects (.again l)

theorem Loops.lookup_put {α : Type} (loops : Loops α) (l k : Loop) (body : α) :
    (loops.put l body).lookup k = if k = l then some body else loops.lookup k := by
  by_cases h : k = l
  · simp [Loops.put, h]
  · have hne : (k == l) = false := by simpa using h
    rw [Loops.put, List.lookup_cons, hne, Loops.lookup_without_of_ne _ h, if_neg h]

namespace Intact

variable {document : Looped Node} {loops : Loops Node} {met : List Loop}

theorem put_scalar (h : Intact document loops met) {l : Loop} (hl : ¬document.Collects (.again l))
    {tag : Tag} (htag : tag.isScalar = true) (text : Text) :
    Intact document (loops.put l (.scalar 0 tag text)) met := by
  refine ⟨fun k => ?_, h.met⟩
  rw [Loops.lookup_put]
  by_cases hk : k = l
  · subst hk
    rw [if_pos rfl]
    exact .inr ⟨hl, tag, text, rfl, htag⟩
  · rw [if_neg hk]
    exact h.lookup k

theorem meet (h : Intact document loops met) {l : Loop} (hl : document.Collects (.again l)) :
    Intact document loops (l :: met) :=
  ⟨h.lookup, List.forall_mem_cons.2 ⟨hl, h.met⟩⟩

/-- A node that is opened is what it was in the document, or the scalar that it counts as. -/
theorem opened (h : Intact document loops met) (n : Node) :
    n.opened loops = n.opened document.loops ∨
      ¬document.Collects n ∧ ∃ tag text, n.opened loops = .scalar 0 tag text ∧
        tag.isScalar = true := by
  cases n with
  | again l =>
    rcases h.lookup l with hl | ⟨hcollects, tag, text, hl, htag⟩
    · exact .inl (by simp [Node.opened, hl])
    · exact .inr ⟨hcollects, tag, text, by simp [Node.opened, hl], htag⟩
  | _ => exact .inl rfl

/-- A mark that was met stands for what it stood for. -/
theorem opened_of_met (h : Intact document loops met) {l : Loop} (hl : l ∈ met) :
    (Node.again l).opened loops = (Node.again l).opened document.loops :=
  (h.opened (.again l)).resolve_right fun hscalar => hscalar.1 (h.met l hl)

end Intact

/-! ## The steps of an admission -/

section

variable {α : Type} {document : Looped Node} {n : Node}

/-- A step after which marks are intact still. -/
abbrev KeepsIntact (document : Looped Node) (post : α → Prop) (x : Admit α) : Prop :=
  Keeps (fun a => Intact document a.loops a.met) (fun _ => True) post x

theorem intact_refuse {post : α → Prop} : KeepsIntact document post refuse := .throw trivial

/-- What a node is when it is opened during an admission. -/
def OpenedAs (document : Looped Node) (n m : Node) : Prop :=
  m = n.opened document.loops ∨
    ¬document.Collects n ∧ ∃ tag text, m = .scalar 0 tag text ∧ tag.isScalar = true

theorem intact_opened (n : Node) : KeepsIntact document (OpenedAs document n) (opened n) :=
  .bind .get fun _ ha => .pure (ha.opened n)

/-- The tag that counts for a node is that of a collection if the node counts as one. -/
theorem intact_tagOf (n : Node) :
    KeepsIntact document (fun tag => tag.isCollection = true ↔ document.Collects n) (tagOf n) := by
  refine keeps_tagOf id (fun a ha tag htag => ?_) fun a ha hmark => iff_of_true rfl ?_
  · rcases ha.opened n with hm | ⟨hnot, tag', text, hm, hscalar⟩
    · rw [hm] at htag
      refine ⟨fun h tag' htag' => ?_, fun h => h tag htag⟩
      obtain rfl := Option.some.inj (htag.symm.trans htag')
      exact h
    · rw [hm] at htag
      obtain rfl := Option.some.inj htag
      refine iff_of_false ?_ hnot
      cases tag' <;> simp_all [Tag.isScalar, Tag.isCollection]
  · intro tag htag
    rcases ha.opened n with hm | ⟨-, _, _, hm, -⟩
    · rw [hm, htag] at hmark
      cases hmark
    · rw [hm] at hmark
      cases hmark

/-- The tag that counts for a node that does not merge is none that merges. -/
theorem intact_tagOf_ne (h : (n.opened document.loops).tag? ≠ some .merge) :
    KeepsIntact document (· ≠ .merge) (tagOf n) := by
  refine keeps_tagOf (fun _ => by decide) (fun a ha tag htag hmerge => ?_) fun _ _ _ => by decide
  subst hmerge
  rcases ha.opened n with hm | ⟨-, tag, text, hm, hscalar⟩
  · exact h (hm ▸ htag)
  · rw [hm] at htag
    obtain rfl := Option.some.inj htag
    cases hscalar

theorem intact_entriesOf (hn : n ∈ document.nodes) :
    KeepsIntact document (fun entries => ∃ m ∈ document.nodes, m.entries = entries)
      (entriesOf n) := by
  refine (intact_opened n).bind fun m hm => ?_
  split
  · next start tag entries =>
    rcases hm with hm | ⟨-, tag, text, hm, -⟩
    · exact .pure ⟨_, Looped.opened_mem_nodes hn, hm ▸ rfl⟩
    · cases hm
  · exact intact_refuse

theorem intact_cutAtMerge {entries : List (Node × Node)}
    (h : ∀ entry ∈ entries, (entry.1.opened document.loops).tag? ≠ some .merge) :
    KeepsIntact document (· = (entries, none)) (cutAtMerge entries) := by
  induction entries with
  | nil => exact .pure rfl
  | cons entry entries ih =>
    obtain ⟨hentry, hentries⟩ := List.forall_mem_cons.1 h
    refine (intact_tagOf_ne hentry).bind fun tag htag => .ite (fun heq => absurd heq htag)
      fun _ => ?_
    refine (ih hentries).bind fun r hr => ?_
    subst hr
    exact .pure rfl

/-- Nothing is merged where no key merges. -/
theorem intact_merge (hdocument : document.MergeFree) (hn : n ∈ document.nodes) (fuel : Nat) :
    KeepsIntact document (fun entries => ∃ m ∈ document.nodes, m.entries = entries)
      (merge fuel n) := by
  cases fuel with
  | zero => exact .throw trivial
  | succ fuel =>
    unfold merge
    refine (intact_entriesOf hn).bind fun entries ⟨m, hm, hentries⟩ => ?_
    subst hentries
    refine (intact_cutAtMerge (hdocument m hm)).bind fun r hr => ?_
    subst hr
    exact (keeps_takeKeysForTexts (fun _ _ ha => ha) _).bind fun _ _ => .pure ⟨m, hm, rfl⟩

theorem intact_meet (hn : n ∈ document.nodes) (fuel : Nat) :
    KeepsIntact document (fun waiting => ∀ m ∈ waiting, m ∈ document.nodes) (meet fuel n) := by
  refine (keeps_meet (intact_tagOf n) ?_ ?_ fuel).imp fun waiting h m hm => h m hm ▸ hn
  · rintro l tag rfl htag hcollection a ha
    exact ha.meet (htag.1 hcollection)
  · rintro l tag text rfl htag hcollection hscalar a ha
    exact ha.put_scalar (fun h => hcollection (htag.2 h)) hscalar text

theorem intact_meetKey (hn : n ∈ document.nodes) (fuel : Nat) :
    KeepsIntact document (fun _ => True) (meetKey fuel n) :=
  (intact_tagOf n).bind fun _ _ => .refuse (fun _ => trivial) fun _ =>
    (intact_meet hn fuel).bind fun _ _ => .pure trivial

theorem intact_pairOf (hn : n ∈ document.nodes) :
    KeepsIntact document (fun pair => pair.1 ∈ document.nodes ∧ pair.2 ∈ document.nodes)
      (pairOf n) := by
  refine (intact_entriesOf hn).bind fun entries ⟨m, hm, hentries⟩ => ?_
  rcases entries with _ | ⟨pair, _ | ⟨other, more⟩⟩
  · exact intact_refuse
  · have hpair : pair ∈ m.entries := hentries ▸ List.mem_cons_self
    exact .pure ⟨Looped.part_mem_nodes hm (Node.key_mem_parts hpair),
      Looped.part_mem_nodes hm (Node.value_mem_parts hpair)⟩
  · exact intact_refuse

theorem intact_pairs {items : List Node} (hitems : ∀ item ∈ items, item ∈ document.nodes)
    (fuel : Nat) :
    KeepsIntact document (fun waiting => ∀ m ∈ waiting, m ∈ document.nodes) (do
      let waiting ← items.mapM fun item => do
        let (key, value) ← pairOf item
        return (← meet fuel key) ++ (← meet fuel value)
      return waiting.flatten) := by
  refine keeps_waiting fun item hitem => (intact_pairOf (hitems item hitem)).bind
    fun pair ⟨hkey, hvalue⟩ => (intact_meet hkey fuel).bind fun keys hkeys =>
      (intact_meet hvalue fuel).bind fun values hvalues => .pure ?_
  exact List.forall_mem_append.2 ⟨hkeys, hvalues⟩

theorem intact_mapping (hdocument : document.MergeFree) (hn : n ∈ document.nodes) (fuel : Nat) :
    KeepsIntact document (fun waiting => ∀ m ∈ waiting, m ∈ document.nodes) (do
      let waiting ← (← merge fuel n).mapM fun (key, value) => do
        meetKey fuel key
        meet fuel value
      return waiting.flatten) := by
  refine (intact_merge hdocument hn fuel).bind fun entries ⟨m, hm, hentries⟩ => ?_
  subst hentries
  refine keeps_waiting fun entry hentry => ?_
  exact (intact_meetKey (Looped.part_mem_nodes hm (Node.key_mem_parts hentry)) fuel).bind
    fun _ _ => intact_meet (Looped.part_mem_nodes hm (Node.value_mem_parts hentry)) fuel

theorem intact_takeTurn (hdocument : document.MergeFree) (hn : n ∈ document.nodes) (fuel : Nat) :
    KeepsIntact document (fun waiting => ∀ m ∈ waiting, m ∈ document.nodes)
      (takeTurn fuel n) := by
  refine (intact_opened n).bind fun m hm => ?_
  have hparts : ∀ item ∈ m.parts, item ∈ document.nodes := by
    rcases hm with rfl | ⟨-, tag, text, rfl, -⟩
    · exact fun item hitem => Looped.part_mem_nodes (Looped.opened_mem_nodes hn) hitem
    · exact nofun
  split
  · exact keeps_waiting fun item hitem => intact_meet (hparts item hitem) fuel
  · exact intact_pairs hparts fuel
  · exact intact_pairs hparts fuel
  · exact intact_mapping hdocument hn fuel
  · exact intact_mapping hdocument hn fuel
  · exact intact_refuse

theorem intact_takeTurns (hdocument : document.MergeFree) (fuel levels : Nat)
    {waiting : List Node} (hwaiting : ∀ m ∈ waiting, m ∈ document.nodes) :
    KeepsIntact document (fun _ => True) (takeTurns fuel levels waiting) := by
  induction levels generalizing waiting with
  | zero => exact .throw trivial
  | succ levels ih =>
    unfold takeTurns
    exact (Keeps.flatten_mapM fun m hm => intact_takeTurn hdocument (hwaiting m hm) fuel).bind
      fun next hnext => .ite (fun _ => ih hnext) fun _ => .pure trivial

end

/-- **Admission leaves the marks of a document intact** if none of its keys merges. -/
theorem intact_of_admittedLoops {document : Looped Node} {admitted : Loops Node × List Loop}
    (hdocument : document.MergeFree) (h : admittedLoops document = .ok admitted) :
    Intact document admitted.1 admitted.2 := by
  have hrun : ∀ fuel, KeepsIntact document (fun _ => True) (do
      let waiting ← meet fuel document.root
      takeTurns fuel (fuel + 1) waiting) := fun fuel =>
    (intact_meet document.root_mem_nodes fuel).bind fun waiting hwaiting =>
      intact_takeTurns hdocument fuel _ hwaiting
  obtain ⟨r, hr, h⟩ := bind_eq_ok_iff.1 h
  obtain rfl := pure_eq_ok_iff.1 h
  exact ((hrun _ _ ⟨fun _ => .inl rfl, List.forall_mem_nil _⟩).1 r hr).2

end RegisterLayout
