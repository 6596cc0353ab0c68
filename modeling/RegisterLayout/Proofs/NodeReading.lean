import RegisterLayout.Proofs.NodeTree
import RegisterLayout.Proofs.Run
import RegisterLayout.Proofs.TokenReading

/-!
# How nodes are read

Reading nodes off tokens fails where no node can be read, where collections stand too deep one
inside the other, or with the fault of the text that the tokens end at.  What stands behind a mark
is a collection, and every node starts where a token starts or stops, and so in the text.

Principal definitions: `Node.Within`, `NodeReader.Sound`.
Principal results: `NodeReader.reads_readDocument`, `Node.ofTokens_sound`,
`Node.exists_chars_of_ofText`.
-/

namespace RegisterLayout.Document

namespace Node

/-- A node in a text of some length, with all below it. -/
def Within (length : Nat) (n : Node) : Prop := ∀ m ∈ n.nodes, m.start ≤ length

theorem within_iff {length : Nat} {n : Node} :
    n.Within length ↔ n.start ≤ length ∧ ∀ p ∈ n.parts, p.Within length := by
  constructor
  · intro h
    exact ⟨h n (mem_nodes_self n), fun p hp m hm => h m (mem_nodes.2 (.inr ⟨p, hp, hm⟩))⟩
  · rintro ⟨hstart, hparts⟩ m hm
    rcases mem_nodes.1 hm with rfl | ⟨p, hp, hm⟩
    · exact hstart
    · exact hparts p hp m hm

theorem within_scalar {length start : Nat} (h : start ≤ length) (tag : Tag) (text : Text) :
    (scalar start tag text).Within length := within_iff.2 ⟨h, List.forall_mem_nil _⟩

theorem within_sequence {length start : Nat} {items : List Node} (h : start ≤ length) (tag : Tag)
    (hitems : ∀ n ∈ items, n.Within length) : (sequence start tag items).Within length :=
  within_iff.2 ⟨h, hitems⟩

theorem within_mapping {length start : Nat} {entries : List (Node × Node)} (h : start ≤ length)
    (tag : Tag) (hentries : ∀ entry ∈ entries, entry.1.Within length ∧ entry.2.Within length) :
    (mapping start tag entries).Within length := by
  refine within_iff.2 ⟨h, fun p hp => ?_⟩
  obtain ⟨entry, hentry, rfl | rfl⟩ := mem_parts_mapping.1 hp
  · exact (hentries entry hentry).1
  · exact (hentries entry hentry).2

/-- A mark has no place of its own. -/
theorem within_again (length : Nat) (l : Loop) : (again l).Within length :=
  within_iff.2 ⟨Nat.zero_le length, List.forall_mem_nil _⟩

end Node

namespace NodeReader

/-- A reader in a text of some length, whose fault is of some sort, and whose marks stand for
collections. -/
structure Sound (faults : Failure → Prop) (length : Nat) (r : NodeReader) : Prop where
  fault : ∀ count e, r.fault = some (count, e) → faults e
  tokens : ∀ t ∈ r.tokens, t.Within length
  anchors : ∀ anchor ∈ r.anchors, anchor.2.Within length
  bodies : ∀ loop ∈ r.loops, loop.2.isAgain = false ∧ loop.2.Within length

/-- What the reading of nodes fails with, given the faults of the text. -/
def Fails (faults : Failure → Prop) (e : Failure) : Prop :=
  e = .malformedText ∨ e = .tooDeep ∨ faults e

/-- A reading that keeps the reader sound, with what is known of its result. -/
abbrev Reads {α : Type} (faults : Failure → Prop) (length : Nat) (post : α → Prop)
    (x : ReadNode α) : Prop := Keeps (Sound faults length) (Fails faults) post x

/-- A reading without a result that matters. -/
abbrev Passes {α : Type} (faults : Failure → Prop) (length : Nat) (x : ReadNode α) : Prop :=
  Reads faults length (fun _ => True) x

abbrev ReadsNode (faults : Failure → Prop) (length : Nat) (x : ReadNode Node) : Prop :=
  Reads faults length (Node.Within length) x

abbrev ReadsItems (faults : Failure → Prop) (length : Nat) (x : ReadNode (List Node)) : Prop :=
  Reads faults length (fun items => ∀ n ∈ items, n.Within length) x

abbrev ReadsEntries (faults : Failure → Prop) (length : Nat)
    (x : ReadNode (List (Node × Node))) : Prop :=
  Reads faults length
    (fun entries => ∀ entry ∈ entries, entry.1.Within length ∧ entry.2.Within length) x

section

variable {α : Type} {faults : Failure → Prop} {length : Nat} {post : α → Prop}

/-! ## Single steps -/

theorem reads_fail : Reads faults length post (fail : ReadNode α) := .throw (.inl rfl)

/-- A check before the rest of a reading. -/
theorem reads_check {c : Prop} [Decidable c] {rest : Unit → ReadNode α}
    (hrest : ∀ u, Reads faults length post (rest u)) :
    Reads faults length post (if c then fail >>= rest else rest ()) := by
  have hfail : Passes faults length (fail : ReadNode Unit) := reads_fail
  exact .ite (fun _ => hfail.bind fun u _ => hrest u) fun _ => hrest ()

theorem reads_peek : Reads faults length (Token.Within length) peek := by
  refine .bind .get fun r hr => ?_
  cases htokens : r.tokens with
  | nil =>
    dsimp only
    split
    · next e h => exact .throw_bind (.inr (.inr (hr.fault 0 e h)))
    · exact .pure ⟨Nat.zero_le length, Nat.zero_le length⟩
  | cons t tokens =>
    dsimp only
    split
    · next e h => exact .throw_bind (.inr (.inr (hr.fault 0 e h)))
    · exact .pure (hr.tokens t (htokens ▸ List.mem_cons_self))

theorem passes_peekKind : Passes faults length peekKind :=
  reads_peek.bind fun _ _ => .pure trivial

theorem reads_next : Reads faults length (Token.Within length) next := by
  refine reads_peek.bind fun t ht => .bind (.update fun r hr => ?_) fun _ _ => .pure ht
  refine ⟨fun count e h => ?_, fun t ht => hr.tokens t (List.mem_of_mem_drop ht), hr.anchors,
    hr.bodies⟩
  obtain ⟨⟨count', e'⟩, hfault, heq⟩ := Option.map_eq_some_iff.1 h
  obtain ⟨-, rfl⟩ := Prod.mk.inj heq
  exact hr.fault count' e' hfault

theorem passes_tagName (handle : Option String) (suffix : String) :
    Passes faults length (tagName handle suffix) := by
  unfold tagName
  split
  · exact .pure trivial
  · refine .bind .get fun r _ => ?_
    split
    · exact .pure trivial
    · exact reads_fail

/-- The offset where the properties of a node start, if it has any. -/
theorem reads_properties :
    Reads faults length (fun p => ∀ start ∈ p.start, start ≤ length) properties := by
  refine reads_peek.bind fun t ht => ?_
  have hstart : ∀ start ∈ some t.start, start ≤ length := fun start h =>
    Option.some.inj h ▸ ht.start
  split
  · refine reads_next.bind fun _ _ => passes_peekKind.bind fun kind _ => ?_
    split
    · exact reads_next.bind fun _ _ => (passes_tagName _ _).bind fun _ _ => .pure hstart
    · exact .pure hstart
  · refine reads_next.bind fun _ _ => passes_peekKind.bind fun kind _ => ?_
    have hanchor : ∀ anchor : Option String, Passes faults length (pure anchor) := fun _ =>
      .pure trivial
    split
    · exact reads_next.bind fun _ _ => (hanchor _).bind fun _ _ =>
        (passes_tagName _ _).bind fun _ _ => .pure hstart
    · exact (hanchor _).bind fun _ _ => (passes_tagName _ _).bind fun _ _ => .pure hstart
  · exact .pure fun _ h => absurd h (Option.not_mem_none _)

theorem passes_checkAnchor (name : Option String) : Passes faults length (checkAnchor name) := by
  unfold checkAnchor
  split
  · exact .bind .get fun r _ => .ite (fun _ => reads_fail) fun _ => .pure trivial
  · exact .pure trivial

theorem passes_setAnchor (name : Option String) {node : Node} (hnode : node.Within length) :
    Passes faults length (setAnchor name node) := by
  unfold setAnchor
  split
  · exact .update fun r hr =>
      ⟨hr.fault, hr.tokens, List.forall_mem_cons.2 ⟨hnode, hr.anchors⟩, hr.bodies⟩
  · exact .pure trivial

theorem passes_openCollection (anchor : Option String) (isMapping : Bool) :
    Passes faults length (openCollection anchor isMapping) := by
  refine .bind .get fun r _ => .refuse (fun _ => .inr (.inl rfl)) fun _ => .bind .get fun r _ => ?_
  refine .bind (.update fun r hr => ⟨hr.fault, hr.tokens, hr.anchors, hr.bodies⟩) fun _ _ => ?_
  exact (passes_setAnchor _ (Node.within_again _ _)).bind fun _ _ => .pure trivial

theorem reads_closeCollection (l : Loop) {node : Node} (hagain : node.isAgain = false)
    (hnode : node.Within length) : ReadsNode faults length (closeCollection l node) := by
  refine .bind (.update fun r hr => ⟨hr.fault, hr.tokens, hr.anchors, hr.bodies⟩) fun _ _ => ?_
  refine .ite (fun _ => ?_) fun _ => .pure hnode
  refine .bind (.update fun r hr => ⟨hr.fault, hr.tokens, hr.anchors, ?_⟩) fun _ _ =>
    .pure (Node.within_again _ _)
  exact List.forall_mem_cons.2 ⟨⟨hagain, hnode⟩, hr.bodies⟩

theorem reads_collection {anchor : Option String} {isMapping : Bool} {read : ReadNode Node}
    (hread : Reads faults length (fun node => node.isAgain = false ∧ node.Within length) read) :
    ReadsNode faults length (collection anchor isMapping read) := by
  refine (passes_openCollection anchor isMapping).bind fun l _ => hread.bind fun node hnode => ?_
  exact (reads_closeCollection l hnode.1 hnode.2).bind fun _ hclosed =>
    (passes_setAnchor anchor hclosed).bind fun _ _ => .pure hclosed

theorem reads_sequence {p : Properties} {start : Nat} {items : ReadNode (List Node)}
    (hstart : start ≤ length) (hitems : ReadsItems faults length items) :
    ReadsNode faults length (collection p.anchor false do
      return .sequence start (p.collectionTag .seq) (← items)) :=
  reads_collection (hitems.bind fun _ h => .pure ⟨rfl, Node.within_sequence hstart _ h⟩)

theorem reads_mapping {p : Properties} {start : Nat} {entries : ReadNode (List (Node × Node))}
    (hstart : start ≤ length) (hentries : ReadsEntries faults length entries) :
    ReadsNode faults length (collection p.anchor true do
      return .mapping start (p.collectionTag .map) (← entries)) :=
  reads_collection (hentries.bind fun _ h => .pure ⟨rfl, Node.within_mapping hstart _ h⟩)

theorem reads_readAlias (name : String) : ReadsNode faults length (readAlias name) := by
  refine .bind .get fun r hr => ?_
  split
  · next node hnode =>
    obtain ⟨before, after, hanchors, -⟩ := List.lookup_eq_some_iff.1 hnode
    refine .pure (hr.anchors (name, node) ?_)
    rw [hanchors]
    exact List.mem_append_right _ List.mem_cons_self
  · exact reads_fail

/-- Nothing is written where a node stands. -/
theorem reads_emptyNode {offset : Nat} (h : offset ≤ length) :
    ReadsNode faults length (pure (emptyNode offset)) := .pure (Node.within_scalar h _ _)

/-- A node before the rest of the items. -/
theorem reads_item {node : Node} {more : ReadNode (List Node)} (hnode : node.Within length)
    (hmore : ReadsItems faults length more) :
    ReadsItems faults length (do return node :: (← more)) :=
  hmore.bind fun _ h => .pure (List.forall_mem_cons.2 ⟨hnode, h⟩)

/-- An entry before the rest of the entries. -/
theorem reads_entry {key value : Node} {more : ReadNode (List (Node × Node))}
    (hkey : key.Within length) (hvalue : value.Within length)
    (hmore : ReadsEntries faults length more) :
    ReadsEntries faults length (do return (key, value) :: (← more)) :=
  hmore.bind fun _ h => .pure (List.forall_mem_cons.2 ⟨⟨hkey, hvalue⟩, h⟩)

/-! ## Nodes -/

/-- All readings with some fuel keep the reader sound and come to nodes in the text. -/
structure ReadsWith (faults : Failure → Prop) (length fuel : Nat) : Prop where
  node (context : Context) : ReadsNode faults length (readNode fuel context)
  blockSequence : ReadsItems faults length (readBlockSequence fuel)
  flatSequence : ReadsItems faults length (readFlatSequence fuel)
  blockPart {stop : Nat} (h : stop ≤ length) : ReadsNode faults length (readBlockPart fuel stop)
  blockMapping : ReadsEntries faults length (readBlockMapping fuel)
  blockValue : ReadsNode faults length (readBlockValue fuel)
  flowSequence (first : Bool) : ReadsItems faults length (readFlowSequence fuel first)
  flowValue (closing : TokenKind) : ReadsNode faults length (readFlowValue fuel closing)
  flowMapping (first : Bool) : ReadsEntries faults length (readFlowMapping fuel first)

theorem readsWith_zero : ReadsWith faults length 0 where
  node _ := reads_fail
  blockSequence := reads_fail
  flatSequence := reads_fail
  blockPart _ := reads_fail
  blockMapping := reads_fail
  blockValue := reads_fail
  flowSequence _ := reads_fail
  flowValue _ := reads_fail
  flowMapping _ := reads_fail

variable {fuel : Nat} (ih : ReadsWith faults length fuel)
include ih

theorem reads_blockSequence_succ : ReadsItems faults length (readBlockSequence (fuel + 1)) := by
  unfold readBlockSequence
  refine reads_next.bind fun t ht => ?_
  split
  · refine passes_peekKind.bind fun kind _ => ?_
    split
    · exact (reads_emptyNode ht.stop).bind fun _ hnode => reads_item hnode ih.blockSequence
    · exact (reads_emptyNode ht.stop).bind fun _ hnode => reads_item hnode ih.blockSequence
    · exact (ih.node _).bind fun _ hnode => reads_item hnode ih.blockSequence
  · exact .pure (List.forall_mem_nil _)
  · exact reads_fail

theorem reads_node_succ (context : Context) :
    ReadsNode faults length (readNode (fuel + 1) context) := by
  unfold readNode
  refine passes_peekKind.bind fun kind _ => ?_
  split
  · exact reads_next.bind fun _ _ => reads_readAlias _
  refine reads_properties.bind fun p hp => reads_peek.bind fun t ht =>
    (passes_checkAnchor _).bind fun _ _ => ?_
  have hstart : p.start.getD t.start ≤ length := by
    cases hproperties : p.start with
    | none => exact ht.start
    | some start => exact hp start hproperties
  have hscalar : ∀ tag text, ReadsNode faults length (do
      setAnchor p.anchor (.scalar (p.start.getD t.start) tag text)
      return .scalar (p.start.getD t.start) tag text) := by
    intro tag text
    have hnode := Node.within_scalar hstart tag text
    exact (passes_setAnchor _ hnode).bind fun _ _ => .pure hnode
  dsimp only
  split
  · exact reads_next.bind fun _ _ => hscalar _ _
  · exact reads_next.bind fun _ _ => reads_sequence hstart (ih.flowSequence true)
  · exact reads_next.bind fun _ _ => reads_mapping hstart (ih.flowMapping true)
  refine .ite (fun _ => reads_sequence hstart ih.flatSequence) fun _ => ?_
  refine .ite (fun _ => reads_next.bind fun _ _ => reads_sequence hstart ih.blockSequence)
    fun _ => ?_
  refine .ite (fun _ => reads_next.bind fun _ _ => reads_mapping hstart ih.blockMapping)
    fun _ => ?_
  exact .ite (fun _ => hscalar _ _) fun _ => reads_fail

theorem reads_flatSequence_succ : ReadsItems faults length (readFlatSequence (fuel + 1)) := by
  unfold readFlatSequence
  refine passes_peekKind.bind fun kind _ => ?_
  split
  · refine reads_next.bind fun t ht => passes_peekKind.bind fun kind _ => ?_
    split
    all_goals first
      | exact (reads_emptyNode ht.stop).bind fun _ hnode => reads_item hnode ih.flatSequence
      | exact (ih.node _).bind fun _ hnode => reads_item hnode ih.flatSequence
  · exact .pure (List.forall_mem_nil _)

theorem reads_blockPart_succ {stop : Nat} (h : stop ≤ length) :
    ReadsNode faults length (readBlockPart (fuel + 1) stop) := by
  unfold readBlockPart
  refine passes_peekKind.bind fun kind _ => ?_
  split
  · exact reads_emptyNode h
  · exact reads_emptyNode h
  · exact reads_emptyNode h
  · exact ih.node _

theorem reads_blockMapping_succ : ReadsEntries faults length (readBlockMapping (fuel + 1)) := by
  unfold readBlockMapping
  refine reads_next.bind fun t ht => ?_
  split
  · exact (ih.blockPart ht.stop).bind fun _ hkey => ih.blockValue.bind fun _ hvalue =>
      reads_entry hkey hvalue ih.blockMapping
  · exact .pure (List.forall_mem_nil _)
  · exact reads_fail

theorem reads_blockValue_succ : ReadsNode faults length (readBlockValue (fuel + 1)) := by
  unfold readBlockValue
  refine reads_peek.bind fun t ht => ?_
  split
  · exact reads_next.bind fun _ _ => ih.blockPart ht.stop
  · exact reads_emptyNode ht.start

theorem reads_flowValue_succ (closing : TokenKind) :
    ReadsNode faults length (readFlowValue (fuel + 1) closing) := by
  unfold readFlowValue
  refine reads_peek.bind fun t ht => ?_
  split
  · exact reads_next.bind fun _ _ => passes_peekKind.bind fun kind _ =>
      .ite (fun _ => reads_emptyNode ht.stop) fun _ => ih.node _
  · exact reads_emptyNode ht.start

theorem reads_flowMapping_succ (first : Bool) :
    ReadsEntries faults length (readFlowMapping (fuel + 1) first) := by
  unfold readFlowMapping
  have hend : ReadsEntries faults length (pure []) := .pure (List.forall_mem_nil _)
  refine passes_peekKind.bind fun kind _ =>
    .ite (fun _ => reads_next.bind fun _ _ => hend) fun _ => ?_
  extract_lets value entries
  have hvalue : ∀ key : Node, key.Within length → ReadsEntries faults length (value key) :=
    fun key hkey => (ih.flowValue _).bind fun _ hvalue =>
      reads_entry hkey hvalue (ih.flowMapping _)
  have hentries : ∀ u, ReadsEntries faults length (entries u) := by
    intro u
    refine reads_peek.bind fun t ht => ?_
    split
    · refine reads_next.bind fun _ _ => passes_peekKind.bind fun kind _ => ?_
      split
      · exact (reads_emptyNode ht.stop).bind hvalue
      · exact (reads_emptyNode ht.stop).bind hvalue
      · exact (reads_emptyNode ht.stop).bind hvalue
      · exact (ih.node _).bind hvalue
    · exact reads_next.bind fun _ _ => hend
    · exact (ih.node _).bind fun _ hkey => reads_peek.bind fun _ hbehind =>
        reads_entry hkey (Node.within_scalar hbehind.start _ _) (ih.flowMapping _)
  refine .ite (fun _ => reads_next.bind fun t _ => ?_) fun _ => hentries ()
  exact reads_check hentries

/-- A pair among the items of a sequence in brackets. -/
theorem reads_pair {t : Token} (ht : t.Within length) :
    ReadsNode faults length (collection none true do
      let key ← match ← peekKind with
        | .value | .flowEntry | .flowSequenceEnd => pure (emptyNode t.stop)
        | _ => readNode fuel .flow
      return .mapping t.start .map [(key, ← readFlowValue fuel .flowSequenceEnd)]) := by
  have hvalue : ∀ key : Node, key.Within length →
      Reads faults length (fun node : Node => node.isAgain = false ∧ node.Within length) (do
        return .mapping t.start .map [(key, ← readFlowValue fuel .flowSequenceEnd)]) := by
    intro key hkey
    refine (ih.flowValue _).bind fun _ hvalue => .pure ⟨rfl, Node.within_mapping ht.start _ ?_⟩
    exact List.forall_mem_singleton.2 ⟨hkey, hvalue⟩
  refine reads_collection (passes_peekKind.bind fun kind _ => ?_)
  split
  · exact (reads_emptyNode ht.stop).bind hvalue
  · exact (reads_emptyNode ht.stop).bind hvalue
  · exact (reads_emptyNode ht.stop).bind hvalue
  · exact (ih.node _).bind hvalue

theorem reads_flowSequence_succ (first : Bool) :
    ReadsItems faults length (readFlowSequence (fuel + 1) first) := by
  unfold readFlowSequence
  have hend : ReadsItems faults length (pure []) := .pure (List.forall_mem_nil _)
  refine passes_peekKind.bind fun kind _ =>
    .ite (fun _ => reads_next.bind fun _ _ => hend) fun _ => ?_
  extract_lets items
  have hitems : ∀ u, ReadsItems faults length (items u) := by
    intro u
    refine reads_peek.bind fun t ht => ?_
    split
    · exact reads_next.bind fun _ _ => (reads_pair ih ht).bind fun _ hpair =>
        reads_item hpair (ih.flowSequence _)
    · exact reads_next.bind fun _ _ => hend
    · exact (ih.node _).bind fun _ hnode => reads_item hnode (ih.flowSequence _)
  refine .ite (fun _ => reads_next.bind fun t _ => ?_) fun _ => hitems ()
  exact reads_check hitems

theorem readsWith_succ : ReadsWith faults length (fuel + 1) where
  node := reads_node_succ ih
  blockSequence := reads_blockSequence_succ ih
  flatSequence := reads_flatSequence_succ ih
  blockPart := reads_blockPart_succ ih
  blockMapping := reads_blockMapping_succ ih
  blockValue := reads_blockValue_succ ih
  flowSequence := reads_flowSequence_succ ih
  flowValue := reads_flowValue_succ ih
  flowMapping := reads_flowMapping_succ ih

omit ih in
theorem readsWith (faults : Failure → Prop) (length fuel : Nat) :
    ReadsWith faults length fuel := by
  induction fuel with
  | zero => exact readsWith_zero
  | succ fuel ih => exact readsWith_succ ih

end

/-! ## Documents -/

section

variable {faults : Failure → Prop} {length : Nat}

/-- Nothing of what is kept of the text depends on the handles. -/
theorem passes_setHandles (handles : NodeReader → List (String × String)) :
    Passes faults length
      (modify fun r => { r with handles := handles r } : ReadNode PUnit) :=
  .update fun _ hr => ⟨hr.fault, hr.tokens, hr.anchors, hr.bodies⟩

theorem passes_readDirectives (fuel : Nat) (versionKnown : Bool) :
    Passes faults length (readDirectives fuel versionKnown) := by
  induction fuel generalizing versionKnown with
  | zero => exact reads_fail
  | succ fuel ih =>
    unfold readDirectives
    refine passes_peekKind.bind fun kind _ => ?_
    split
    · refine reads_next.bind fun _ _ => ?_
      split
      · exact reads_check fun _ => ih _
      · refine .bind .get fun r _ => ?_
        extract_lets rest
        have hrest : ∀ u, Passes faults length (rest u) := fun u =>
          (passes_setHandles _).bind fun _ _ => ih _
        exact reads_check hrest
      · exact ih _
    · exact .pure trivial

theorem passes_skipDocumentEnds (fuel : Nat) :
    Passes faults length (skipDocumentEnds fuel) := by
  induction fuel with
  | zero => exact reads_fail
  | succ fuel ih =>
    unfold skipDocumentEnds
    exact passes_peekKind.bind fun kind _ => .ite (fun _ => reads_next.bind fun _ _ => ih)
      fun _ => .pure trivial

theorem reads_readDocument (fuel : Nat) :
    Reads faults length (fun root => ∀ n ∈ root, n.Within length) (readDocument fuel) := by
  unfold readDocument
  refine passes_peekKind.bind fun kind _ => ?_
  extract_lets finish root
  have hfinish : ∀ root : Option Node, (∀ n ∈ root, n.Within length) →
      Reads faults length (fun root => ∀ n ∈ root, n.Within length) (finish root) := by
    intro root hroot
    refine (passes_skipDocumentEnds _).bind fun _ _ => passes_peekKind.bind fun kind _ => ?_
    have hfail : Passes faults length (fail : ReadNode Unit) := reads_fail
    exact .ite (fun _ => (passes_setHandles _).bind fun _ _ =>
      (passes_readDirectives _ _).bind fun _ _ => hfail.bind fun _ _ => .pure hroot)
      fun _ => .pure hroot
  have hread : Reads faults length (fun root => ∀ n ∈ root, n.Within length)
      (readNode fuel .block >>= fun node => pure (some node)) :=
    ((readsWith faults length fuel).node _).bind fun _ hnode => .pure fun _ h =>
      Option.some.inj h ▸ hnode
  have hroot : ∀ u, Reads faults length (fun root => ∀ n ∈ root, n.Within length) (root u) := by
    intro u
    refine reads_next.bind fun _ _ => reads_peek.bind fun t ht => ?_
    have hempty : Reads faults length (fun root => ∀ n ∈ root, n.Within length)
        (pure (some (emptyNode t.start))) :=
      .pure fun _ h => Option.some.inj h ▸ Node.within_scalar ht.start _ _
    split
    · exact hempty.bind hfinish
    · exact hempty.bind hfinish
    · exact hempty.bind hfinish
    · exact hempty.bind hfinish
    · exact ((readsWith faults length fuel).node _).bind fun _ hnode =>
        hfinish _ fun _ h => Option.some.inj h ▸ hnode
  split
  · exact hfinish none fun _ h => absurd h (Option.not_mem_none _)
  · exact (passes_readDirectives _ _).bind fun _ _ => (passes_setHandles _).bind fun _ _ =>
      passes_peekKind.bind fun _ _ => reads_check hroot
  · exact (passes_readDirectives _ _).bind fun _ _ => (passes_setHandles _).bind fun _ _ =>
      passes_peekKind.bind fun _ _ => reads_check hroot
  · exact (passes_setHandles _).bind fun _ _ =>
      ((readsWith faults length fuel).node _).bind fun _ hnode =>
        hfinish _ fun _ h => Option.some.inj h ▸ hnode

end

end NodeReader

namespace Node

/-- **What the reading of nodes comes to.**  A document that is read has collections behind its
marks, and its nodes start in the text if the tokens are in it.  No document is read where no node
can be, where collections stand too deep one inside the other, or where the tokens end at a
fault. -/
theorem ofTokens_sound {list : TokenList} {length : Nat}
    (htokens : ∀ t ∈ list.tokens, t.Within length) :
    Yields (NodeReader.Fails fun e => ∃ count, list.fault = some (count, e))
      (fun read => ∀ document ∈ read, (∀ loop ∈ document.loops, loop.2.isAgain = false) ∧
        ∀ n ∈ document.nodes, n.start ≤ length)
      (ofTokens list) := by
  have hdocument : NodeReader.Reads (fun e => ∃ count, list.fault = some (count, e)) length
      (fun root => ∀ n ∈ root, n.Within length)
      (NodeReader.readDocument (4 * list.tokens.length + 16)) := NodeReader.reads_readDocument _
  have hreads := hdocument { tokens := list.tokens, fault := list.fault }
    ⟨fun count e h => ⟨count, h⟩, htokens, List.forall_mem_nil _, List.forall_mem_nil _⟩
  refine Yields.bind hreads fun r hr => .pure fun document hdocument => ?_
  obtain ⟨hroot, hsound⟩ := hr
  obtain ⟨root, hread, rfl⟩ := Option.map_eq_some_iff.1 hdocument
  refine ⟨fun loop hloop => (hsound.bodies loop hloop).1, fun n hn => ?_⟩
  rcases List.mem_append.1 hn with hn | hn
  · exact hroot root hread n hn
  · obtain ⟨loop, hloop, hn⟩ := List.mem_flatMap.1 hn
    exact (hsound.bodies loop hloop).2 n hn

/-- No document is read from a text with a character that none may hold. -/
theorem admitted_of_ofTokens {chars : List Char} {read : Option (Looped Node)}
    (h : ofTokens (.ofText chars) = .ok read) : ∀ c ∈ chars, isAdmitted c = true := by
  by_contra hrefused
  have htokens : TokenList.ofText chars = ⟨[], some (0, .malformedText)⟩ := by
    unfold TokenList.ofText
    rw [if_pos (by simpa using hrefused)]
  have hfails : ofTokens ⟨[], some (0, .malformedText)⟩ = .error .malformedText := rfl
  rw [htokens, hfails] at h
  cases h

section

variable {text : Text} {document : Looped Node}

/-- **A document in a text** is read of characters that one may hold, and its nodes start in the
text.  Behind its marks are collections. -/
theorem exists_chars_of_ofText (h : ofText text = .ok (some document)) :
    ∃ chars, text = Text.ofChars chars ∧ (∀ c ∈ chars, isAdmitted c = true) ∧
      (∀ loop ∈ document.loops, loop.2.isAgain = false) ∧
      ∀ n ∈ document.nodes, n.start ≤ chars.length := by
  unfold ofText at h
  split at h
  · cases h
  · next chars hchars =>
    obtain ⟨hbodies, hstarts⟩ :=
      (ofTokens_sound fun _ => TokenList.within_ofText).1 _ h document rfl
    exact ⟨chars, Text.eq_ofChars_of_chars? hchars, admitted_of_ofTokens h, hbodies, hstarts⟩

/-- A document in a text has collections behind its marks. -/
theorem isAgain_of_ofText (h : ofText text = .ok (some document)) :
    ∀ loop ∈ document.loops, loop.2.isAgain = false := by
  obtain ⟨chars, -, -, hbodies, -⟩ := exists_chars_of_ofText h
  exact hbodies

end

end Node

end RegisterLayout.Document
