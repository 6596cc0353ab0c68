import RegisterLayout.Proofs.Acyclic
import RegisterLayout.Proofs.Tied
import RegisterLayout.Value.OfNode

/-!
# Values of documents without cycles

A tree without marks is read as a value without marks.  Reading it fails only where the tree is
refused, as its admission does.

Principal results: `Value.failsOnly_ofNode`, `yields_ofDocument`.
-/

namespace RegisterLayout

open Document

namespace Value

variable {inner : Loop → Except Failure Value} {root n : Node}

/-- The text of a scalar is one that stands in the node. -/
theorem yields_scalarText (root n : Node) :
    Yields root.Refused (fun text => ∃ m ∈ n.nodes, m.text? = some text) (scalarText n) := by
  have hmalformed : root.Refused .malformedText := .inl rfl
  induction n using Node.inductionOn with
  | node n ih =>
    cases n with
    | scalar start tag text => exact .pure ⟨_, Node.mem_nodes_self _, rfl⟩
    | mapping start tag entries =>
      have hamong : ∀ {es : List (Node × Node)}, (∀ entry ∈ es, entry ∈ entries) →
          Yields root.Refused
            (fun text => ∃ m ∈ (Node.mapping start tag entries).nodes, m.text? = some text)
            (textAmong es) := by
        intro es hes
        induction es with
        | nil => exact .error hmalformed
        | cons entry es ihes =>
          obtain ⟨hentry, hes⟩ := List.forall_mem_cons.1 hes
          have hpart := Node.value_mem_parts (n := .mapping start tag entries) hentry
          unfold textAmong
          split
          · next heq => cases heq
          · next heq =>
            obtain ⟨rfl, rfl⟩ := List.cons.inj heq
            refine (ih _ hpart).imp fun text ⟨m, hm, htext⟩ => ?_
            exact ⟨m, Node.mem_nodes_trans (Node.mem_nodes_of_parts hpart) hm, htext⟩
          · next heq =>
            obtain ⟨rfl, rfl⟩ := List.cons.inj heq
            exact ihes hes
      exact hamong fun _ h => h
    | _ => exact .error hmalformed

theorem failsOnly_readScalar (hn : n ∈ root.nodes) {tag : Tag} (htag : n.tag? = some tag)
    {text : Text} (htext : ∃ m ∈ n.nodes, m.text? = some text) :
    FailsOnly root.Refused (readScalar (if tag = .value then .str else tag) text) := by
  intro e he
  split at he
  · exact absurd he (readScalar_str text e)
  · obtain ⟨m, hm, hmtext⟩ := htext
    exact .inr ⟨n, hn, tag, htag, .inl ⟨m, hm, text, hmtext, he⟩⟩

theorem failsOnly_ofNodes {items : List Node}
    (h : ∀ item ∈ items, FailsOnly root.Refused (ofNode inner item)) :
    FailsOnly root.Refused (ofNodes inner items) := by
  induction items with
  | nil => exact .pure
  | cons item items ih =>
    obtain ⟨hitem, hitems⟩ := List.forall_mem_cons.1 h
    rw [ofNodes]
    exact hitem.bind fun _ _ => (ih hitems).bind fun _ _ => .pure

theorem failsOnly_pairsOf {items : List Node}
    (h : ∀ item ∈ items, ∀ p ∈ item.parts, FailsOnly root.Refused (ofNode inner p)) :
    FailsOnly root.Refused (pairsOf inner items) := by
  induction items with
  | nil => exact .pure
  | cons item items ih =>
    obtain ⟨hitem, hitems⟩ := List.forall_mem_cons.1 h
    match item with
    | .mapping start tag [(key, value)] =>
      rw [pairsOf]
      have hmem : (key, value) ∈ (Node.mapping start tag [(key, value)]).entries :=
        List.mem_singleton_self _
      refine (hitem key (Node.key_mem_parts hmem)).bind fun _ _ => ?_
      refine (hitem value (Node.value_mem_parts hmem)).bind fun _ _ => ?_
      exact (ih hitems).bind fun _ _ => .pure
    | .mapping _ _ [] | .mapping _ _ (_ :: _ :: _) | .scalar .. | .sequence .. | .again _ =>
      exact .error (.inl rfl)

theorem failsOnly_asKey (v : Value) : FailsOnly root.Refused v.asKey := by
  unfold asKey
  split
  · exact .ok
  · exact .error (.inl rfl)

theorem failsOnly_ofEntries {entries : List (Node × Node)}
    (h : ∀ entry ∈ entries, FailsOnly root.Refused (ofNode inner entry.1) ∧
      FailsOnly root.Refused (ofNode inner entry.2) ∧
      FailsOnly root.Refused (mergedEntries inner entry.2)) :
    FailsOnly root.Refused (ofEntries inner entries) := by
  induction entries with
  | nil => exact .pure
  | cons entry entries ih =>
    obtain ⟨⟨hkey, hvalue, hmerged⟩, hentries⟩ := List.forall_mem_cons.1 h
    obtain ⟨key, value⟩ := entry
    rw [ofEntries]
    refine (ih hentries).bind fun r _ => ?_
    dsimp only
    split
    · exact hmerged.bind fun _ _ => .pure
    · exact hkey.bind fun key _ => (failsOnly_asKey key).bind fun _ _ =>
        hvalue.bind fun _ _ => .pure

theorem failsOnly_mergedLists {items : List Node}
    (h : ∀ item ∈ items, FailsOnly root.Refused (mergedEntries inner item)) :
    FailsOnly root.Refused (mergedLists inner items) := by
  induction items with
  | nil => exact .pure
  | cons item items ih =>
    obtain ⟨hitem, hitems⟩ := List.forall_mem_cons.1 h
    rw [mergedLists]
    exact hitem.bind fun _ _ => (ih hitems).bind fun _ _ => .pure

/-- **Values of documents without cycles.**  A node of a tree without marks is read as a value,
unless the tree is refused. -/
theorem failsOnly_ofNode (hroot : ∀ n ∈ root.nodes, n.isAgain = false) (hn : n ∈ root.nodes) :
    FailsOnly root.Refused (ofNode inner n) ∧ FailsOnly root.Refused (mergedEntries inner n) ∧
      ∀ p ∈ n.parts, FailsOnly root.Refused (ofNode inner p) := by
  induction n using Node.inductionOn with
  | node n ih =>
    have hmem := parts_mem_nodes hn
    have hparts : ∀ p ∈ n.parts, FailsOnly root.Refused (ofNode inner p) := fun p hp =>
      (ih p hp (hmem p hp)).1
    have hentries : ∀ entry ∈ n.entries, FailsOnly root.Refused (ofNode inner entry.1) ∧
        FailsOnly root.Refused (ofNode inner entry.2) ∧
        FailsOnly root.Refused (mergedEntries inner entry.2) := by
      intro entry hentry
      have hvalue := Node.value_mem_parts hentry
      exact ⟨hparts _ (Node.key_mem_parts hentry), hparts _ hvalue,
        (ih _ hvalue (hmem _ hvalue)).2.1⟩
    refine ⟨?_, ?_, hparts⟩
    · cases n with
      | again l => exact nomatch hroot _ hn
      | scalar start tag text =>
        rw [ofNode]
        exact failsOnly_readScalar hn rfl ⟨_, Node.mem_nodes_self _, rfl⟩
      | sequence start tag items =>
        have hpairs : ∀ item ∈ items, ∀ p ∈ item.parts, FailsOnly root.Refused (ofNode inner p) :=
          fun item hitem => (ih item hitem (hmem item hitem)).2.2
        rw [ofNode.eq_def]
        dsimp only
        split
        · exact (failsOnly_ofNodes hparts).bind fun _ _ => .pure
        · exact (failsOnly_pairsOf hpairs).bind fun _ _ => .pure
        · exact (failsOnly_pairsOf hpairs).bind fun _ _ => .pure
        · exact .error (.inl rfl)
      | mapping start tag entries =>
        have hscalar : FailsOnly root.Refused (do
            readScalar (if tag = .value then .str else tag)
              (← scalarText (.mapping start tag entries))) := by
          obtain ⟨hok, hfails⟩ := yields_scalarText root (.mapping start tag entries)
          exact hfails.bind fun text htext => failsOnly_readScalar hn rfl (hok text htext)
        rw [ofNode.eq_def]
        dsimp only
        split
        · exact (failsOnly_ofEntries hentries).bind fun _ _ => .pure
        · exact (failsOnly_ofEntries hentries).bind fun _ _ => .pure
        · exact hscalar
    · cases n with
      | mapping start tag entries =>
        rw [mergedEntries]
        exact (failsOnly_ofEntries hentries).bind fun _ _ => .pure
      | sequence start tag items =>
        rw [mergedEntries]
        exact (failsOnly_mergedLists fun item hitem =>
          (ih item hitem (hmem item hitem)).2.1).bind fun _ _ => .pure
      | _ => exact .error (.inl rfl)

end Value

/-- **Documents without cycles.**  Such a document is read as a value without marks, unless it is
malformed or a node of it does not hold what its tag asks for. -/
theorem yields_ofDocument {document : Looped Node} (h : document.Acyclic) :
    Yields document.root.Refused (fun value => value.loops = []) (Value.ofDocument document) := by
  obtain ⟨hmet, hrefused⟩ := admittedLoops_of_acyclic h
  have hadmitted : Yields document.root.Refused (fun admitted => admitted.2 = [])
      (admittedLoops document) := ⟨hmet, hrefused⟩
  refine hadmitted.bind fun (loops, met) hnil => ?_
  obtain rfl : met = [] := hnil
  have hroot : FailsOnly document.root.Refused
      (Value.ofNode (Value.ofLoop loops) document.root) :=
    (Value.failsOnly_ofNode h (Node.mem_nodes_self _)).1
  refine hroot.yields.bind fun v _ => .pure ?_
  show (Looped.mk v []).untied.loops = []
  rw [Looped.untied_of_nil]

end RegisterLayout
