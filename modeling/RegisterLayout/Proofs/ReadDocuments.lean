import RegisterLayout.Proofs.Contained
import RegisterLayout.Proofs.KeyedValues
import RegisterLayout.Proofs.NodeReading
import RegisterLayout.Proofs.Sources

/-!
# Documents that are read from texts

A document that is read from a text is tied: its keys are apart, the marks in it stand for
collections, and none is left that could be replaced.  A mark counts as a collection all through an
admission or not at all, whatever is merged into the collection that it stands for, and only marks
that do are met.  So all that is known of tied documents is known of those in texts.

Principal definitions: `Document.Node.CountsAs`, `Settled`.
Principal results: `settled_of_admittedLoops`, `tied_of_parseModel`; `Field.exists_ofText_iff`,
`Field.contained_of_ofText`.
-/

namespace RegisterLayout

open Document Admission

/-! ## Marks that are met -/

/-- What a node is once it is opened counts as a collection where the node does in a document; a
mark without a body does. -/
def Document.Node.CountsAs (document : Looped Node) (n m : Node) : Prop :=
  (m = n ∧ n.isAgain = true ∧ document.Collects n) ∨
    ∃ tag, m.tag? = some tag ∧ (tag.isCollection = true ↔ document.Collects n)

/-- A mapping with other entries; any other node stays. -/
def Document.Node.withEntries (entries : List (Node × Node)) : Node → Node
  | .mapping start tag _ => .mapping start tag entries
  | other => other

theorem Document.Node.CountsAs.withEntries {document : Looped Node} {n m : Node}
    (h : n.CountsAs document m) (entries : List (Node × Node)) :
    n.CountsAs document (m.withEntries entries) := by
  cases m with
  | mapping start tag old =>
    rcases h with ⟨rfl, hagain, -⟩ | htag
    · cases hagain
    · exact .inr htag
  | _ => exact h

theorem Document.Node.exists_tag {n : Node} (h : n.isAgain = false) : ∃ tag, n.tag? = some tag := by
  cases n with
  | again l => cases h
  | _ => exact ⟨_, rfl⟩

theorem Looped.collects_iff {document : Looped Node} {n : Node} {tag : Tag}
    (h : (n.opened document.loops).tag? = some tag) :
    document.Collects n ↔ tag.isCollection = true := by
  refine ⟨fun hn => hn tag h, fun htag tag' htag' => ?_⟩
  obtain rfl := Option.some.inj (h.symm.trans htag')
  exact htag

/-- Marks count as collections where they do in a document, and so do those that were met. -/
structure Settled (document : Looped Node) (loops : Loops Node) (met : List Loop) : Prop where
  kind : ∀ l, (Node.again l).CountsAs document ((Node.again l).opened loops)
  met : ∀ l ∈ met, document.Collects (.again l)

namespace Settled

variable {document : Looped Node} {loops : Loops Node} {met : List Loop}

/-- The marks of a document with bodies behind them count as they do. -/
theorem of_loops (hsound : ∀ loop ∈ document.loops, loop.2.isAgain = false) :
    Settled document document.loops [] := by
  refine ⟨fun l => ?_, List.forall_mem_nil _⟩
  cases hl : document.loops.lookup l with
  | none =>
    have hopened : (Node.again l).opened document.loops = .again l := by simp [Node.opened, hl]
    refine .inl ⟨hopened, rfl, fun tag htag => ?_⟩
    rw [hopened] at htag
    cases htag
  | some body =>
    obtain ⟨before, after, hloops, -⟩ := List.lookup_eq_some_iff.1 hl
    have hbody : body.isAgain = false := hsound (l, body) (hloops ▸ by simp)
    have hopened : (Node.again l).opened document.loops = body := by simp [Node.opened, hl]
    obtain ⟨tag, htag⟩ := Node.exists_tag hbody
    rw [hopened]
    exact .inr ⟨tag, htag, (Looped.collects_iff (hopened ▸ htag)).symm⟩

theorem put (h : Settled document loops met) {l : Loop} {body : Node}
    (hbody : (Node.again l).CountsAs document body) : Settled document (loops.put l body) met := by
  refine ⟨fun k => ?_, h.met⟩
  by_cases hk : k = l
  · subst hk
    simpa [Node.opened, Loops.lookup_put] using hbody
  · have hkept := h.kind k
    simpa [Node.opened, Loops.lookup_put, hk] using hkept

theorem meet (h : Settled document loops met) {l : Loop} (hl : document.Collects (.again l)) :
    Settled document loops (l :: met) :=
  ⟨h.kind, List.forall_mem_cons.2 ⟨hl, h.met⟩⟩

theorem opened (h : Settled document loops met) (n : Node) :
    n.CountsAs document (n.opened loops) := by
  by_cases hagain : n.isAgain = true
  · cases n with
    | again l => exact h.kind l
    | _ => cases hagain
  · have hagain : n.isAgain = false := by simpa using hagain
    obtain ⟨tag, htag⟩ := Node.exists_tag hagain
    rw [Node.opened_of_not_again hagain]
    refine .inr ⟨tag, htag, (Looped.collects_iff ?_).symm⟩
    rwa [Node.opened_of_not_again hagain]

end Settled

/-! ## The steps of an admission -/

section

variable {α : Type} {document : Looped Node} {n m : Node}

/-- A step after which marks count as they did. -/
abbrev KeepsSettled (document : Looped Node) (post : α → Prop) (x : Admit α) : Prop :=
  Keeps (fun a => Settled document a.loops a.met) (fun _ => True) post x

theorem settled_refuse {post : α → Prop} : KeepsSettled document post refuse := .throw trivial

theorem settled_opened (n : Node) : KeepsSettled document (n.CountsAs document) (opened n) :=
  .bind .get fun _ ha => .pure (ha.opened n)

/-- The tag that counts for a node is that of a collection if the node counts as one. -/
theorem settled_tagOf (n : Node) :
    KeepsSettled document (fun tag => tag.isCollection = true ↔ document.Collects n) (tagOf n) := by
  refine keeps_tagOf id (fun a ha tag htag => ?_) fun a ha hmark => iff_of_true rfl ?_
  · rcases ha.opened n with ⟨hm, hagain, -⟩ | ⟨tag', htag', hiff⟩
    · rw [hm] at htag
      cases n with
      | again l => cases htag
      | _ => cases hagain
    · obtain rfl := Option.some.inj (htag.symm.trans htag')
      exact hiff
  · rcases ha.opened n with ⟨-, -, hcollects⟩ | ⟨tag, htag, -⟩
    · exact hcollects
    · cases hmark.symm.trans htag

theorem settled_entriesOf (n : Node) : KeepsSettled document (fun _ => True) (entriesOf n) := by
  refine (settled_opened n).bind fun m _ => ?_
  split
  · exact .pure trivial
  · exact settled_refuse

theorem settled_setEntries (n : Node) (entries : List (Node × Node)) :
    KeepsSettled document (fun _ => True) (setEntries n entries) := by
  refine (settled_opened n).bind fun m hm => ?_
  extract_lets changed
  have hchanged : n.CountsAs document changed := hm.withEntries entries
  split
  · exact .bind (.update fun a ha => ha.put hchanged) fun _ _ => .pure trivial
  · exact .pure trivial

theorem settled_cutAtMerge (entries : List (Node × Node)) :
    KeepsSettled document (fun _ => True) (cutAtMerge entries) := by
  induction entries with
  | nil => exact .pure trivial
  | cons entry entries ih =>
    refine (passes_tagOf _).bind fun tag _ => .ite (fun _ => .pure trivial) fun _ => ?_
    exact ih.bind fun _ _ => .pure trivial

/-- Whatever is merged, marks count as they did. -/
theorem settled_merge (fuel : Nat) (n : Node) :
    KeepsSettled document (fun _ => True) (merge fuel n) := by
  induction fuel generalizing n with
  | zero => exact .throw trivial
  | succ fuel ih =>
    unfold merge
    refine (settled_entriesOf n).bind fun entries _ => (settled_cutAtMerge entries).bind
      fun r _ => ?_
    split
    · exact (keeps_takeKeysForTexts (fun _ _ ha => ha) _).bind fun _ _ => .pure trivial
    · refine (settled_setEntries _ _).bind fun n' _ => (settled_opened _).bind fun value _ => ?_
      have hrest : ∀ taken : List (Node × Node), KeepsSettled document (fun _ => True) (do
          let entries := taken ++ (← merge fuel n')
          let _ ← setEntries n' entries
          return entries) := fun taken =>
        (ih n').bind fun _ _ => (settled_setEntries _ _).bind fun _ _ => .pure trivial
      have htaken : ∀ taken : List (Node × Node),
          KeepsSettled document (fun _ => True) (pure taken) := fun _ => .pure trivial
      dsimp only
      split
      · exact (ih _).bind fun taken _ => hrest taken
      · exact (Keeps.mapM fun item _ => ih item).bind fun lists _ =>
          (htaken _).bind fun taken _ => hrest taken
      · exact .throw_bind trivial

theorem settled_meet (fuel : Nat) (n : Node) :
    KeepsSettled document (fun _ => True) (meet fuel n) := by
  refine (keeps_meet (settled_tagOf n) ?_ ?_ fuel).imp fun _ _ => trivial
  · rintro l tag rfl htag hcollection a ha
    exact ha.meet (htag.1 hcollection)
  · rintro l tag text rfl htag - - a ha
    exact ha.put (.inr ⟨tag, rfl, htag⟩)

theorem settled_meetKey (fuel : Nat) (n : Node) :
    KeepsSettled document (fun _ => True) (meetKey fuel n) :=
  (settled_tagOf n).bind fun _ _ => .refuse (fun _ => trivial) fun _ =>
    (settled_meet fuel n).bind fun _ _ => .pure trivial

theorem settled_pairOf (n : Node) : KeepsSettled document (fun _ => True) (pairOf n) := by
  refine (settled_entriesOf n).bind fun entries _ => ?_
  rcases entries with _ | ⟨pair, _ | ⟨other, more⟩⟩
  · exact settled_refuse
  · exact .pure trivial
  · exact settled_refuse

/-- Several steps, and what waits after them. -/
theorem settled_waiting {β : Type} {xs : List β} {step : β → Admit (List Node)}
    (h : ∀ x, KeepsSettled document (fun _ => True) (step x)) :
    KeepsSettled document (fun _ => True) (do return (← xs.mapM step).flatten) :=
  (Keeps.mapM fun x _ => h x).bind fun _ _ => .pure trivial

theorem settled_takeTurn (fuel : Nat) (n : Node) :
    KeepsSettled document (fun _ => True) (takeTurn fuel n) := by
  have hpair : ∀ item, KeepsSettled document (fun _ => True) (do
      let pair ← pairOf item
      return (← meet fuel pair.1) ++ (← meet fuel pair.2)) := fun item =>
    (settled_pairOf item).bind fun _ _ => (settled_meet fuel _).bind fun _ _ =>
      (settled_meet fuel _).bind fun _ _ => .pure trivial
  have hentry : ∀ entry : Node × Node, KeepsSettled document (fun _ => True) (do
      meetKey fuel entry.1
      meet fuel entry.2) := fun entry =>
    (settled_meetKey fuel _).bind fun _ _ => settled_meet fuel _
  refine (settled_opened n).bind fun m _ => ?_
  split
  · exact settled_waiting fun item => settled_meet fuel item
  · exact settled_waiting hpair
  · exact settled_waiting hpair
  · exact (settled_merge fuel n).bind fun entries _ => settled_waiting hentry
  · exact (settled_merge fuel n).bind fun entries _ => settled_waiting hentry
  · exact settled_refuse

theorem settled_takeTurns (fuel levels : Nat) (waiting : List Node) :
    KeepsSettled document (fun _ => True) (takeTurns fuel levels waiting) := by
  induction levels generalizing waiting with
  | zero => exact .throw trivial
  | succ levels ih =>
    unfold takeTurns
    exact (Keeps.mapM fun n _ => settled_takeTurn fuel n).bind fun next _ =>
      .ite (fun _ => ih _) fun _ => .pure trivial

end

/-- **Admission leaves marks counting as they did,** and meets only those that count as
collections. -/
theorem settled_of_admittedLoops {document : Looped Node}
    (hsound : ∀ loop ∈ document.loops, loop.2.isAgain = false) {admitted : Loops Node × List Loop}
    (h : admittedLoops document = .ok admitted) : Settled document admitted.1 admitted.2 := by
  have hrun : ∀ fuel, KeepsSettled document (fun _ => True) (do
      let waiting ← meet fuel document.root
      takeTurns fuel (fuel + 1) waiting) := fun fuel =>
    (settled_meet fuel document.root).bind fun waiting _ => settled_takeTurns fuel _ waiting
  obtain ⟨r, hr, h⟩ := bind_eq_ok_iff.1 h
  obtain rfl := pure_eq_ok_iff.1 h
  exact ((hrun _ _ (Settled.of_loops hsound)).1 r hr).2

/-! ## Tied documents -/

section

variable {text : Text} {document : Looped Value}

/-- The value of what a mark stands for is no scalar if the mark was met. -/
theorem Settled.isScalar_of_met {nodes : Looped Node} {loops : Loops Node} {met : List Loop}
    (h : Settled nodes loops met) {l : Loop} (hl : l ∈ met) {v : Value}
    (hv : Value.ofNode (Value.ofLoop loops) ((Node.again l).opened loops) = .ok v) :
    v.isScalar = false := by
  rcases h.kind l with ⟨hself, -, -⟩ | ⟨tag, htag, hiff⟩
  · rw [hself] at hv
    have hlookup : Value.ofLoop loops l = .ok (.again l) := by
      unfold Value.ofLoop
      cases hbody : loops.lookup l with
      | none => rfl
      | some body =>
        have hopened : (Node.again l).opened loops = body := by simp [Node.opened, hbody]
        obtain rfl := hself.symm.trans hopened
        rfl
    obtain rfl := Except.ok.inj (hlookup.symm.trans hv)
    rfl
  · have hcollection := Value.isCollection_of_ofNode htag (hiff.2 (h.met l hl)) hv
    cases v <;> first | rfl | cases hcollection

/-- What is read from the nodes of a document keeps its keys apart, and its marks stand for
collections. -/
theorem keyed_of_ofDocument {nodes : Looped Node}
    (hsound : ∀ loop ∈ nodes.loops, loop.2.isAgain = false)
    (h : Value.ofDocument nodes = .ok document) :
    Schema.BodiesHold document.loops ∧ document.root.WellKeyed ∧
      ∀ entry ∈ document.loops, entry.2.WellKeyed := by
  obtain ⟨⟨loops, met⟩, hadmitted, h⟩ := bind_eq_ok_iff.1 h
  obtain ⟨bodies, hbodies, h⟩ := bind_eq_ok_iff.1 h
  obtain ⟨root, hroot, h⟩ := bind_eq_ok_iff.1 h
  obtain rfl := pure_eq_ok_iff.1 h
  have hsettled := settled_of_admittedLoops hsound hadmitted
  have hmarks : ∀ l, Value.ReadsKeyed (Value.ofLoop loops l) := by
    intro l v hv
    rcases Value.ofLoop_cases hv with hscalar | rfl
    · exact Value.wellKeyed_of_isScalar hscalar
    · rfl
  have hkeyed : ∀ n, Value.ReadsKeyed (Value.ofNode (Value.ofLoop loops) n) :=
    fun n => (Value.wellKeyed_ofNode hmarks n).1
  have hentries : Yields (fun _ => True)
      (fun entries => ∀ entry ∈ entries, entry.2.isScalar = false ∧ entry.2.WellKeyed)
      (met.mapM fun l => do
        return (l, ← Value.ofNode (Value.ofLoop loops) ((Node.again l).opened loops))) := by
    refine .mapM fun l hl => ?_
    have hbody : Yields (fun _ => True) (fun v : Value => v.isScalar = false ∧ v.WellKeyed)
        (Value.ofNode (Value.ofLoop loops) ((Node.again l).opened loops)) :=
      ⟨fun v hv => ⟨hsettled.isScalar_of_met hl hv, hkeyed _ v hv⟩, fun _ _ => trivial⟩
    exact hbody.bind fun v hv => .pure hv
  have hbodies := hentries.1 bodies hbodies
  unfold Looped.untied
  dsimp only
  split
  · refine ⟨List.forall_mem_nil _, ?_, List.forall_mem_nil _⟩
    exact Value.wellKeyed_fill
      (Value.wellKeyed_enter fun entry hentry => (hbodies entry hentry).2) root (hkeyed _ _ hroot)
  · exact ⟨fun entry hentry => (hbodies entry hentry).1, hkeyed _ _ hroot,
      fun entry hentry => (hbodies entry hentry).2⟩

/-- **Every document that is read from a text is tied.** -/
theorem tied_of_parseModel (h : parseModel text = .ok document) : document.Tied := by
  have huntied := untied_of_parseModel h
  have hread : Value.ofText text = .ok document := by
    unfold parseModel at h
    split at h
    · cases h
    · exact h
  obtain ⟨read, hnodes, hread⟩ := bind_eq_ok_iff.1 hread
  cases read with
  | none =>
    obtain rfl := pure_eq_ok_iff.1 hread
    exact .of_root rfl
  | some nodes =>
    obtain ⟨hbodies, hroot, hkeyed⟩ := keyed_of_ofDocument (Node.isAgain_of_ofText hnodes) hread
    exact ⟨hbodies, hroot, hkeyed, huntied⟩

/-! ## Layouts of texts -/

namespace Field

variable {f : Field}

/-- **Which layout a text gives**: the one that its document describes, if it describes one. -/
theorem ofText_eq_ok_iff : ofText text = .ok f ↔
    ∃ document, parseModel text = .ok document ∧ document.root.IsField [] ∧
      document.loops = [] ∧ ofValue document.root = .ok f := by
  constructor
  · intro hf
    obtain ⟨document, hread, hf⟩ := bind_eq_ok_iff.1 hf
    obtain ⟨_, hvalid, hf⟩ := bind_eq_ok_iff.1 hf
    have htied := tied_of_parseModel hread
    have hfield := (validate_eq_ok_iff_isField htied).1 hvalid
    have hnil := htied.loops_eq_nil hfield
    rw [hnil] at hfield
    exact ⟨document, hread, hfield, hnil, hf⟩
  · rintro ⟨document, hread, hfield, hnil, hf⟩
    have hvalid : validate document (some text) = .ok () := by
      rw [validate_eq_ok_iff_isField (tied_of_parseModel hread), hnil]
      exact hfield
    rw [ofText, hread, ok_bind, hvalid, ok_bind, hf]

/-- **Which texts give a layout.**  They are those of the documents that describe a field. -/
theorem exists_ofText_iff :
    (∃ f, ofText text = .ok f) ↔
      ∃ document, parseModel text = .ok document ∧ document.root.IsField document.loops := by
  constructor
  · rintro ⟨f, hf⟩
    obtain ⟨document, hread, hfield, hnil, -⟩ := ofText_eq_ok_iff.1 hf
    exact ⟨document, hread, hnil ▸ hfield⟩
  · rintro ⟨document, hread, hfield⟩
    have hnil := (tied_of_parseModel hread).loops_eq_nil hfield
    rw [hnil] at hfield
    obtain ⟨f, hf, -⟩ := ofValue_of_isField hfield
    exact ⟨f, ofText_eq_ok_iff.2 ⟨document, hread, hfield, hnil, hf⟩⟩

/-- **What a layout that was read can fail with.**  If its widths are whole numbers, then resolving
it and making something of it fails with an error of the layout, or with a number that cannot be
written. -/
theorem contained_of_ofText (h : ofText text = .ok f) (hwidths : f.WidthsWhole) :
    f.Contained (Failure.Foreseen f.NumbersShort) := by
  obtain ⟨document, -, hfield, -, hf⟩ := ofText_eq_ok_iff.1 h
  obtain ⟨raw, hraw, hcontained⟩ := contained_of_isField hfield
  obtain rfl := Except.ok.inj (hraw.symm.trans hf)
  exact hcontained hwidths

end Field

end

end RegisterLayout
