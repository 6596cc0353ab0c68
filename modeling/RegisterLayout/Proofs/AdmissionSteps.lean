import RegisterLayout.Proofs.NodeTree
import RegisterLayout.Proofs.Run
import RegisterLayout.Value.Admission

/-!
# Steps of an admission

What an admission does to any invariant of its state.  A node is opened, its tag is told and the
text of a scalar is found without a change to the state.  A mapping whose keys are taken for texts
changes only the list of such keys, and what waits after several steps is what waits after each of
them.

Principal results: `keeps_tagOf`, `keeps_scalarText`, `keeps_takeKeysForTexts`, `keeps_meet`,
`keeps_waiting`.
-/

namespace RegisterLayout

open Document Admission

section

variable {inv : Admission → Prop} {fails : Failure → Prop}

theorem keeps_opened (n : Node) :
    Keeps inv fails (fun m => ∃ a, inv a ∧ m = n.opened a.loops) (opened n) :=
  .bind .get fun a ha => .pure ⟨a, ha, rfl⟩

/-- **The tag that counts for a node** is that of the node as it is opened, or that of a text in
place of one for a value.  A mark without a body counts as a sequence. -/
theorem keeps_tagOf {n : Node} {p : Tag → Prop} (hvalue : p .value → p .str)
    (htag : ∀ a, inv a → ∀ tag, (n.opened a.loops).tag? = some tag → p tag)
    (hmark : ∀ a, inv a → (n.opened a.loops).tag? = none → p .seq) :
    Keeps inv fails p (tagOf n) := by
  have hcounts : ∀ {start : Nat} {tag : Tag}, p tag → Keeps inv fails p (do
      return if tag = .value ∧ start ∈ (← get).textKeys then .str else tag) := by
    intro start tag hp
    refine .bind .get fun a _ => .pure ?_
    split
    · next h => exact hvalue (h.1 ▸ hp)
    · exact hp
  refine (keeps_opened n).bind fun m hm => ?_
  obtain ⟨a, ha, hm⟩ := hm
  have htag := htag a ha
  have hmark := hmark a ha
  rw [← hm] at htag hmark
  split
  · exact hcounts (htag _ rfl)
  · exact hcounts (htag _ rfl)
  · exact hcounts (htag _ rfl)
  · exact .pure (hmark rfl)

theorem passes_tagOf (n : Node) : Keeps inv fails (fun _ => True) (tagOf n) :=
  keeps_tagOf id (fun _ _ _ _ => trivial) fun _ _ _ => trivial

theorem keeps_takeKeysForTexts (h : ∀ a keys, inv a → inv { a with textKeys := keys })
    (entries : List (Node × Node)) :
    Keeps inv fails (fun _ => True) (takeKeysForTexts entries) := by
  refine .forM fun entry _ => (passes_tagOf _).bind fun tag _ => .ite (fun _ => ?_) fun _ =>
    .pure trivial
  exact (keeps_opened _).bind fun m _ => .update fun a ha => h a _ ha

/-- The text of a scalar is found, or there is none. -/
theorem keeps_scalarText (hdeep : fails .tooDeep) (hmalformed : fails .malformedText)
    (fuel : Nat) (n : Node) : Keeps inv fails (fun _ => True) (scalarText fuel n) := by
  induction fuel generalizing n with
  | zero => exact .throw hdeep
  | succ fuel ih =>
    unfold scalarText
    refine (keeps_opened n).bind fun m _ => ?_
    split
    · exact .pure trivial
    · refine (Keeps.findM? fun entry _ =>
        (passes_tagOf _).bind fun _ _ => .pure trivial).bind fun found _ => ?_
      split
      · exact ih _
      · exact .throw hmalformed
    · exact .throw hmalformed

/-- What waits after several steps. -/
theorem keeps_waiting {β : Type} {post : Node → Prop} {xs : List β} {step : β → Admit (List Node)}
    (h : ∀ x ∈ xs, Keeps inv fails (fun waiting => ∀ m ∈ waiting, post m) (step x)) :
    Keeps inv fails (fun waiting => ∀ m ∈ waiting, post m) (do
      return (← xs.mapM step).flatten) :=
  (Keeps.flatten_mapM h).bind fun _ hfound => .pure hfound

/-- **A node that is met** waits if its tag makes a collection, a mark only once.  Otherwise it is
read as a scalar, and a mark stands for that scalar from then on. -/
theorem keeps_meet {n : Node} {counts : Tag → Prop}
    (htag : Keeps inv (fun _ => True) counts (tagOf n))
    (hmet : ∀ l tag, n = .again l → counts tag → tag.isCollection = true →
      ∀ a, inv a → inv { a with met := l :: a.met })
    (hput : ∀ l tag text, n = .again l → counts tag → ¬tag.isCollection = true →
      tag.isScalar = true → ∀ a, inv a → inv { a with loops := a.loops.put l (.scalar 0 tag text) })
    (fuel : Nat) :
    Keeps inv (fun _ => True) (fun waiting => ∀ m ∈ waiting, m = n) (meet fuel n) := by
  have hself : ∀ m ∈ [n], m = n := List.forall_mem_singleton.2 rfl
  refine htag.bind fun tag hcounts => .ite (fun hcollection => ?_) fun hcollection => ?_
  · split
    · exact .bind .get fun _ _ => .ite (fun _ => .pure (List.forall_mem_nil _)) fun _ =>
        .bind (.update (hmet _ tag rfl hcounts hcollection)) fun _ _ => .pure hself
    · exact .pure hself
  · refine .ite (fun _ => .throw trivial) fun hscalar => ?_
    have hscalar : tag.isScalar = true := by simpa using hscalar
    refine (keeps_scalarText trivial trivial fuel n).bind fun text _ =>
      (keeps_opened n).bind fun m _ => ?_
    extract_lets isPlain stop read
    have hread : ∀ u, Keeps inv (fun _ => True) (fun waiting => ∀ m ∈ waiting, m = n) (read u) := by
      intro u
      have hvalue : Keeps inv (fun _ => True) (fun _ => True) (liftM (Value.readScalar tag text)) :=
        .lift (fun _ _ => trivial) fun _ _ => trivial
      refine hvalue.bind fun _ _ => ?_
      split
      · exact .bind (.update (hput _ tag text rfl hcounts hcollection hscalar))
          fun _ _ => .pure (List.forall_mem_nil _)
      · exact .pure (List.forall_mem_nil _)
    exact .refuse (fun _ => trivial) fun _ => hread ()

end

end RegisterLayout
