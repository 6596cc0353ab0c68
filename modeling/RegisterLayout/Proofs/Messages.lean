import RegisterLayout.Model
import RegisterLayout.Proofs.Relevance

/-!
# What messages show

A document that the schema rejects is reported by one message for each violation.  A message shows
the complaint that explains the violation best and the path to its place, and where the text of the
document is known also the line that it stands on.

Principal definition: `Violation.Shows`.
Principal result: `shows_of_validate`.
-/

namespace RegisterLayout

open Document Violation

/-- A failure other than the rejection of a document by the schema. -/
def Unrefused (e : Failure) : Prop := ∀ ms, e ≠ .violations ms

namespace Violation

/-- A message that shows a violation: the complaint and the path of what explains it best, and
behind them perhaps a position. -/
def Shows (loops : Loops Value) (found : List Value × Complaint) (message : Text) : Prop :=
  ∃ place position, pathText found.1 = .ok place ∧
    message = found.2.text loops ++ " at " ++ place ++ position

/-! ## Other failures on the way -/

theorem failsOnly_compareSteps (a b : Value) :
    FailsOnly (fun e => e = .wrongType) (compareSteps a b) := by
  unfold compareSteps
  split
  · exact .ok
  · split
    · exact .ok
    · split
      · exact .ok
      · exact .ok
      · exact .ok
      · split
        · exact .ok
        · exact .error rfl
      · exact .error rfl

theorem comparePaths_unrefused (p q : List Value) : FailsOnly Unrefused (comparePaths p q) := by
  induction p generalizing q with
  | nil => cases q <;> exact .ok
  | cons a p ih =>
    cases q with
    | nil => exact .ok
    | cons b q =>
      rw [comparePaths]
      have hsteps : FailsOnly Unrefused (compareSteps a b) :=
        (failsOnly_compareSteps a b).imp fun e he _ => by simp [he]
      refine hsteps.bind fun o _ => ?_
      cases o with
      | eq => exact ih q
      | lt => exact .pure
      | gt => exact .pure

theorem failsOnly_compare {p : Failure → Prop} {x y : Violation}
    (h : FailsOnly p (comparePaths x.path y.path)) : FailsOnly p (compare x y) := by
  simp only [compare]
  split
  · exact .pure
  · exact h.bind fun _ _ => .pure

mutual

theorem best_unrefused : (x : Violation) → (above : List Value) → FailsOnly Unrefused (best x above)
  | mk path complaint ofType branches, above => by
    rw [best]
    refine (yields_choose (fun x _ y _ => failsOnly_compare (comparePaths_unrefused x.path y.path))
      fun x hx => (branches_unrefused branches x hx _).yields).2.bind fun found _ => ?_
    cases found with
    | none => exact .pure
    | some found => exact .pure

theorem branches_unrefused : (xs : List Violation) →
    ∀ x ∈ xs, ∀ above, FailsOnly Unrefused (best x above)
  | [] => nofun
  | x :: xs => List.forall_mem_cons.2 ⟨best_unrefused x, branches_unrefused xs⟩

end

mutual

theorem fault?_unrefused {loops : Loops Value} {e : Failure} :
    (x : Violation) → fault? loops x = some e → Unrefused e
  | mk path complaint ofType branches, h => by
    rw [fault?, Option.or_eq_some_iff] at h
    rcases h with h | ⟨-, h⟩
    · exact firstFault?_unrefused branches h
    · unfold Complaint.fault? at h
      split at h
      · obtain rfl := Option.some.inj h
        exact fun _ => nofun
      · split at h
        · cases h
        · obtain rfl := Option.some.inj h
          exact fun _ => nofun

theorem firstFault?_unrefused {loops : Loops Value} {e : Failure} :
    (xs : List Violation) → firstFault? loops xs = some e → Unrefused e
  | [], h => by cases h
  | x :: xs, h => by
    rw [firstFault?, Option.or_eq_some_iff] at h
    rcases h with h | ⟨-, h⟩
    · exact fault?_unrefused x h
    · exact firstFault?_unrefused xs h

end

end Violation

theorem failsOnly_longNumber_written (v : Value) :
    FailsOnly (fun e => e = .longNumber ∧ ¬v.isWritable = true) v.written := by
  unfold Value.written Value.writable
  split
  · exact .ok
  · next hv => exact .error ⟨rfl, hv⟩

theorem isWritable_of_written {v : Value} {s : Text} (h : v.written = .ok s) :
    v.isWritable = true := by
  by_contra hv
  simp [Value.written, Value.writable, hv, Except.map] at h

theorem written_unrefused (v : Value) : FailsOnly Unrefused v.written :=
  (failsOnly_longNumber_written v).imp fun _ he _ => he.1 ▸ nofun

theorem pathText_unrefused (path : List Value) : FailsOnly Unrefused (pathText path) :=
  (FailsOnly.mapM fun v _ => written_unrefused v).bind fun _ _ => .pure

theorem findFrom_unrefused (loops : Loops Node) (node : Node) (path : List Value) :
    FailsOnly Unrefused (Node.findFrom loops node path) := by
  have hrange : Unrefused .outOfRange := fun _ => nofun
  have hchild : ∀ (node : Node) (step : Value), FailsOnly Unrefused (node.child step) := by
    intro node step
    unfold Node.child
    split
    · exact .ok
    · exact .ok
    · unfold Node.itemAt
      split
      · exact .ok
      · split
        · exact .ok
        · exact .ite (fun _ => .error hrange) fun _ => .ok
    · next entries =>
      induction entries with
      | nil => exact .ok
      | cons entry entries ih =>
        obtain ⟨key, value⟩ := entry
        cases key with
        | scalar _ _ text =>
          rw [Node.entryAt]
          refine (written_unrefused step).bind fun _ _ => ?_
          split
          · exact .pure
          · exact ih
        | _ => exact ih
  induction path generalizing node with
  | nil => exact .ok
  | cons step path ih =>
    rw [Node.findFrom]
    refine (hchild node step).bind fun next _ => ?_
    cases next with
    | none => exact .pure
    | some next => exact ih (next.opened loops)

/-! ## Messages -/

/-- The document of a text that may be given. -/
def documentOf : Option Text → Except Failure (Option (Looped Node))
  | some text => Node.ofText text
  | none => pure none

/-- The position that a message shows, if the text of the document is given. -/
def shownPosition (text : Option Text) (document : Option (Looped Node)) (path : List Value) :
    Except Failure Text :=
  match text with
  | some text => positionOf text document path
  | none => pure []

theorem messages_eq (loops : Loops Value) (text : Option Text) (xs : List Violation) :
    messages loops text xs = (do
      let document ← documentOf text
      xs.mapM fun x => do
        let found ← x.best []
        let place ← pathText found.1
        let position ← shownPosition text document found.1
        return found.2.text loops ++ " at " ++ place ++ position) := by
  cases text <;> rfl

/-- The messages for violations show what explains them best. -/
theorem shows_of_messages {loops : Loops Value} {text : Option Text} {xs : List Violation}
    {ms : List Text} (h : messages loops text xs = .ok ms) :
    List.Forall₂ (fun x m => ∃ found, x.best [] = .ok found ∧ Violation.Shows loops found m) xs
      ms := by
  rw [messages_eq] at h
  obtain ⟨document, -, h⟩ := bind_eq_ok_iff.1 h
  refine (mapM_eq_ok_forall₂ h).imp fun x m hm => ?_
  obtain ⟨found, hfound, hm⟩ := bind_eq_ok_iff.1 hm
  obtain ⟨place, hplace, hm⟩ := bind_eq_ok_iff.1 hm
  obtain ⟨position, -, hm⟩ := bind_eq_ok_iff.1 hm
  exact ⟨found, hfound, place, position, hplace, pure_eq_ok_iff.1 hm⟩

/-- The text of a document, if it is given, can be read. -/
def Readable (text : Option Text) : Prop := ∃ d, documentOf text = .ok d

theorem messages_unrefused {text : Option Text} (htext : Readable text) (loops : Loops Value)
    (xs : List Violation) : FailsOnly Unrefused (messages loops text xs) := by
  obtain ⟨document, hdocument⟩ := htext
  rw [messages_eq, hdocument, ok_bind]
  refine .mapM fun x _ => ?_
  refine (x.best_unrefused []).bind fun found _ => ?_
  refine (pathText_unrefused _).bind fun place _ => ?_
  refine FailsOnly.bind ?_ fun _ _ => .pure
  cases text with
  | none => exact .pure
  | some t =>
    show FailsOnly Unrefused (positionOf t document found.1)
    unfold positionOf
    cases document with
    | none => exact .ok
    | some document => exact (findFrom_unrefused _ _ _).bind fun _ _ => .pure

/-- A document is rejected with the messages for its violations. -/
theorem messages_of_validate {document : Looped Value} {text : Option Text} {ms : List Text}
    (htext : Readable text) (h : validate document text = .error (.violations ms)) :
    messages document.loops text (Schema.violations document) = .ok ms := by
  unfold validate at h
  simp only at h
  split at h
  · cases h
  · split at h
    · next fault hfault =>
      exact absurd (Except.error.inj h) (firstFault?_unrefused _ hfault ms)
    · rcases bind_eq_error_iff.1 h with h | ⟨ms', hms, h⟩
      · exact absurd rfl (messages_unrefused htext _ _ _ h ms)
      · obtain rfl : ms' = ms := by injection Except.error.inj h
        exact hms

/-- The messages about a rejected document show what explains its violations best, one for one. -/
theorem shows_of_validate {document : Looped Value} {text : Option Text} {ms : List Text}
    (htext : Readable text) (h : validate document text = .error (.violations ms)) :
    List.Forall₂
      (fun x m => ∃ found, x.best [] = .ok found ∧ Violation.Shows document.loops found m)
      (Schema.violations document) ms :=
  shows_of_messages (messages_of_validate htext h)

/-- The messages that a document is rejected with. -/
def rejection? {α : Type} : Except Failure α → Option (List Text)
  | .error (.violations ms) => some ms
  | _ => none

theorem rejection?_eq_some_iff {α : Type} {x : Except Failure α} {ms : List Text} :
    rejection? x = some ms ↔ x = .error (.violations ms) := by
  unfold rejection?
  split
  · simp
  · next hother => exact iff_of_false nofun fun h => hother _ h

instance {α : Type} {x : Except Failure α} {ms : List Text} :
    Decidable (x = .error (.violations ms)) :=
  decidable_of_iff _ rejection?_eq_some_iff

end RegisterLayout
