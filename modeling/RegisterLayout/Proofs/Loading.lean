import RegisterLayout.Proofs.Described
import RegisterLayout.Proofs.Explained
import RegisterLayout.Proofs.Positions
import RegisterLayout.Proofs.TokenReading
import RegisterLayout.Proofs.TreeValues

/-!
# What reading a model comes to

The text of a model is read as a tree of fields, or it is rejected with messages, unless something
else stands in the way: a fault of the text that is none of its form, a scalar that is not what its
tag asks for, constants whose names have no order, or a number with too many digits.  A text without
cycles is not read for these reasons only, given what is assumed of recursion: `Node.maxDepth`
limits how deep the reader goes down, and nothing limits how deep a document that was read is
checked and built.

Principal definitions: `Text.Acyclic`, `LoadFault`.
Principal result: `ofText_of_acyclic`.
-/

namespace RegisterLayout

open Document Violation

/-- A text in whose document no collection contains itself. -/
def Text.Acyclic (text : Text) : Prop :=
  ∀ document, Node.ofText text = .ok (some document) → document.Acyclic

/-- What stands in the way of reading the model of a text, other than its form.  That something goes
too deep is said of the reader alone, as `Node.maxDepth` assumes. -/
inductive LoadFault (text : Text) : Failure → Prop
  /-- Collections stand too deep one inside the other, an escape is that of no character, or the
  version of a directive is too long. -/
  | unread {e : Failure} (hunread : Node.ofText text = .error e)
      (hfault : e = .tooDeep ∨ TextFault e) (hother : e ≠ .malformedText) : LoadFault text e
  /-- A scalar is not what its tag asks for. -/
  | misread {document : Looped Node} {e : Failure}
      (hdocument : Node.ofText text = .ok (some document)) (h : document.root.Misreads e) :
      LoadFault text e
  /-- The names of two constants have no order. -/
  | incomparable {value : Looped Value} (hvalue : Value.ofText text = .ok value)
      (h : value.root.Incomparable) : LoadFault text .wrongType
  /-- A number has too many digits to be written. -/
  | long {value : Looped Value} (hvalue : Value.ofText text = .ok value)
      (h : ¬value.root.IsShort) : LoadFault text .longNumber
  /-- The negative name of a constant is looked up in a list that is too short for it. -/
  | mistaken {document : Looped Node} {value : Looped Value} {path : List Value}
      {constants : List (Value × Value)} {c : Value × Value} {i : Int} {start : Nat} {tag : Tag}
      {items : List Node} (hdocument : Node.ofText text = .ok (some document))
      (hvalue : Value.ofText text = .ok value)
      (hconstants : value.root.at? (path ++ [.str "enum"]) = some (.map constants))
      (hc : c ∈ constants) (hi : c.1 = .int i)
      (hnode : Node.find document (path ++ [.str "enum"]) = .ok (.sequence start tag items))
      (hrange : i + items.length < 0) : LoadFault text .outOfRange

/-- Why a text is not read as a model: its form is rejected, or something else stands in the
way. -/
def Rejected (text : Text) (e : Failure) : Prop := (∃ ms, e = .violations ms) ∨ LoadFault text e

/-! ## Documents and values -/

theorem failsOnly_nodeOfText (text : Text) :
    FailsOnly (fun e => e = .malformedText ∨ e = .tooDeep ∨ TextFault e) (Node.ofText text) := by
  unfold Node.ofText
  split
  · exact .throw (.inl rfl)
  · next chars _ =>
    have hread := Node.ofTokens_sound fun t (ht : t ∈ (TokenList.ofText chars).tokens) =>
      TokenList.within_ofText ht
    refine hread.2.imp fun e he => he.imp_right fun he => he.imp_right ?_
    rintro ⟨count, hfault⟩
    exact textFault_ofText hfault

theorem yields_valueOfText {text : Text} (h : text.Acyclic) :
    Yields (fun e => e = .malformedText ∨ LoadFault text e) (fun value => value.loops = [])
      (Value.ofText text) := by
  unfold Value.ofText
  cases hread : Node.ofText text with
  | error e =>
    refine .error ?_
    by_cases he : e = .malformedText
    · exact .inl he
    · exact .inr (.unread hread ((failsOnly_nodeOfText text e hread).resolve_left he) he)
  | ok document =>
    cases document with
    | none => exact .pure rfl
    | some document =>
      obtain ⟨hok, hfails⟩ := yields_ofDocument (h document hread)
      exact ⟨hok, hfails.imp fun e he => he.imp_right (.misread hread)⟩

theorem yields_parseModel {text : Text} (h : text.Acyclic) :
    Yields (Rejected text) (fun value => Value.ofText text = .ok value ∧ value.loops = [])
      (parseModel text) := by
  obtain ⟨hok, hfails⟩ := yields_valueOfText h
  unfold parseModel
  cases hread : Value.ofText text with
  | ok value => exact .pure ⟨rfl, hok value hread⟩
  | error e =>
    rcases hfails e hread with rfl | he
    · exact .error (.inl ⟨_, rfl⟩)
    · cases e with
      | malformedText => exact .error (.inl ⟨_, rfl⟩)
      | _ => exact .error (.inr he)

/-! ## Positions -/

/-- A sequence in which an index is looked up that is before its first item. -/
def Document.Node.Precedes (n : Node) (step : Value) : Prop :=
  ∃ (i : Int) (start : Nat) (tag : Tag) (items : List Node), step = .int i ∧
    n = .sequence start tag items ∧ i + items.length < 0

theorem failsOnly_entryAt {step : Value} (hstep : step.isWritable = true)
    (entries : List (Node × Node)) : FailsOnly (fun _ => False) (Node.entryAt step entries) := by
  induction entries with
  | nil => exact .ok
  | cons entry entries ih =>
    obtain ⟨key, value⟩ := entry
    cases key with
    | scalar start tag text =>
      rw [Node.entryAt]
      refine FailsOnly.bind ?_ fun _ _ => .ite (fun _ => .pure) fun _ => ih
      exact (failsOnly_longNumber_written step).imp fun e he => he.2 hstep
    | _ => exact ih

theorem failsOnly_child {n : Node} {step : Value} (hstep : step.isWritable = true) :
    FailsOnly (fun e => e = .outOfRange ∧ n.Precedes step) (n.child step) := by
  unfold Node.child
  split
  · exact .ok
  · exact .ok
  · next start tag items =>
    unfold Node.itemAt
    split
    · exact .ok
    · next i hi =>
      refine .ite (fun _ => .ok) fun _ => .ite (fun hbefore => .error ⟨rfl, ?_⟩) fun _ => .ok
      have hneg : i < 0 ∧ i + items.length < 0 := by
        split at hbefore <;> omega
      refine ⟨i, start, tag, items, ?_, rfl, hneg.2⟩
      split at hi
      · next b =>
        obtain rfl := Option.some.inj hi
        cases b <;> simp at hneg
      · exact Value.int?_eq_some.1 hi
  · exact (failsOnly_entryAt hstep _).imp fun _ => False.elim

/-- A place is found unless an index on the way is before the first item. -/
theorem failsOnly_findFrom {loops : Loops Node} {n : Node} {path : List Value}
    (hpath : ∀ step ∈ path, step.isWritable = true) :
    FailsOnly (fun e => e = .outOfRange ∧ ∃ before step after m, path = before ++ step :: after ∧
      Node.findFrom loops n before = .ok m ∧ m.Precedes step) (Node.findFrom loops n path) := by
  induction path generalizing n with
  | nil => exact .ok
  | cons step path ih =>
    obtain ⟨hstep, hpath⟩ := List.forall_mem_cons.1 hpath
    rw [Node.findFrom]
    refine FailsOnly.bind ?_ fun next hnext => ?_
    · refine (failsOnly_child hstep).imp fun e he => ⟨he.1, [], step, path, n, rfl, rfl, he.2⟩
    · cases next with
      | none => exact .pure
      | some next =>
        refine (ih hpath).imp ?_
        rintro e ⟨he, before, later, after, m, hpath, hm, hprecedes⟩
        refine ⟨he, step :: before, later, after, m, hpath ▸ rfl, ?_, hprecedes⟩
        rw [Node.findFrom, hnext, ok_bind]
        exact hm

/-- A path that leads down holds a negative number only as the name of a constant. -/
theorem Value.Leads.negative {w : Value} {before after : List Value} {i : Int}
    (h : w.Leads (before ++ .int i :: after)) (hi : i < 0) :
    ∃ path constants c, before = path ++ [.str "enum"] ∧
      w.at? before = some (.map constants) ∧ c ∈ constants ∧ c.1 = .int i := by
  induction before generalizing w with
  | nil =>
    obtain ⟨u, hu, -⟩ := Value.Leads.cons h
    obtain ⟨_, _, _, heq, -⟩ | ⟨_, k, _, heq, -⟩ := Value.step?_cases hu
    · cases heq
    · obtain rfl : i = k := by simpa using heq
      omega
  | cons step before ih =>
    obtain ⟨u, hu, hrest, henum⟩ := Value.Leads.cons h
    by_cases hdown : u.Leads (before ++ .int i :: after)
    · obtain ⟨path, constants, c, rfl, hat, hc⟩ := ih hdown
      refine ⟨step :: path, constants, c, rfl, ?_, hc⟩
      rw [Value.at?_cons, hu, Option.bind_some, hat]
    · obtain ⟨constants, c, rfl, hc, hpath⟩ := hrest.resolve_left hdown
      obtain rfl := henum hdown
      obtain ⟨rfl, hname⟩ : before = [] ∧ c.1 = .int i := by
        cases before with
        | nil => exact ⟨rfl, (List.cons.inj hpath).1.symm⟩
        | cons _ before => simp at hpath
      exact ⟨[], constants, c, rfl, Value.at?_step hu, hc, hname⟩

/-! ## Messages -/

section

variable {text : Text} {w : Value} (hvalue : Value.ofText text = .ok ⟨w, []⟩)
include hvalue

/-- What explains a violation has a place in the text, unless a list stands where the enumeration
is that a constant belongs to. -/
theorem failsOnly_shownPosition {document : Option (Looped Node)}
    (hread : Node.ofText text = .ok document) {path : List Value} (hleads : w.Leads path)
    (hpath : ∀ step ∈ path, step.isWritable = true) :
    FailsOnly (LoadFault text) (shownPosition (some text) document path) := by
  cases document with
  | none => exact .ok
  | some document =>
    refine FailsOnly.bind ?_ fun _ _ => .pure
    refine (failsOnly_findFrom hpath).imp ?_
    rintro _ ⟨rfl, before, step, after, m, rfl, hm, i, start, tag, items, rfl, rfl, hrange⟩
    have hneg : i < 0 := by omega
    obtain ⟨path, constants, c, rfl, hconstants, hc, hname⟩ := hleads.negative hneg
    exact .mistaken hread hvalue hconstants hc hname hm hrange

theorem failsOnly_messages {xs : List Violation} (hxs : ∀ x ∈ xs, About w x) :
    FailsOnly (LoadFault text) (messages [] (some text) xs) := by
  obtain ⟨document, hread, -⟩ := bind_eq_ok_iff.1 hvalue
  have hdocument : documentOf (some text) = .ok document := hread
  rw [messages_eq, hdocument, ok_bind]
  have hroot : w.at? [] = some w := rfl
  refine .mapM fun x hx => ?_
  obtain ⟨hleads, hbest⟩ := yields_best x hroot (hxs x hx)
  refine FailsOnly.bind (hbest.imp ?_) fun found hfound => ?_
  · rintro _ ⟨rfl, h⟩
    exact .incomparable hvalue h
  have hpath := hleads found hfound
  refine FailsOnly.bind ((failsOnly_pathText hpath).imp ?_) fun place hplace => ?_
  · rintro _ ⟨rfl, h⟩
    exact .long hvalue h
  exact (failsOnly_shownPosition hvalue hread hpath (isWritable_of_pathText hplace)).bind
    fun _ _ => .pure

/-- A document is accepted, or it is rejected with messages, unless something else stands in the
way. -/
theorem failsOnly_validate : FailsOnly (Rejected text) (validate ⟨w, []⟩ (some text)) := by
  have habout : ∀ x ∈ Schema.violations ⟨w, []⟩, About w x := fun x hx =>
    Schema.sound_anyField w x ((Text.sortBy_perm _ _).subset hx)
  unfold validate
  dsimp only
  refine .ite (fun _ => .pure) fun _ => ?_
  split
  · next e he =>
    obtain ⟨rfl, hlong⟩ := firstFault?_of_about _ habout e he
    exact .throw (.inr (.long hvalue fun h => hlong h.1))
  · exact ((failsOnly_messages hvalue habout).imp fun _ => .inr).bind fun ms _ =>
      .throw (.inl ⟨ms, rfl⟩)

end

theorem failsOnly_ofText {text : Text} (h : text.Acyclic) :
    FailsOnly (Rejected text) (Field.ofText text) := by
  obtain ⟨hok, hfails⟩ := yields_parseModel h
  unfold Field.ofText
  refine hfails.bind fun value hread => ?_
  obtain ⟨hvalue, hloops⟩ := hok value hread
  obtain ⟨w, loops⟩ := value
  obtain rfl : loops = [] := hloops
  refine (failsOnly_validate hvalue).bind fun _ hvalid => ?_
  have hbodies : Schema.BodiesHold [] := nofun
  have hnone := validate_eq_ok_iff.1 hvalid
  obtain ⟨f, hf, -⟩ := Field.ofValue_of_isField (isField_of_fieldViolations hbodies hnone)
  rw [hf]
  exact .ok

/-- **What reading a model comes to.**  A text without cycles is read as a field, or it is rejected
with messages, or something else stands in the way. -/
theorem ofText_of_acyclic {text : Text} (h : text.Acyclic) :
    (∃ f, Field.ofText text = .ok f) ∨ (∃ ms, Field.ofText text = .error (.violations ms)) ∨
      ∃ e, Field.ofText text = .error e ∧ LoadFault text e := by
  cases hread : Field.ofText text with
  | ok f => exact .inl ⟨f, rfl⟩
  | error e =>
    rcases failsOnly_ofText h e hread with ⟨ms, rfl⟩ | hfault
    · exact .inr (.inl ⟨ms, rfl⟩)
    · exact .inr (.inr ⟨e, rfl, hfault⟩)

instance (document : Looped Node) : Decidable document.Acyclic :=
  inferInstanceAs (Decidable (∀ n ∈ document.root.nodes, _))

theorem acyclic_of_any {text : Text}
    (h : (Node.ofText text).toOption.any (·.any fun document => decide document.Acyclic) = true) :
    text.Acyclic := by
  intro document hdocument
  rw [hdocument] at h
  exact of_decide_eq_true h

theorem ofText_of_acyclic_doubtfulText :
    doubtfulText.Acyclic ∧
      Field.ofText doubtfulText = .error (.violations
        ["'maybe' is not of type 'boolean' at /signed (3:9: signed: maybe)"]) ∧
      ((∃ f, Field.ofText doubtfulText = .ok f) ∨
        (∃ ms, Field.ofText doubtfulText = .error (.violations ms)) ∨
        ∃ e, Field.ofText doubtfulText = .error e ∧ LoadFault doubtfulText e) := by
  have hacyclic : doubtfulText.Acyclic := acyclic_of_any (by decide +kernel)
  have hread : (Value.ofText doubtfulText).toOption.any (fun value =>
      decide (validate value (some doubtfulText) = .error (.violations
        ["'maybe' is not of type 'boolean' at /signed (3:9: signed: maybe)"]))) = true := by
    decide +kernel
  obtain ⟨value, hvalue, hread⟩ := exists_of_any hread
  have hparsed : parseModel doubtfulText = .ok value := by rw [parseModel, hvalue]
  refine ⟨hacyclic, ?_, ofText_of_acyclic hacyclic⟩
  rw [Field.ofText, hparsed, ok_bind, of_decide_eq_true hread, error_bind]

/-- A word whose description has the form of a binary number, but no digits. -/
def digitlessText : Text := "type: word\nbits: 8\ndesc: 0b_\n"

/-- The text is neither read nor rejected with messages. -/
theorem digitless_unread :
    digitlessText.Acyclic ∧ Field.ofText digitlessText = .error (.badNumeral 2 []) ∧
      ¬((∃ f, Field.ofText digitlessText = .ok f) ∨
        ∃ ms, Field.ofText digitlessText = .error (.violations ms)) := by
  have hread : (failure? (Field.ofText digitlessText)).any (fun
      | .badNumeral base text => base == 2 && text.isEmpty
      | _ => false) = true := by
    decide +kernel
  obtain ⟨e, hfailure, hnumeral⟩ := (Option.any_eq_true _ _).1 hread
  have hfails := failure?_eq_some_iff.1 hfailure
  obtain rfl : e = .badNumeral 2 [] := by
    cases e with
    | badNumeral base text => simpa using hnumeral
    | _ => cases hnumeral
  refine ⟨acyclic_of_any (by decide +kernel), hfails, ?_⟩
  rintro (⟨f, hf⟩ | ⟨ms, hms⟩)
  · rw [hfails] at hf
    cases hf
  · rw [hfails] at hms
    cases hms

end RegisterLayout
