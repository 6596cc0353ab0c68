import RegisterLayout.Proofs.DeclarationFailures
import RegisterLayout.Proofs.DiagramFailures
import RegisterLayout.Proofs.TableFailures

/-!
# Failures of accepted documents

Whoever makes something of a layout handles the errors of layouts and no other failure.  No other
failure arises from a document that is accepted, if its widths are whole numbers and its numbers
are short: neither when its tree is resolved nor in the diagram, the table and the declarations
that are made from it.

Both conditions are needed.  The schema takes a binary64 number for a width if it is equal to one,
but bits cannot be counted by such a number.  A number of more digits than are written, which a
document may have in another base, has no place in a message.

Principal definition: `Field.Contained`.
Principal result: `failures_contained`.
-/

namespace RegisterLayout

open Failure (Foreseen)

namespace Field

/-- All failures of resolving a tree, and of what is made from it then, are of one sort. -/
structure Contained (p : Failure → Prop) (raw : Field) : Prop where
  resolve : FailsOnly p raw.resolve
  diagram : ∀ root, raw.resolve = .ok root → FailsOnly p root.diagram
  table : ∀ root, raw.resolve = .ok root → FailsOnly p root.table
  declarations : ∀ root, raw.resolve = .ok root → ∀ o, FailsOnly p (root.declarations o)

theorem Contained.imp {p q : Failure → Prop} {raw : Field} (h : raw.Contained p)
    (hpq : ∀ e, p e → q e) : raw.Contained q where
  resolve := fun e he => hpq e (h.resolve e he)
  diagram := fun root hr e he => hpq e (h.diagram root hr e he)
  table := fun root hr e he => hpq e (h.table root hr e he)
  declarations := fun root hr o e he => hpq e (h.declarations root hr o e he)

/-- **What is made of a tree fails as foreseen.** -/
theorem contained_of_expected {short : Prop} {raw : Field} (he : raw.Expected short)
    (hlimit : short → (Value.int raw.extent).isWritable = true) :
    raw.Contained (Foreseen short) := by
  obtain ⟨hresolve, hsizes⟩ := failsOnly_resolve he hlimit
  refine ⟨hresolve, fun root hr => ?_, fun root hr => ?_, fun root hr o => ?_⟩
  · exact failsOnly_diagram he.typed (hsizes root hr) hr hlimit
  · have hwhole := hsizes root hr
    obtain ⟨hplaceable, rfl⟩ := located_of_resolve hwhole hr
    exact failsOnly_table he.typed hwhole hplaceable hlimit
  · have hwhole := hsizes root hr
    exact failsOnly_declarations (sizable_of_wellTyped he.typed hwhole he.parts hlimit) hwhole hr

end Field

/-- What is made of a described field fails as foreseen. -/
theorem contained_of_isField {v : Value} (h : v.IsField []) :
    ∃ raw, Field.ofValue v = .ok raw ∧
      (raw.WidthsWhole → raw.Contained (Foreseen raw.NumbersShort)) := by
  obtain ⟨raw, hraw, hdescribes⟩ := Field.ofValue_of_isField h
  refine ⟨raw, hraw, fun hwidths => ?_⟩
  refine Field.contained_of_expected ⟨hdescribes.wellTyped h, hwidths, fun hs => hs.parts⟩ ?_
  exact fun hs => hs.extent

/-! ## Accepted documents -/

/-- **What an accepted document can fail with.**  Every accepted document is read as a tree.  If its
widths are whole numbers, then resolving the tree and making something of it fails with an error of
the layout; or with a number that cannot be written, which short numbers rule out. -/
theorem failures_contained (document : Looped Value) (text : Option Text) (h : document.Tied)
    (hvalid : validate document text = .ok ()) :
    ∃ raw, Field.ofValue document.root = .ok raw ∧
      (raw.WidthsWhole → raw.NumbersShort → raw.Contained Failure.IsLayout) ∧
      (raw.WidthsWhole → raw.Contained fun e => e.IsLayout ∨ e = .longNumber) := by
  have hfield := (validate_eq_ok_iff_isField h).1 hvalid
  rw [h.loops_eq_nil hfield] at hfield
  obtain ⟨raw, hraw, hcontained⟩ := contained_of_isField hfield
  refine ⟨raw, hraw, fun hwidths hshort => (hcontained hwidths).imp ?_,
    fun hwidths => (hcontained hwidths).imp ?_⟩
  · exact fun e he => he.resolve_right fun hlong => hlong.2 hshort
  · exact fun e he => he.imp_right And.left

/-- A struct of a word with an enumeration and a union. -/
def plainDocument : Value := .map [
  (.str "type", .str "struct"), (.str "name", .str "regs"),
  (.str "fields", .list [
    .map [(.str "type", .str "word"), (.str "name", .str "mode"), (.str "bits", 32),
      (.str "enum", .map [(.str "on", 1)])],
    .map [(.str "type", .str "union"), (.str "name", .str "u"), (.str "fields", .list [
      .map [(.str "type", .str "opaque"), (.str "bytes", 4), (.str "decl", .str "u8 raw[4];")]])]])]

theorem failures_contained_plainDocument :
    ∃ raw, Field.ofValue plainDocument = .ok raw ∧ raw.Contained Failure.IsLayout := by
  have htied : (Looped.mk plainDocument []).Tied := .of_root (by decide +kernel)
  have hvalid : validate ⟨plainDocument, []⟩ none = .ok () :=
    validate_eq_ok_iff.2 (by decide +kernel)
  obtain ⟨raw, hraw, hcontained, -⟩ := failures_contained ⟨plainDocument, []⟩ none htied hvalid
  refine ⟨raw, hraw, hcontained ?_ ?_⟩
  · obtain rfl := Except.ok.inj (hraw.symm.trans rfl)
    decide
  · obtain rfl := Except.ok.inj (hraw.symm.trans rfl)
    decide +kernel

/-- A word whose width is written with a point. -/
def pointedWidth : Value := .map [
  (.str "type", .str "word"), (.str "name", .str "a"), (.str "bits", .num (.real (.finite 32))),
  (.str "enum", .map [(.str "x", 1)])]

/-- What is read from it. -/
def pointedWord : Word where
  header := { name := some (.str "a") }
  bits := .num (.real (.finite 32))
  enumeration := some [(.str "x", 1)]

theorem isAligned_pointedWord : isAligned 0 (.real (.finite 32)) = .ok true := by
  have hstart : Number.asReal 0 = .ok (.finite 0) := by
    have hreal : Number.toReal? 0 = some (.finite 0) := by decide +kernel
    rw [Number.asReal, hreal]
    rfl
  have hzero : ((Number.real (.finite 0)).mod
      ((Number.real (.finite 32)).floorDiv 8).truncate).isZero = true := by
    decide +kernel
  simp only [isAligned, hstart, ok_bind, hzero]
  rfl

theorem resolve_pointedWord : (Field.word pointedWord).resolve = .error .wrongType := by
  have hname : nodeName pointedWord.header [] 0 =
      .ok (Text.ofString "a", [.label (Text.ofString "a")]) := rfl
  have hword : placeWord pointedWord "a" 0 = .error .wrongType := by
    have hwidth : wordWidth? pointedWord.bits = some (.real (.finite 32)) := by decide +kernel
    unfold placeWord
    simp only [hwidth, isAligned_pointedWord, ok_bind]
    rfl
  rw [Field.resolve, Field.place, hname, ok_bind]
  simp only [hword]
  rfl

/-- The word is accepted, but the bounds of its enumeration cannot be counted. -/
theorem pointedWidth_uncontained :
    validate ⟨pointedWidth, []⟩ none = .ok () ∧
      Field.ofValue pointedWidth = .ok (.word pointedWord) ∧
      (Field.word pointedWord).resolve = .error .wrongType ∧
      ¬Failure.wrongType.IsLayout := by
  have hvalid : validate ⟨pointedWidth, []⟩ none = .ok () :=
    validate_eq_ok_iff.2 (by decide +kernel)
  refine ⟨hvalid, rfl, resolve_pointedWord, ?_⟩
  rintro ⟨l, hl⟩
  cases hl

end RegisterLayout
