import RegisterLayout.Document.Token
import RegisterLayout.Proofs.Outcome

/-!
# How words and scalars are read

A reading from a cursor on comes to a cursor in the same text.  It stops where no token can be read,
at an escape whose number is that of no character, or at a version with more digits than are read,
and for no other reason.

Principal definitions: `TextFault`, `Cursor.Within`, `Reaches`, `Scans`.
Principal results: `Cursor.Within.plainScalar`, `Cursor.scans_quotedScalar`,
`Cursor.scans_blockScalar`, `Cursor.scans_tag`, `Cursor.scans_directive`.
-/

namespace RegisterLayout.Document

/-- What can be wrong with the tokens of a text. -/
inductive TextFault : Failure → Prop
  | malformed : TextFault .malformedText
  | noSuchCharacter : TextFault .noSuchCharacter
  | overflow : TextFault .overflow
  | longNumeral {digits : Nat} (h : Number.maxDigits < digits) : TextFault (.longNumeral digits)

/-- A cursor in a text of some length. -/
def Cursor.Within (length : Nat) (c : Cursor) : Prop := c.offset + c.rest.length = length

section

variable {α : Type} {length : Nat}

/-- A reading that stops at a fault of the text, or goes on to a result. -/
abbrev Reaches (post : α → Prop) (x : Except Failure α) : Prop := Yields TextFault post x

/-- A reading from a cursor to another one in the same text. -/
abbrev Scans (length : Nat) (x : Except Failure (α × Cursor)) : Prop :=
  Reaches (fun r => r.2.Within length) x

theorem reaches_malformed {post : α → Prop} :
    Reaches post (.error .malformedText : Except Failure α) := .error .malformed

/-- A check before the rest of a reading. -/
theorem reaches_check {post : α → Prop} {c : Prop} [Decidable c] {rest : Unit → Except Failure α}
    (hrest : ∀ u, Reaches post (rest u)) :
    Reaches post (if c then (throw .malformedText : Except Failure Unit) >>= rest else rest ()) :=
  .refuse (fun _ => .malformed) fun _ => hrest ()

end

namespace Cursor

variable {length : Nat} {c c' : Cursor}

/-! ## Cursors in a text -/

namespace Within

variable (h : c.Within length)
include h

theorem offset_le : c.offset ≤ length := Nat.le.intro h

theorem next : c.next.Within length := by
  unfold Cursor.next
  split
  · exact h
  · next x rest hrest =>
    rw [Within, hrest, List.length_cons] at h
    show c.offset + 1 + rest.length = length
    omega

omit h in
theorem advance (n : Nat) {c : Cursor} (h : c.Within length) : (advance n c).Within length := by
  induction n generalizing c with
  | zero => exact h
  | succ n ih => exact ih h.next

theorem span (p : Char → Bool) : (c.span p).2.Within length := h.advance _

theorem skip (p : Char → Bool) : (c.skip p).Within length := h.span p

theorem takeBreak : c.takeBreak.2.Within length := by
  unfold Cursor.takeBreak
  split
  · exact h.advance 2
  · split
    · exact h.next
    · split
      · exact h.next
      · exact h
  · exact h

theorem of_takeBreak {b : Option Char} (hbreak : c.takeBreak = (b, c')) : c'.Within length := by
  have htaken := h.takeBreak
  rwa [hbreak] at htaken

end Within

/-! ## Scalars -/

theorem Within.plainBreaks (fuel : Nat) (h : c.Within length) :
    (plainBreaks fuel c).2.Within length := by
  induction fuel generalizing c with
  | zero => exact h
  | succ fuel ih =>
    unfold Cursor.plainBreaks
    split
    · exact ih h.next
    · split
      · exact h
      · next b c' hbreak =>
        have hbehind := h.of_takeBreak hbreak
        split
        · exact hbehind
        · exact ih hbehind

theorem Within.plainGap (h : c.Within length) : c.plainGap.2.2.Within length := by
  unfold Cursor.plainGap
  dsimp only
  split
  · exact h.span _
  · next b c' hbreak =>
    have hbehind := (h.span _).of_takeBreak hbreak
    split
    · exact hbehind
    · have hbreaks := hbehind.plainBreaks c'.rest.length
      split
      · next heq => rwa [heq] at hbreaks
      · next heq => rwa [heq] at hbreaks

theorem Within.plainFrom (inFlow : Bool) (indent : Int) (fuel : Nat) (gap : List Char)
    (keyAllowed : Bool) (h : c.Within length) :
    (plainFrom inFlow indent fuel gap keyAllowed c).2.2.Within length := by
  induction fuel generalizing gap keyAllowed c with
  | zero => exact h
  | succ fuel ih =>
    unfold Cursor.plainFrom
    extract_lets part
    split
    · exact h
    · have hgap := (h.advance part.length).plainGap
      dsimp only
      split
      · exact hgap
      · exact ih _ _ hgap

theorem Within.plainScalar (inFlow : Bool) (indent : Int) (h : c.Within length) :
    (c.plainScalar inFlow indent).2.2.Within length := h.plainFrom _ _ _ _ _

theorem scans_escapedCode (count : Nat) (h : c.Within length) :
    Scans length (c.escapedCode count) := by
  unfold escapedCode
  split
  · exact reaches_malformed
  · split
    · exact .ok (h.advance count)
    · refine .error ?_
      split
      · exact .noSuchCharacter
      · exact .overflow

theorem scans_quotedBreaks (fuel : Nat) (h : c.Within length) :
    Scans length (quotedBreaks fuel c) := by
  induction fuel generalizing c with
  | zero => exact .ok h
  | succ fuel ih =>
    unfold quotedBreaks
    split
    · exact reaches_malformed
    · dsimp only
      split
      · exact .ok (h.skip _)
      · next b c' hbreak =>
        exact (ih ((h.skip _).of_takeBreak hbreak)).bind fun _ hc => .pure hc

theorem scans_quotedGap (h : c.Within length) : Scans length c.quotedGap := by
  unfold quotedGap
  dsimp only
  split
  · exact .ok (h.span _)
  · next b c' hbreak =>
    exact (scans_quotedBreaks _ ((h.span _).of_takeBreak hbreak)).bind fun _ hc => .pure hc

theorem scans_escape (h : c.Within length) : Scans length c.escape := by
  unfold escape
  split
  · exact .ok h.next
  · exact (scans_escapedCode _ h.next).bind fun _ hc => .pure hc
  · split
    · exact reaches_malformed
    · next b c' hbreak =>
      exact (scans_quotedBreaks _ (h.of_takeBreak hbreak)).bind fun _ hc => .pure hc

theorem scans_quotedFrom (double : Bool) (fuel : Nat) (h : c.Within length) :
    Scans length (quotedFrom double fuel c) := by
  induction fuel generalizing c with
  | zero => exact reaches_malformed
  | succ fuel ih =>
    have handThen : ∀ (text : Text) (c : Cursor), c.Within length → Scans length (do
        let r ← quotedFrom double fuel c
        return (text ++ r.1, r.2)) := fun text c hc => (ih hc).bind fun _ hr => .pure hr
    unfold quotedFrom
    dsimp only
    split
    · exact reaches_malformed
    · refine .ite (fun _ => .ite (fun _ => handThen _ _ (h.advance 2)) fun _ => .ok h.next)
        fun _ => ?_
      refine .ite (fun _ => (scans_quotedGap h).bind fun _ hc => handThen _ _ hc) fun _ => ?_
      refine .ite (fun _ => (scans_escape h.next).bind fun _ hc => handThen _ _ hc) fun _ => ?_
      exact handThen _ _ h.next

theorem scans_quotedScalar (double : Bool) (h : c.Within length) :
    Scans length (c.quotedScalar double) := scans_quotedFrom _ _ h.next

theorem reaches_blockHeader (h : c.Within length) :
    Reaches (fun r => r.2.2.Within length) c.blockHeader := by
  unfold blockHeader
  refine reaches_check fun _ => .pure ?_
  split
  · split
    · exact h.advance 2
    · exact h.next
  · split
    · exact h.advance 2
    · exact h.next
  · exact h

/-- Past a comment, if there is one. -/
theorem Within.ignored (h : c.Within length) :
    (if c.peek = '#' then c.skip (!isBreakOrEnd ·) else c).Within length := by
  split
  · exact h.skip _
  · exact h

theorem reaches_ignoredLine (h : c.Within length) : Reaches (Within length) c.ignoredLine := by
  unfold ignoredLine
  exact reaches_check fun _ => .pure (h.skip _).ignored.takeBreak

theorem Within.blockIndentation (fuel deepest : Nat) (h : c.Within length) :
    (blockIndentation fuel deepest c).2.2.Within length := by
  induction fuel generalizing deepest c with
  | zero => exact h
  | succ fuel ih =>
    unfold Cursor.blockIndentation
    split
    · exact ih _ h.next
    · split
      · exact h
      · next b c' hbreak => exact ih _ (h.of_takeBreak hbreak)

theorem Within.blockBreaks (indent fuel : Nat) (h : c.Within length) :
    (blockBreaks indent fuel c).2.Within length := by
  induction fuel generalizing c with
  | zero => exact h
  | succ fuel ih =>
    unfold Cursor.blockBreaks
    dsimp only
    split
    · exact h.advance _
    · next b c' hbreak => exact ih (Within.of_takeBreak (h.advance _) hbreak)

theorem Within.blockLines (folded : Bool) (chomping : Chomping) (indent fuel : Nat)
    (breaks : List Char) (h : c.Within length) :
    (blockLines folded chomping indent fuel breaks c).2.Within length := by
  induction fuel generalizing breaks c with
  | zero => exact h
  | succ fuel ih =>
    have hbreaks := (h.span (!isBreakOrEnd ·)).takeBreak.blockBreaks indent
    unfold Cursor.blockLines
    dsimp only
    split
    · exact ih _ (hbreaks _)
    · exact hbreaks _

theorem scans_blockScalar (folded : Bool) (parentIndent : Int) (h : c.Within length) :
    Scans length (c.blockScalar folded parentIndent) := by
  refine (reaches_blockHeader h.next).bind fun _ hheader =>
    (reaches_ignoredLine hheader).bind fun c hc => ?_
  dsimp only
  split
  · have hindentation := hc.blockIndentation (c.rest.length + 1) 0
    split
    · exact .pure (hindentation.blockLines _ _ _ _ _)
    · exact .pure hindentation
  · next n =>
    have hbreaks := fun indent => hc.blockBreaks indent (c.rest.length + 1)
    split
    · exact .pure ((hbreaks _).blockLines _ _ _ _ _)
    · exact .pure (hbreaks _)

/-! ## Words of tokens -/

theorem scans_word (h : c.Within length) : Scans length c.word := by
  unfold word
  dsimp only
  split
  · exact reaches_malformed
  · exact .ok (h.span _)

theorem scans_anchorName (h : c.Within length) : Scans length c.anchorName := by
  refine (scans_word h.next).bind fun _ hname => ?_
  dsimp only
  split
  · exact .pure hname
  · exact reaches_malformed

theorem scans_escapedBytes (fuel : Nat) (h : c.Within length) :
    Scans length (escapedBytes fuel c) := by
  induction fuel generalizing c with
  | zero => exact .ok h
  | succ fuel ih =>
    unfold escapedBytes
    split
    · split
      · exact reaches_malformed
      · exact (ih (h.advance 3)).bind fun _ hc => .pure hc
    · exact .ok h

theorem scans_uriFrom (fuel : Nat) (h : c.Within length) : Scans length (uriFrom fuel c) := by
  induction fuel generalizing c with
  | zero => exact .ok h
  | succ fuel ih =>
    unfold uriFrom
    split
    · refine (scans_escapedBytes _ h).bind fun _ hbytes => ?_
      dsimp only
      split
      · exact reaches_malformed
      · exact (ih hbytes).bind fun _ hc => .pure hc
    · split
      · exact (ih (h.span _)).bind fun _ hc => .pure hc
      · exact .ok h

theorem scans_uri (h : c.Within length) : Scans length c.uri := by
  unfold uri
  split
  · exact scans_uriFrom _ h
  · exact reaches_malformed

theorem scans_tagHandle (h : c.Within length) : Scans length c.tagHandle := by
  unfold tagHandle
  refine reaches_check fun _ => ?_
  split
  · exact .pure h.next
  · exact reaches_check fun _ => .pure (h.next.span _).next

theorem scans_handleInTag (h : c.Within length) : Scans length c.handleInTag := by
  unfold handleInTag
  dsimp only
  split
  · exact scans_tagHandle h
  · exact .ok h.next

theorem scans_tag (h : c.Within length) : Scans length c.tag := by
  unfold tag
  extract_lets finish
  have hfinish : ∀ (kind : TokenKind) (c : Cursor), c.Within length →
      Scans length (pure (kind, c) >>= finish) := by
    intro kind c hc
    have hkind : Scans length (pure (kind, c)) := .pure hc
    exact reaches_check fun _ => hkind
  split
  · exact (scans_uri (h.advance 2)).bind fun _ hname => reaches_check fun _ =>
      hfinish _ _ hname.next
  · split
    · exact hfinish _ _ h.next
    · exact (scans_handleInTag h).bind fun _ hhandle => (scans_uri hhandle).bind fun _ hc =>
        hfinish _ _ hc

theorem scans_versionNumber (h : c.Within length) : Scans length c.versionNumber := by
  unfold versionNumber
  dsimp only
  split
  · exact reaches_malformed
  · split
    · next hlong => exact .error (.longNumeral hlong)
    · exact .ok (h.span _)

theorem scans_versionDirective (h : c.Within length) : Scans length c.versionDirective :=
  (scans_versionNumber (h.skip _)).bind fun _ hmajor => reaches_check fun _ =>
    (scans_versionNumber hmajor.next).bind fun _ hminor => reaches_check fun _ => .pure hminor

theorem scans_tagDirective (h : c.Within length) : Scans length c.tagDirective :=
  (scans_tagHandle (h.skip _)).bind fun _ hhandle => reaches_check fun _ =>
    (scans_uri (hhandle.skip _)).bind fun _ hc => reaches_check fun _ => .pure hc

theorem scans_directive (h : c.Within length) : Scans length c.directive := by
  refine (scans_word h.next).bind fun _ hname => reaches_check fun _ => ?_
  have hfinish : ∀ r : Directive × Cursor, r.2.Within length →
      Scans length (do return (r.1, ← r.2.ignoredLine)) := fun r hr =>
    (reaches_ignoredLine hr).bind fun _ hc => .pure hc
  have hskipped : ∀ c : Cursor, c.Within length → Scans length (pure (Directive.unknown, c)) :=
    fun _ hc => .pure hc
  dsimp only
  split
  · exact (scans_versionDirective hname).bind fun r hr => hfinish r hr
  · split
    · exact (scans_tagDirective hname).bind fun r hr => hfinish r hr
    · exact (hskipped _ (hname.skip _)).bind fun r hr => hfinish r hr

end Cursor

end RegisterLayout.Document
