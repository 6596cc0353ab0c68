import Mathlib.Data.List.Basic
import RegisterLayout.Model

/-!
# Lines of a document

A message about a node shows the line in which the node begins.  That line is looked up by its
number in the lines that a text viewer shows, which knows more line boundaries than a document has
breaks.  No character of a document is one of the others, so that the lines are the same.

Principal definitions: `SourceLine`, `sourceLines`, `StandsOn`.
Principal results: `flatMap_sourceLines`, `exists_standsOn`, `line_placeFrom`,
`splitLines_ofChars`, `StandsOn.snippet_eq`.
-/

namespace RegisterLayout.Document

open Text (isDocumentBreak isLineBoundary)

/-! ## The lines of a text -/

/-- A line of a document, with the break that ends it. -/
structure SourceLine where
  content : List Char
  ending : List Char

def SourceLine.chars (l : SourceLine) : List Char := l.content ++ l.ending

def SourceLine.cons (c : Char) (l : SourceLine) : SourceLine := { l with content := c :: l.content }

/-- The lines of a document.  A carriage return and a line feed together are one break.  The last
line is the one that no break ends; it may be empty. -/
def sourceLines : List Char → List SourceLine
  | [] => [⟨[], []⟩]
  | '\r' :: '\n' :: rest => ⟨[], ['\r', '\n']⟩ :: sourceLines rest
  | c :: rest =>
    if isDocumentBreak c then ⟨[], [c]⟩ :: sourceLines rest
    else (sourceLines rest).modifyHead (.cons c)

/-- The break behind a line. -/
inductive IsEnding : List Char → Prop
  | pair : IsEnding ['\r', '\n']
  | single {c : Char} (h : isDocumentBreak c = true) : IsEnding [c]

/-- The characters of some lines. -/
def lengthOf (lines : List SourceLine) : Nat := (lines.flatMap SourceLine.chars).length

theorem lengthOf_cons (l : SourceLine) (ls : List SourceLine) :
    lengthOf (l :: ls) = l.chars.length + lengthOf ls := by
  rw [lengthOf, List.flatMap_cons, List.length_append, lengthOf]

/-- An offset of a text is on a line, behind others; the end of the text is on the last line. -/
structure StandsOn (text : List Char) (offset : Nat) (above : List SourceLine)
    (line : SourceLine) : Prop where
  lines : ∃ below, sourceLines text = above ++ line :: below ∧
    (offset < lengthOf above + line.chars.length ∨
      below = [] ∧ offset = lengthOf above + line.chars.length)
  begins : lengthOf above ≤ offset

section

variable {c : Char} {rest text : List Char} {offset : Nat} {above below : List SourceLine}
  {line : SourceLine}

theorem sourceLines_pair (rest : List Char) :
    sourceLines ('\r' :: '\n' :: rest) = ⟨[], ['\r', '\n']⟩ :: sourceLines rest := by
  rw [sourceLines]

theorem sourceLines_of_break (hbreak : isDocumentBreak c = true)
    (hpair : ∀ more, c = '\r' → rest = '\n' :: more → False) :
    sourceLines (c :: rest) = ⟨[], [c]⟩ :: sourceLines rest := by
  rw [sourceLines, if_pos hbreak]
  exact hpair

theorem sourceLines_of_char (hchar : ¬isDocumentBreak c = true) :
    sourceLines (c :: rest) = (sourceLines rest).modifyHead (.cons c) := by
  rw [sourceLines, if_neg hchar]
  rintro more rfl -
  exact hchar (by decide)

/-- There is a first line. -/
theorem exists_sourceLines_eq_cons (text : List Char) :
    ∃ first below, sourceLines text = first :: below := by
  induction text using sourceLines.induct with
  | case1 => exact ⟨_, _, rfl⟩
  | case2 rest _ => exact ⟨_, _, rfl⟩
  | case3 c rest hpair hbreak _ => exact ⟨_, _, sourceLines_of_break hbreak hpair⟩
  | case4 c rest _ hchar ih =>
    obtain ⟨first, below, hrest⟩ := ih
    refine ⟨first.cons c, below, ?_⟩
    rw [sourceLines_of_char hchar, hrest, List.modifyHead_cons]

/-- A character that ends no line stands at the front of the first line of what follows. -/
theorem exists_sourceLines_char (rest : List Char) (hchar : ¬isDocumentBreak c = true) :
    ∃ first below, sourceLines rest = first :: below ∧
      sourceLines (c :: rest) = first.cons c :: below := by
  obtain ⟨first, below, hrest⟩ := exists_sourceLines_eq_cons rest
  exact ⟨first, below, hrest, by rw [sourceLines_of_char hchar, hrest, List.modifyHead_cons]⟩

/-- **The lines make up the text.** -/
theorem flatMap_sourceLines (text : List Char) :
    (sourceLines text).flatMap SourceLine.chars = text := by
  induction text using sourceLines.induct with
  | case1 => rfl
  | case2 rest ih =>
    rw [sourceLines, List.flatMap_cons, ih]
    rfl
  | case3 c rest hpair hbreak ih =>
    rw [sourceLines_of_break hbreak hpair, List.flatMap_cons, ih]
    rfl
  | case4 c rest _ hchar ih =>
    obtain ⟨first, below, hrest, hlines⟩ := exists_sourceLines_char rest hchar
    rw [hrest, List.flatMap_cons] at ih
    rw [hlines, List.flatMap_cons]
    exact congrArg (c :: ·) ih

/-- A line with no break in it and one behind it, unless it is the last. -/
structure SourceLine.IsCut (l : SourceLine) (isLast : Prop) : Prop where
  content : ∀ c ∈ l.content, isDocumentBreak c = false
  ended : ¬isLast → IsEnding l.ending
  last : isLast → l.ending = []

/-- A line without content is cut at its ending, since there is a line behind every break. -/
theorem isCut_of_ending {ending rest : List Char} (h : IsEnding ending) :
    (⟨[], ending⟩ : SourceLine).IsCut (sourceLines rest = []) := by
  obtain ⟨first, below, hrest⟩ := exists_sourceLines_eq_cons rest
  exact ⟨List.forall_mem_nil _, fun _ => h, fun hnil => by simp [hrest] at hnil⟩

/-- **The lines are cut at the breaks.** -/
theorem isCut_sourceLines (h : sourceLines text = above ++ line :: below) :
    line.IsCut (below = []) := by
  induction text using sourceLines.induct generalizing above line with
  | case1 =>
    cases above with
    | nil =>
      obtain ⟨rfl, rfl⟩ := List.cons.inj h
      exact ⟨List.forall_mem_nil _, fun hne => absurd rfl hne, fun _ => rfl⟩
    | cons first above => cases above <;> cases h
  | case2 rest ih =>
    rw [sourceLines] at h
    cases above with
    | nil =>
      obtain ⟨rfl, rfl⟩ := List.cons.inj h
      exact isCut_of_ending .pair
    | cons first above => exact ih (List.cons.inj h).2
  | case3 c rest hpair hbreak ih =>
    rw [sourceLines_of_break hbreak hpair] at h
    cases above with
    | nil =>
      obtain ⟨rfl, rfl⟩ := List.cons.inj h
      exact isCut_of_ending (.single hbreak)
    | cons first above => exact ih (List.cons.inj h).2
  | case4 c rest _ hchar ih =>
    obtain ⟨first, after, hrest, hlines⟩ := exists_sourceLines_char rest hchar
    rw [hlines] at h
    cases above with
    | nil =>
      obtain ⟨rfl, rfl⟩ := List.cons.inj h
      obtain ⟨hcontent, hended, hlast⟩ := @ih [] first hrest
      exact ⟨List.forall_mem_cons.2 ⟨by simpa using hchar, hcontent⟩, hended, hlast⟩
    | cons _ above =>
      refine @ih (first :: above) line ?_
      rw [hrest, (List.cons.inj h).2]
      rfl

/-! ## The line of an offset -/

/-- Some line holds the offset, if it is not behind the text. -/
theorem exists_standsOn (h : offset ≤ text.length) :
    ∃ above line, StandsOn text offset above line := by
  have hlines : ∀ lines : List SourceLine, lines ≠ [] → ∀ n, n ≤ lengthOf lines →
      ∃ above line below, lines = above ++ line :: below ∧
        (n < lengthOf above + line.chars.length ∨
          below = [] ∧ n = lengthOf above + line.chars.length) ∧ lengthOf above ≤ n := by
    intro lines
    induction lines with
    | nil => exact fun hne => absurd rfl hne
    | cons first lines ih =>
      intro _ n hn
      rw [lengthOf_cons] at hn
      rcases Nat.lt_or_ge n first.chars.length with hlt | hge
      · exact ⟨[], first, lines, rfl, .inl (by simpa [lengthOf] using hlt), Nat.zero_le n⟩
      cases lines with
      | nil =>
        have hend : n = first.chars.length := Nat.le_antisymm hn hge
        exact ⟨[], first, [], rfl, .inr ⟨rfl, by simpa [lengthOf] using hend⟩, Nat.zero_le n⟩
      | cons next lines =>
        obtain ⟨above, line, below, heq, hends, hbegins⟩ :=
          ih (List.cons_ne_nil _ _) (n - first.chars.length) (by omega)
        refine ⟨first :: above, line, below, by rw [heq, List.cons_append], ?_, ?_⟩
        · rw [lengthOf_cons]
          exact hends.imp (fun hlt => by omega) (And.imp_right fun hend => by omega)
        · rw [lengthOf_cons]
          omega
  have hne : sourceLines text ≠ [] := by
    obtain ⟨first, below, hfirst⟩ := exists_sourceLines_eq_cons text
    rw [hfirst]
    exact List.cons_ne_nil _ _
  have hall : offset ≤ lengthOf (sourceLines text) := by
    rw [lengthOf, flatMap_sourceLines]
    exact h
  obtain ⟨above, line, below, heq, hends, hbegins⟩ := hlines _ hne offset hall
  exact ⟨above, line, ⟨below, heq, hends⟩, hbegins⟩

theorem Place.after_pair (p : Place) : (p.after '\r' (some '\n')).line = p.line := by
  rw [after, if_pos ⟨rfl, rfl⟩]

theorem Place.after_break (p : Place) (hbreak : isDocumentBreak c = true) {next : Option Char}
    (hpair : ¬(c = '\r' ∧ next = some '\n')) : (p.after c next).line = p.line + 1 := by
  rw [after, if_neg hpair, if_pos hbreak]

theorem Place.after_char (p : Place) (hchar : ¬isDocumentBreak c = true) (next : Option Char) :
    (p.after c next).line = p.line := by
  have hpair : ¬(c = '\r' ∧ next = some '\n') := by
    rintro ⟨rfl, -⟩
    exact hchar (by decide)
  rw [after, if_neg hpair, if_neg hchar]
  split <;> rfl

/-- The line of an offset has no break in it. -/
theorem StandsOn.breakless (h : StandsOn text offset above line) :
    ∀ c ∈ line.content, isDocumentBreak c = false := by
  obtain ⟨⟨below, hlines, -⟩, -⟩ := h
  exact (isCut_sourceLines hlines).content

/-- An offset on the first of several lines. -/
theorem StandsOn.lt_of_first {first next : SourceLine} (h : StandsOn text offset [] line)
    (hlines : sourceLines text = first :: next :: below) : offset < first.chars.length := by
  obtain ⟨⟨after, heq, hends⟩, -⟩ := h
  rw [hlines] at heq
  obtain ⟨rfl, hafter⟩ := List.cons.inj heq
  rcases hends with hlt | ⟨rfl, -⟩
  · rw [lengthOf, List.flatMap_nil, List.length_nil, Nat.zero_add] at hlt
    exact hlt
  · cases hafter

/-- An offset behind the first line. -/
theorem StandsOn.exists_behind {first second : SourceLine}
    (h : StandsOn text offset (first :: above) line)
    (hlines : sourceLines text = second :: sourceLines rest) :
    ∃ more, offset = more + second.chars.length ∧ StandsOn rest more above line := by
  obtain ⟨⟨after, heq, hends⟩, hbegins⟩ := h
  rw [hlines] at heq
  obtain ⟨rfl, hrest⟩ := List.cons.inj heq
  rw [lengthOf_cons] at hbegins hends
  refine ⟨offset - second.chars.length, by omega, ⟨after, hrest, ?_⟩, by omega⟩
  exact hends.imp (fun hlt => by omega) (And.imp_right fun hend => by omega)

/-- Without its first character, a line is still behind as many others. -/
theorem StandsOn.exists_behind_char (h : StandsOn (c :: rest) (offset + 1) above line)
    (hchar : ¬isDocumentBreak c = true) :
    ∃ above' line', StandsOn rest offset above' line' ∧ above'.length = above.length := by
  obtain ⟨⟨below, hlines, hends⟩, hbegins⟩ := h
  obtain ⟨first, after, hrest, hfirst⟩ := exists_sourceLines_char rest hchar
  have hchars : (first.cons c).chars.length = first.chars.length + 1 := rfl
  rw [hfirst] at hlines
  cases above with
  | nil =>
    obtain ⟨rfl, rfl⟩ := List.cons.inj hlines
    rw [hchars] at hends
    refine ⟨[], first, ⟨⟨after, hrest, ?_⟩, Nat.zero_le offset⟩, rfl⟩
    exact hends.imp (fun hlt => by omega) (And.imp_right fun hend => by omega)
  | cons _ above =>
    obtain ⟨rfl, rfl⟩ := List.cons.inj hlines
    rw [lengthOf_cons, hchars] at hbegins hends
    refine ⟨first :: above, line, ⟨⟨below, hrest, ?_⟩, ?_⟩, rfl⟩
    · rw [lengthOf_cons]
      exact hends.imp (fun hlt => by omega) (And.imp_right fun hend => by omega)
    · rw [lengthOf_cons]
      omega

/-- No line is empty that has another one behind it, so that a text begins on its first line. -/
theorem StandsOn.of_zero (h : StandsOn (c :: rest) 0 above line)
    (hchar : ¬isDocumentBreak c = true) : above = [] := by
  obtain ⟨⟨below, hlines, -⟩, hbegins⟩ := h
  obtain ⟨first, after, -, hfirst⟩ := exists_sourceLines_char rest hchar
  have hchars : (first.cons c).chars.length = first.chars.length + 1 := rfl
  rw [hfirst] at hlines
  cases above with
  | nil => rfl
  | cons _ above =>
    obtain ⟨rfl, -⟩ := List.cons.inj hlines
    rw [lengthOf_cons, hchars] at hbegins
    omega

/-- **The line of an offset is counted by the breaks before it.** -/
theorem line_placeFrom (h : StandsOn text offset above line) (p : Place) :
    (placeFrom p text offset).line = p.line + above.length := by
  induction text using sourceLines.induct generalizing offset above line p with
  | case1 =>
    obtain ⟨⟨below, hlines, -⟩, -⟩ := h
    cases above with
    | nil => rfl
    | cons first above => cases above <;> cases hlines
  | case2 rest ih =>
    cases above with
    | nil =>
      obtain ⟨first, below, hrest⟩ := exists_sourceLines_eq_cons rest
      have hlines : sourceLines ('\r' :: '\n' :: rest) = ⟨[], ['\r', '\n']⟩ :: first :: below := by
        rw [sourceLines_pair, hrest]
      have hoffset : offset < 2 := h.lt_of_first hlines
      -- Between the two characters of the pair the line has not ended.
      rcases offset with _ | _ | offset
      · rfl
      · exact p.after_pair
      · omega
    | cons first above =>
      obtain ⟨more, rfl, hmore⟩ := h.exists_behind (sourceLines_pair rest)
      have hfeed : ∀ q : Place, (q.after '\n' rest.head?).line = q.line + 1 := fun q =>
        q.after_break (by decide) (by simp)
      show (placeFrom _ rest more).line = _
      rw [ih hmore, hfeed, List.head?_cons, p.after_pair, List.length_cons]
      omega
  | case3 c rest hpair hbreak ih =>
    cases above with
    | nil =>
      obtain ⟨first, below, hrest⟩ := exists_sourceLines_eq_cons rest
      have hlines : sourceLines (c :: rest) = ⟨[], [c]⟩ :: first :: below := by
        rw [sourceLines_of_break hbreak hpair, hrest]
      have hoffset : offset < 1 := h.lt_of_first hlines
      obtain rfl : offset = 0 := by omega
      rfl
    | cons first above =>
      obtain ⟨more, rfl, hmore⟩ := h.exists_behind (sourceLines_of_break hbreak hpair)
      have hnext : ¬(c = '\r' ∧ rest.head? = some '\n') := by
        rintro ⟨hc, hhead⟩
        obtain ⟨behind, hbehind⟩ := List.head?_eq_some_iff.1 hhead
        exact hpair behind hc hbehind
      show (placeFrom _ rest more).line = _
      rw [ih hmore, p.after_break hbreak hnext, List.length_cons]
      omega
  | case4 c rest _ hchar ih =>
    cases offset with
    | zero =>
      rw [h.of_zero hchar]
      rfl
    | succ offset =>
      obtain ⟨above', line', hmore, hlength⟩ := h.exists_behind_char hchar
      rw [placeFrom, ih hmore, p.after_char hchar, hlength]

end

/-! ## The lines that a viewer shows -/

/-- A document has none of the characters that end a line elsewhere only. -/
theorem isLineBoundary_eq {c : Char} (h : isAdmitted c = true) :
    isLineBoundary c = isDocumentBreak c := by
  have hother : c ∉ ['\x0b', '\x0c', '\x1c', '\x1d', '\x1e'] := by
    intro hc
    have hrefused :
        (['\x0b', '\x0c', '\x1c', '\x1d', '\x1e'].all fun x => !isAdmitted x) = true := by
      decide
    have hadmitted := List.all_eq_true.1 hrefused c hc
    rw [h] at hadmitted
    cases hadmitted
  unfold isLineBoundary isDocumentBreak
  rw [decide_eq_decide]
  simp only [List.mem_cons, List.not_mem_nil, or_false] at hother ⊢
  tauto

section

variable {c : Char} {rest text : List Char} {offset : Nat} {above : List SourceLine}
  {line : SourceLine}

theorem splitLinesFrom_break (hc : isAdmitted c = true) (hbreak : isDocumentBreak c = true)
    (hpair : ∀ more, c = '\r' → rest = '\n' :: more → False) (before : Text) :
    Text.splitLinesFrom before (Text.ofChars (c :: rest)) =
      before.reverse :: Text.splitLinesFrom [] (Text.ofChars rest) := by
  have hboundary : (CodePoint.char c).holds isLineBoundary = true := by
    rw [← isLineBoundary_eq hc] at hbreak
    exact hbreak
  show Text.splitLinesFrom before (.char c :: Text.ofChars rest) = _
  rw [Text.splitLinesFrom, if_pos hboundary]
  intro more hreturn hfeed
  cases rest with
  | nil => cases hfeed
  | cons d rest =>
    obtain ⟨hd, -⟩ := List.cons.inj hfeed
    exact hpair rest (CodePoint.char.inj hreturn) (by rw [CodePoint.char.inj hd])

theorem splitLinesFrom_char (hc : isAdmitted c = true) (hchar : ¬isDocumentBreak c = true)
    (before : Text) :
    Text.splitLinesFrom before (Text.ofChars (c :: rest)) =
      Text.splitLinesFrom (.char c :: before) (Text.ofChars rest) := by
  have hboundary : ¬(CodePoint.char c).holds isLineBoundary = true := by
    rw [← isLineBoundary_eq hc] at hchar
    exact hchar
  show Text.splitLinesFrom before (.char c :: Text.ofChars rest) = _
  rw [Text.splitLinesFrom, if_neg hboundary]
  rintro more hreturn -
  rw [CodePoint.char.inj hreturn] at hchar
  exact hchar (by decide)

/-- The contents of the lines of a document. -/
def lineTexts (text : List Char) : List Text := (sourceLines text).map (Text.ofChars ·.content)

theorem modifyHead_nil_append (lines : List Text) : lines.modifyHead (([] : Text) ++ ·) = lines :=
  congrFun List.modifyHead_id lines

/-- A viewer and a document agree on a line that ends and on those behind it. -/
theorem getElem?_ended {lines : List Text} {ending : List Char}
    (h : ∀ k : Nat, lines[k]?.getD [] =
      ((lineTexts rest).modifyHead (([] : Text) ++ ·))[k]?.getD [])
    (before : Text) (hlines : sourceLines text = ⟨[], ending⟩ :: sourceLines rest) (k : Nat) :
    (before :: lines)[k]?.getD [] = ((lineTexts text).modifyHead (before ++ ·))[k]?.getD [] := by
  have htexts : lineTexts text = [] :: lineTexts rest := by
    rw [lineTexts, hlines, List.map_cons]
    rfl
  rw [htexts, List.modifyHead_cons, List.append_nil]
  cases k with
  | zero => rfl
  | succ k =>
    rw [List.getElem?_cons_succ, List.getElem?_cons_succ, h k, modifyHead_nil_append]

/-- The lines of a viewer, the one under way beginning with what was read of it before. -/
theorem splitLinesFrom_ofChars (h : ∀ c ∈ text, isAdmitted c = true) (before : Text) (k : Nat) :
    (Text.splitLinesFrom before (Text.ofChars text))[k]?.getD [] =
      ((lineTexts text).modifyHead (before.reverse ++ ·))[k]?.getD [] := by
  induction text using sourceLines.induct generalizing before k with
  | case1 =>
    -- The empty line behind a last break is the one that a viewer does not count.
    have htexts : (lineTexts []).modifyHead (before.reverse ++ ·) = [before.reverse] := by
      simp [lineTexts, sourceLines, Text.ofChars]
    rw [htexts]
    cases before with
    | nil => cases k <;> rfl
    | cons c before => rfl
  | case2 rest ih =>
    have hrest : ∀ c ∈ rest, isAdmitted c = true := fun c hc =>
      h c (List.mem_cons_of_mem _ (List.mem_cons_of_mem _ hc))
    have hpair : Text.splitLinesFrom before (Text.ofChars ('\r' :: '\n' :: rest))
        = before.reverse :: Text.splitLinesFrom [] (Text.ofChars rest) := by
      show Text.splitLinesFrom before (.char '\r' :: .char '\n' :: Text.ofChars rest) = _
      rw [Text.splitLinesFrom]
    rw [hpair]
    exact getElem?_ended (ih hrest []) before.reverse (sourceLines_pair rest) k
  | case3 c rest hpair hbreak ih =>
    obtain ⟨hc, hrest⟩ := List.forall_mem_cons.1 h
    rw [splitLinesFrom_break hc hbreak hpair]
    exact getElem?_ended (ih hrest []) before.reverse (sourceLines_of_break hbreak hpair) k
  | case4 c rest _ hchar ih =>
    obtain ⟨hc, hrest⟩ := List.forall_mem_cons.1 h
    obtain ⟨first, below, hlines, hfirst⟩ := exists_sourceLines_char rest hchar
    have htexts : (lineTexts rest).modifyHead ((CodePoint.char c :: before).reverse ++ ·)
        = (lineTexts (c :: rest)).modifyHead (before.reverse ++ ·) := by
      rw [lineTexts, lineTexts, hfirst, hlines, List.map_cons, List.map_cons,
        List.modifyHead_cons, List.modifyHead_cons, List.reverse_cons, List.append_assoc]
      rfl
    rw [splitLinesFrom_char hc hchar, ih hrest, htexts]

/-- **A viewer shows the lines of a document**, but for an empty one at the end. -/
theorem splitLines_ofChars (h : ∀ c ∈ text, isAdmitted c = true) (k : Nat) :
    (Text.splitLines (Text.ofChars text))[k]?.getD [] = (lineTexts text)[k]?.getD [] := by
  rw [Text.splitLines, splitLinesFrom_ofChars h, List.reverse_nil, modifyHead_nil_append]

/-- **What is shown of the line of an offset is its content**, without the blanks around it. -/
theorem StandsOn.snippet_eq (h : StandsOn text offset above line)
    (hadmitted : ∀ c ∈ text, isAdmitted c = true) :
    snippet (Text.ofChars text) above.length = Text.strip (Text.ofChars line.content) := by
  obtain ⟨⟨below, hlines, -⟩, -⟩ := h
  have hshown := splitLines_ofChars hadmitted above.length
  have hline : (lineTexts text)[above.length]? = some (Text.ofChars line.content) := by
    rw [lineTexts, hlines, List.map_append, List.getElem?_append_right (by simp), List.length_map,
      Nat.sub_self, List.map_cons, List.getElem?_cons_zero]
  rw [hline, Option.getD_some] at hshown
  rw [← hshown, snippet]
  cases (Text.splitLines (Text.ofChars text))[above.length]? with
  | none => rfl
  | some shown => rfl

end

end RegisterLayout.Document
