import RegisterLayout.Proofs.DrawnText

/-!
# A diagram as a comment

What the comment of a diagram is, whatever the author wrote: it begins with the line that opens it
and ends with the line that closes it, and each of its lines begins with a mark.  Descriptions are
cut at blanks only, so that a line feed within one stays within a line of the comment, and what is
behind it has no mark; and an end of a comment stays where it is shown.  The comment is well-formed
exactly without these two.

Principal definitions: `LegendLine.CommentedBy`, `Diagram.texts`, `Diagram.CommentBody`,
`Diagram.CommentedAs`.
Principal results: `forall_mem_wrapWords_iff`, `LegendLine.Legible.exists_commentEntry`,
`exists_drawingLines`, `Field.commentedAs_of_diagram`.
-/

namespace RegisterLayout

open Text (Divides ClosesComment FeedsMarked FeedsAtEnd)

/-! ## Words in lines -/

section

variable {P : Text → Prop} {margin line : Text} {words : List Text}

theorem forall_mem_wrapWords_iff (hP : Divides P) (hmargin : P margin) :
    (∀ l ∈ wrapWords margin line words, P l) ↔ P line ∧ ∀ word ∈ words, P word := by
  have hsplit : ∀ s t : Text, P (s ++ " " ++ t) ↔ P s ∧ P t := hP.between_iff (by decide)
  induction words generalizing line with
  | nil => simp [wrapWords]
  | cons word words ih =>
    rw [wrapWords, List.forall_mem_cons]
    split
    · simp only [List.forall_mem_cons, ih, hsplit, hmargin, true_and]
    · simp only [ih, hsplit, and_assoc]

theorem mark_prefix_wrapWords (hmargin : (" *" : Text) <+: margin)
    (hline : (" *" : Text) <+: line) :
    ∀ l ∈ wrapWords margin line words, (" *" : Text) <+: l := by
  have happend {s : Text} (t : Text) (hs : (" *" : Text) <+: s) :
      (" *" : Text) <+: s ++ " " ++ t := by
    rw [List.append_assoc]
    exact hs.trans (List.prefix_append s _)
  induction words generalizing line with
  | nil => exact List.forall_mem_singleton.2 hline
  | cons word words ih =>
    rw [wrapWords]
    split
    · exact List.forall_mem_cons.2 ⟨hline, ih (happend word hmargin)⟩
    · exact ih (happend word hline)

/-- A line feed at the end of a description is at the end of a line. -/
theorem feedsAtEnd_wrapWords (hmargin : .char '\n' ∉ margin) (hne : words ≠ [])
    (hline : (line ++ " " ++ Text.joined " " words).FeedsAtEnd) :
    ∀ l ∈ wrapWords margin line words, l.FeedsAtEnd := by
  induction words generalizing line with
  | nil => exact absurd rfl hne
  | cons word words ih =>
    rw [wrapWords]
    cases words with
    | nil =>
      rw [Text.joined, List.intercalate_singleton] at hline
      have hmarginFeeds : (margin ++ " " ++ word).FeedsAtEnd := by
        rw [List.append_assoc] at hline ⊢
        exact hline.of_append_right.feedless_append hmargin
      split
      · rw [wrapWords, List.forall_mem_cons, List.forall_mem_singleton]
        rw [List.append_assoc] at hline
        exact ⟨hline.of_append_left, hmarginFeeds⟩
      · exact List.forall_mem_singleton.2 hline
    | cons next words =>
      have hjoined : ∀ s : Text, s ++ " " ++ Text.joined " " (word :: next :: words)
          = s ++ " " ++ word ++ " " ++ Text.joined " " (next :: words) := by
        intro s
        rw [Text.joined, List.intercalate_cons_cons]
        simp only [Text.joined, List.append_assoc]
      rw [hjoined] at hline
      split
      · refine List.forall_mem_cons.2 ⟨?_, ih (List.cons_ne_nil _ _) ?_⟩
        · simp only [List.append_assoc] at hline
          exact hline.of_append_left
        · simp only [List.append_assoc] at hline ⊢
          exact hline.of_append_right.feedless_append hmargin
      · exact ih (List.cons_ne_nil _ _) hline

end

/-! ## Lines of the legend -/

namespace LegendLine

/-- The texts that a line shows. -/
def texts (l : LegendLine) : List Text :=
  l.name.text :: (l.label.toList ++ (filled? l.desc).toList).map Value.text

/-- The label between quotes, if it is not the name. -/
def quotedLabel (l : LegendLine) : Text :=
  (l.otherLabel?.map fun label => ("\"" ++ label.text ++ "\" " : Text)).getD []

variable {l : LegendLine}

/-- What stands before a description. -/
theorem commentHead_eq {name bits : Text} {n : Nat} (hname : l.name = .str name)
    (hbits : l.bits = .str bits) (hlabel : ∀ label, l.label = some label → label.IsText)
    (hn : l.inset = .ok (Text.blanks n)) :
    commentHead l = .ok
      (" * " ++ Text.blanks n ++ "@" ++ name ++ " " ++ l.quotedLabel ++ "(" ++ bits ++ "):") := by
  unfold commentHead quotedLabel
  rw [hn, hname, hbits]
  cases hother : l.otherLabel? with
  | none => rfl
  | some label =>
    have hgiven : l.label = some label :=
      (Option.filter_eq_some_iff.1 (Option.filter_eq_some_iff.1 hother).1).1
    obtain ⟨s, rfl⟩ := hlabel label hgiven
    rfl

/-- Whether the label is shown between quotes or not, it is shown with the name. -/
theorem Legible.quotedLabel_iff {P : Text → Prop} (hP : Divides P) (hl : l.Legible) :
    P l.name.text ∧ P l.quotedLabel ↔
      P l.name.text ∧ ∀ label, l.label = some label → P label.text := by
  refine and_congr_right fun hname => ?_
  unfold quotedLabel otherLabel?
  cases hlabel : l.label with
  | none => exact iff_of_true hP.nil (by simp)
  | some label =>
    obtain ⟨s, rfl⟩ := hl.label label hlabel
    obtain ⟨name, hgiven⟩ := hl.name
    rw [hgiven] at hname ⊢
    have hquoted : P ("\"" ++ s ++ "\" ") ↔ P s := by
      rw [hP.append_plain_iff (by decide), hP.plain_append_iff (by decide)]
    cases s with
    | nil => exact iff_of_true hP.nil (by simpa using hP.nil)
    | cons c s =>
      by_cases hsame : name = c :: s
      · subst hsame
        have hnone : (filled? (some (.str (c :: s)))).filter
            (!(Value.str (c :: s)).same ·) = none := by
          simp [filled?, Option.filter, Value.same]
        rw [hnone]
        exact iff_of_true hP.nil (by simpa using hname)
      · have hother : (filled? (some (.str (c :: s)))).filter (!(Value.str name).same ·)
            = some (.str (c :: s)) := by
          simp [filled?, Option.filter, Value.same, hsame]
        rw [hother]
        simpa using hquoted

/-- The description of a line, nothing if there is none. -/
def description (l : LegendLine) : Text := ((filled? l.desc).map Value.text).getD []

/-- The words of a description that is a text; one of them, if there is none. -/
theorem descriptionWords_eq (hdesc : IsTextIfFilled l.desc) :
    descriptionWords l = .ok (Text.splitOn (.char ' ') l.description) := by
  unfold descriptionWords description
  cases hgiven : filled? l.desc with
  | none => rfl
  | some desc =>
    obtain ⟨s, rfl⟩ := hdesc desc hgiven
    rfl

theorem forall_mem_texts_iff {P : Text → Prop} (hP : Divides P) :
    (∀ t ∈ l.texts, P t) ↔ P l.name.text ∧ (∀ label, l.label = some label → P label.text) ∧
      P l.description := by
  have hdescription : (∀ desc ∈ (filled? l.desc).toList, P desc.text) ↔ P l.description := by
    unfold description
    cases filled? l.desc with
    | none => exact iff_of_true (List.forall_mem_nil _) hP.nil
    | some desc => exact List.forall_mem_singleton
  rw [texts, List.forall_mem_cons, List.forall_mem_map, List.forall_mem_append, hdescription]
  simp only [Option.mem_toList]

/-- There are line feeds only at the end of the description. -/
structure FeedsAtEnd (l : LegendLine) : Prop where
  name : .char '\n' ∉ l.name.text
  label : ∀ label, l.label = some label → .char '\n' ∉ label.text
  description : l.description.FeedsAtEnd

/-- The lines of a comment about one field, by what they show. -/
structure CommentedBy (l : LegendLine) (lines : List Text) : Prop where
  marked : ∀ line ∈ lines, (" *" : Text) <+: line
  divided : ∀ P, Divides P → ((∀ line ∈ lines, P line) ↔ ∀ t ∈ l.texts, P t)
  feedsAtEnd : l.FeedsAtEnd → ∀ line ∈ lines, line.FeedsAtEnd

/-- What stands before a description has the properties that divide of the name and the label. -/
theorem Legible.commentHead_iff (hl : l.Legible) :
    ∃ head : Text, commentHead l = .ok head ∧ (" *" : Text) <+: head ∧
      ∀ P, Divides P → (P head ↔ P l.name.text ∧ ∀ label, l.label = some label → P label.text) := by
  obtain ⟨⟨name, hname⟩, ⟨bits, hgiven, hbits⟩, hlabel, -, n, hn⟩ := id hl
  have hhead := commentHead_eq hname hgiven hlabel hn
  have htext : l.name.text = name := by rw [hname, Value.text_str]
  rw [← htext] at hhead
  refine ⟨_, hhead, ?_, fun P hP => ?_⟩
  · simp only [List.append_assoc]
    exact ⟨_, rfl⟩
  · have hspace : ∀ s t : Text, P (s ++ " " ++ t) ↔ P s ∧ P t := hP.between_iff (by decide)
    have hat : ∀ s t : Text, P (s ++ "@" ++ t) ↔ P s ∧ P t := hP.between_iff (by decide)
    have hmargin : P (" * " ++ Text.blanks n) :=
      (hP.margin_append_iff _).2 (hP.of_plain (isPlain_blanks n))
    rw [hP.append_plain_iff (by decide), hP.append_plain_iff hbits, hP.append_plain_iff (by decide),
      hspace, hat, and_iff_right hmargin, hl.quotedLabel_iff hP]

/-- **The lines of a comment about one field show its texts and nothing else that counts.** -/
theorem Legible.exists_commentEntry (hl : l.Legible) :
    ∃ lines, commentEntry l = .ok lines ∧ l.CommentedBy lines := by
  obtain ⟨head, hhead, hmark, hdivided⟩ := hl.commentHead_iff
  have hwords := descriptionWords_eq hl.desc
  have hmargin : ∀ P, Divides P → P (" * " ++ Text.blanks (head.length - 3)) :=
    fun P hP => (hP.margin_append_iff _).2 (hP.of_plain (isPlain_blanks _))
  refine ⟨_, by rw [commentEntry, hhead, ok_bind, hwords, ok_bind]; rfl, ?_, ?_, ?_⟩
  case refine_1 => exact mark_prefix_wrapWords ⟨_, rfl⟩ hmark
  case refine_2 =>
    intro P hP
    rw [forall_mem_wrapWords_iff hP (hmargin P hP), hdivided P hP, forall_mem_texts_iff hP,
      and_assoc, ← hP.joined_iff (by decide : CodePoint.IsPlain ' '), Text.joined_splitOn]
  case refine_3 =>
    intro hfeeds
    have hfeedless := Text.divides_feedless
    refine feedsAtEnd_wrapWords (hmargin _ hfeedless) (Text.splitBy_ne_nil _ _) ?_
    have hjoined : Text.joined " " (Text.splitOn (.char ' ') l.description) = l.description :=
      Text.joined_splitOn _ _
    rw [hjoined]
    refine hfeeds.description.feedless_append ?_
    exact (hfeedless.append_plain_iff (by decide)).2
      ((hdivided _ hfeedless).2 ⟨hfeeds.name, hfeeds.label⟩)

end LegendLine

/-! ## Lines of the drawing -/

theorem isPlain_offsetLabel (n : Nat) : (offsetLabel n).IsPlain := by
  have htext : Text.ofString (toString n ++ " ") = Text.ofString (toString n) ++ [.char ' '] := by
    rw [Text.ofString, String.toList_append, Text.ofChars_append]
    rfl
  refine List.forall_mem_append.2 ⟨isPlain_blanks _, ?_⟩
  rw [htext]
  exact List.forall_mem_append.2
    ⟨isPlain_ofString (isNumeralText_toString n), List.forall_mem_singleton.2 (by decide)⟩

namespace Drawing

/-- The lines of a drawing under way have a property that divides; the current one ends at a bar or
a corner. -/
structure HasLines (P : Text → Prop) (d : Drawing) : Prop where
  done : ∀ line ∈ d.done, P line
  current : ∃ before edge, d.current = before ++ [edge] ∧ edge.IsPlain ∧ P before

variable {P : Text → Prop} {d : Drawing}

section

variable (hP : Divides P)

include hP

theorem HasLines.current_divided (h : d.HasLines P) : P d.current := by
  obtain ⟨before, edge, hcurrent, hedge, hbefore⟩ := h.current
  rw [hcurrent]
  exact (hP.append_plain_iff (List.forall_mem_singleton.2 hedge)).2 hbefore

theorem HasLines.wrapRow (h : d.HasLines P) : d.wrapRow.HasLines P := by
  unfold Drawing.wrapRow
  split
  · refine ⟨List.forall_mem_append.2 ⟨h.done, List.forall_mem_cons.2 ⟨?_, ?_⟩⟩, ?_⟩
    · exact (hP.plain_append_iff (isPlain_offsetLabel _)).2 (h.current_divided hP)
    · exact List.forall_mem_singleton.2 (hP.of_plain (by decide))
    · exact ⟨[], .char '|', rfl, by decide, hP.nil⟩
  · exact h

theorem HasLines.finishLine (h : d.HasLines P) : ∀ line ∈ d.finishLine.done, P line := by
  have hcurrent := h.current_divided hP
  unfold Drawing.finishLine finishRow
  split
  · exact List.forall_mem_append.2
      ⟨h.done, List.forall_mem_singleton.2 ((hP.plain_append_iff (by decide)).2 hcurrent)⟩
  · exact List.forall_mem_append.2 ⟨h.done, List.forall_mem_singleton.2
      ((hP.plain_append_iff (isPlain_offsetLabel _)).2 hcurrent)⟩

theorem HasLines.addRows (h : d.HasLines P) {rows : List Text} (hrows : ∀ row ∈ rows, P row)
    (separator : Bool) : (d.addRows separator rows).HasLines P := by
  induction rows generalizing d separator with
  | nil => exact h
  | cons row rows ih =>
    obtain ⟨hrow, hrows⟩ := List.forall_mem_cons.1 hrows
    have hdone := h.finishLine hP
    rw [Drawing.addRows]
    split
    · refine ih ?_ hrows false
      exact ⟨hdone, "+" ++ row, .char '+', rfl, by decide,
        (hP.plain_append_iff (by decide)).2 hrow⟩
    · refine ih ?_ hrows true
      exact ⟨hdone, "|" ++ row, .char '|', rfl, by decide,
        (hP.plain_append_iff (by decide)).2 hrow⟩

theorem HasLines.addCell (h : d.HasLines P) {row : Text} {rows : List Text}
    (hrows : ∀ r ∈ row :: rows, P r) :
    (Drawing.addRows { d.wrapRow with current := d.wrapRow.current ++ row ++ "|" } true
      rows).HasLines P := by
  obtain ⟨hrow, hrows⟩ := List.forall_mem_cons.1 hrows
  have hwrapped := h.wrapRow hP
  obtain ⟨before, edge, hcurrent, hedge, hbefore⟩ := hwrapped.current
  refine HasLines.addRows hP ?_ hrows true
  refine ⟨hwrapped.done, d.wrapRow.current ++ row, .char '|', rfl, by decide, ?_⟩
  rw [hcurrent]
  exact (hP.between_iff hedge before row).2 ⟨hbefore, hrow⟩

theorem HasLines.close (h : d.HasLines P) : ∀ line ∈ d.close, P line := by
  refine List.forall_mem_append.2 ⟨h.done, List.forall_mem_cons.2 ⟨?_, List.forall_mem_cons.2
    ⟨hP.of_plain (by decide), List.forall_mem_singleton.2 (hP.of_plain (isPlain_offsetLabel _))⟩⟩⟩
  exact (hP.plain_append_iff (isPlain_offsetLabel _)).2 (h.current_divided hP)

end

theorem exists_addCells {cells : List Cell} (hcells : ∀ cell ∈ cells, cell ≠ []) (d : Drawing) :
    ∃ d', cells.foldlM Drawing.addCell d = .ok d' ∧ ∀ P, Divides P → d.HasLines P →
      (∀ cell ∈ cells, ∀ row ∈ cell, P row) → d'.HasLines P := by
  induction cells generalizing d with
  | nil => exact ⟨d, rfl, fun _ _ h _ => h⟩
  | cons cell cells ih =>
    obtain ⟨hcell, hrest⟩ := List.forall_mem_cons.1 hcells
    cases cell with
    | nil => exact absurd rfl hcell
    | cons row rows =>
      obtain ⟨d', hd', hlines⟩ := ih hrest
        (Drawing.addRows { d.wrapRow with current := d.wrapRow.current ++ row ++ "|" } true rows)
      refine ⟨d', hd', fun P hP h hrows => ?_⟩
      obtain ⟨hrow, hrows⟩ := List.forall_mem_cons.1 hrows
      exact hlines P hP (h.addCell hP hrow) hrows

end Drawing

/-- **Cells are drawn with lines that have no more in them than the rows of the cells.** -/
theorem exists_drawingLines {cells : List Cell} (hcells : ∀ cell ∈ cells, cell ≠ []) :
    ∃ lines, drawingLines cells = .ok lines ∧ ∀ P, Divides P →
      (∀ cell ∈ cells, ∀ row ∈ cell, P row) → ∀ line ∈ lines, P line := by
  obtain ⟨d, hd, hlines⟩ := Drawing.exists_addCells hcells {}
  refine ⟨d.close, by rw [drawingLines, hd, ok_bind]; rfl, fun P hP hrows => ?_⟩
  have hhead : ∀ line ∈ drawingHead, P line := by
    have hplain : ∀ line ∈ drawingHead, Text.IsPlain line := by decide
    exact fun line hline => hP.of_plain (hplain line hline)
  exact (hlines P hP ⟨hhead, [], .char '|', rfl, by decide, hP.nil⟩ hrows).close hP

/-! ## Diagrams -/

namespace Diagram

/-- The texts that a diagram shows. -/
def texts (d : Diagram) : List Text := d.title.text :: d.legend.flatMap LegendLine.texts

/-- There are line feeds only at the end of the title and of descriptions. -/
structure FeedsAtEnd (d : Diagram) : Prop where
  title : d.title.text.FeedsAtEnd
  legend : ∀ l ∈ d.legend, l.FeedsAtEnd

variable {d : Diagram}

theorem Legible.forall_mem_row {P : Text → Prop} (hP : Divides P) (hd : d.Legible)
    (hlabels : ∀ l ∈ d.legend, ∀ label, l.label = some label → P label.text) :
    ∀ cell ∈ d.cells, ∀ row ∈ cell, P row := by
  intro cell hcell row hrow
  obtain ⟨before, label, after, rfl, hlabel⟩ := (hd.cells cell hcell).row row hrow
  rw [hP.append_plain_iff (isPlain_blanks _), hP.plain_append_iff (isPlain_blanks _)]
  rcases hlabel with rfl | ⟨l, hl, hlabel⟩
  · exact hP.nil
  · exact hlabels l hl _ hlabel

/-- The lines of a diagram between those that open and close its comment. -/
structure CommentBody (d : Diagram) (body : List Text) : Prop where
  lines : d.lines .comment = .ok (Text.ofString "/**" :: body ++ [Text.ofString " */"])
  marked : ∀ line ∈ body, (" *" : Text) <+: line
  divided : ∀ P, Divides P → ((∀ line ∈ body, P line) ↔ ∀ t ∈ d.texts, P t)
  feedsAtEnd : d.FeedsAtEnd → ∀ line ∈ body, line.FeedsAtEnd

/-- **The lines of a comment show the title and the legend of its diagram and nothing else that
counts.** -/
theorem Legible.exists_commentBody (hd : d.Legible) : ∃ body, d.CommentBody body := by
  obtain ⟨title, htitle⟩ := hd.title
  obtain ⟨drawing, hdrawing, hdrawn⟩ :=
    exists_drawingLines fun cell hcell => (hd.cells cell hcell).rows
  choose! lines hlines using fun l hl => (hd.legend l hl).exists_commentEntry
  have hentries : d.legend.mapM commentEntry = .ok (d.legend.map lines) := by
    obtain ⟨entries, hentries, -⟩ := mapM_of_forall (r := fun _ _ => True)
      fun l hl => ⟨lines l, (hlines l hl).1, trivial⟩
    rw [hentries, mapM_eq_ok (fun l hl entry hentry => ?_) hentries]
    exact Except.ok.inj (hentry.symm.trans (hlines l hl).1)
  refine ⟨(title :: [] :: drawing ++ [[]]).map (fun line => (" * " ++ line : Text))
    ++ d.legend.flatMap lines, ?_, ?_, ?_, ?_⟩
  case refine_1 =>
    rw [Diagram.lines, htitle]
    simp only [hdrawing, hentries, ok_bind]
    refine congrArg Except.ok ?_
    simp [commentLines, List.flatMap_def]
  case refine_2 =>
    refine List.forall_mem_append.2 ⟨List.forall_mem_map.2 fun line _ => ⟨_, rfl⟩, ?_⟩
    exact List.forall_mem_flatMap.2 fun l hl => (hlines l hl).2.marked
  case refine_3 =>
    intro P hP
    have hshown : (∀ l ∈ d.legend, ∀ line ∈ lines l, P line) ↔
        ∀ l ∈ d.legend, ∀ t ∈ l.texts, P t :=
      forall₂_congr fun l hl => (hlines l hl).2.divided P hP
    rw [List.forall_mem_append, List.forall_mem_map, List.forall_mem_flatMap, hshown, texts,
      List.forall_mem_cons, List.forall_mem_flatMap, htitle]
    refine and_congr_left fun htexts => ?_
    have hlabels : ∀ l ∈ d.legend, ∀ label, l.label = some label → P label.text := fun l hl =>
      ((LegendLine.forall_mem_texts_iff hP).1 (htexts l hl)).2.1
    have hrows := hdrawn P hP (hd.forall_mem_row hP hlabels)
    simp only [hP.margin_append_iff, List.cons_append, List.forall_mem_cons,
      List.forall_mem_append]
    exact ⟨fun h => h.1, fun h => ⟨h, hP.nil, hrows, hP.nil, List.forall_mem_nil _⟩⟩
  case refine_4 =>
    intro hfeeds
    have hfeedless := Text.divides_feedless
    have hrows := hdrawn _ hfeedless
      (hd.forall_mem_row hfeedless fun l hl => (hfeeds.legend l hl).label)
    have hbody : ∀ line ∈ title :: [] :: drawing ++ [[]], line.FeedsAtEnd := by
      simp only [List.cons_append, List.forall_mem_cons, List.forall_mem_append]
      have hempty : Text.FeedsAtEnd [] := .of_feedless List.not_mem_nil
      refine ⟨?_, hempty, fun line hline => .of_feedless (hrows line hline), hempty,
        List.forall_mem_nil _⟩
      rw [← Value.text_str title, ← htitle]
      exact hfeeds.title
    refine List.forall_mem_append.2 ⟨List.forall_mem_map.2 fun line hline => ?_, ?_⟩
    · exact (hbody line hline).feedless_append (by decide)
    · exact List.forall_mem_flatMap.2 fun l hl => (hlines l hl).2.feedsAtEnd (hfeeds.legend l hl)

/-- The text of a diagram as a comment. -/
structure CommentedAs (d : Diagram) (lines : List Text) (s : Text) : Prop where
  opened : ("/**\n" : Text) <+: s
  closed : ("\n */\n" : Text) <:+ s
  /-- It is closed early exactly by the texts that are shown. -/
  closedOnce_iff : s.ClosedOnce ↔ ∀ t ∈ d.texts, ¬t.ClosesComment
  /-- A line without a mark comes from a line feed that is left in one of the lines. -/
  marked_iff : s.LinesMarked ↔ ∀ line ∈ lines, (Text.stripRight line).FeedsMarked
  marked_of_feedsAtEnd : d.FeedsAtEnd → s.LinesMarked

theorem CommentedAs.isComment_iff {lines : List Text} {s : Text} (h : d.CommentedAs lines s) :
    s.IsComment ↔ (∀ t ∈ d.texts, ¬t.ClosesComment) ∧
      ∀ line ∈ lines, (Text.stripRight line).FeedsMarked := by
  rw [← h.closedOnce_iff, ← h.marked_iff]
  exact ⟨fun hs => ⟨hs.closedOnce, hs.marked⟩, fun hs => ⟨h.opened, h.closed, hs.1, hs.2⟩⟩

/-- Stripped lines are a comment as the lines are. -/
theorem CommentBody.commentedAs {body : List Text} (h : d.CommentBody body) :
    ∃ lines s, d.lines .comment = .ok lines ∧ d.render .comment = .ok s ∧
      d.CommentedAs lines s := by
  let stripped : List Text := body.map Text.stripRight
  have hrender : d.render .comment = .ok (Text.enclosed stripped) := by
    rw [Diagram.render, h.lines]
    refine congrArg Except.ok ?_
    rw [Text.enclosed, List.map_append, List.map_cons]
    rfl
  have hmarks : ∀ line ∈ stripped, (" *" : Text) <+: line :=
    List.forall_mem_map.2 fun line hline => Text.mark_prefix_stripRight (h.marked line hline)
  have hfeeds : (Text.enclosed stripped).LinesMarked ↔
      ∀ line ∈ body, (Text.stripRight line).FeedsMarked := by
    rw [Text.linesMarked_enclosed_iff hmarks, List.forall_mem_map]
  refine ⟨_, _, h.lines, hrender, ?_⟩
  constructor
  case opened => exact Text.opened_enclosed
  case closed => exact Text.closed_enclosed
  case closedOnce_iff =>
    rw [Text.closedOnce_enclosed_iff, List.forall_mem_map]
    simp only [Text.closesComment_stripRight_iff]
    exact h.divided _ Text.divides_not_closesComment
  case marked_iff =>
    have hopening : (Text.stripRight (Text.ofString "/**")).FeedsMarked :=
      Text.feedsMarked_of_feedless (by decide)
    have hclosing : (Text.stripRight (Text.ofString " */")).FeedsMarked :=
      Text.feedsMarked_of_feedless (by decide)
    rw [hfeeds, List.cons_append, List.forall_mem_cons, List.forall_mem_append,
      List.forall_mem_singleton, and_iff_right hopening, and_iff_left hclosing]
  case marked_of_feedsAtEnd =>
    exact fun hd => hfeeds.2 fun line hline => (h.feedsAtEnd hd line hline).feedsMarked_stripRight

end Diagram

namespace Field

variable {raw root : Field} {d : Diagram}

/-- **The comment of an accepted tree opens and closes as one.**  It is one unless a name, a label,
a description or the title ends it early, or a line feed within one of them begins a line that has
no mark; those at the end of the title and of descriptions do not. -/
theorem commentedAs_of_diagram (h : raw.resolve = .ok root)
    (hdesc : ∀ e ∈ root.entries, IsTextIfFilled e.header.desc) (hd : root.diagram = .ok d) :
    ∃ lines s, d.lines .comment = .ok lines ∧ d.render .comment = .ok s ∧
      d.CommentedAs lines s := by
  obtain ⟨body, hbody⟩ := (legible_of_diagram h hdesc hd).exists_commentBody
  exact hbody.commentedAs

/-- A bit field with descriptions that end with a line feed or fill more than a line. -/
def noticeBlock : Field :=
  struct { name := some (.str "r"), desc := some (.str "A notice.\n") }
    [bitfield {
      header := { name := some (.str "c"), desc := some (.str "What was sent.\n") }
      bits := 8
      items :=
        [{
          header := {
            name := some (.str "seen")
            desc := some (.str
              "How many on the other side of the line have read the notice, all being seven.") }
          bits := 3 },
        { bits := 5 }] }]

theorem commentedAs_of_diagram_noticeBlock :
    ∃ root d, noticeBlock.resolve = .ok root ∧
      (∀ e ∈ root.entries, IsTextIfFilled e.header.desc) ∧ root.diagram = .ok d ∧
      ∃ lines s, d.lines .comment = .ok lines ∧ d.render .comment = .ok s ∧
        d.CommentedAs lines s ∧ s.IsComment := by
  have hresolve : noticeBlock.resolve = .ok (noticeBlock.located [] 0 0) := rfl
  have hdesc : ∀ e ∈ (noticeBlock.located [] 0 0).entries, IsTextIfFilled e.header.desc := by
    decide
  have hdrawn : (noticeBlock.located [] 0 0).diagram.toOption.any (fun d =>
      decide (∀ t ∈ d.texts, ¬t.ClosesComment) &&
      (d.lines .comment).toOption.any fun lines =>
        decide (∀ line ∈ lines, .char '\n' ∉ Text.stripRight line)) = true := by decide +kernel
  obtain ⟨d, hd, hshown⟩ := exists_of_any hdrawn
  obtain ⟨htexts, hlines⟩ := Bool.and_eq_true_iff.1 hshown
  obtain ⟨lines, hlines, hfeedless⟩ := exists_of_any hlines
  obtain ⟨lines', s, hlines', hs, hcommented⟩ := commentedAs_of_diagram hresolve hdesc hd
  obtain rfl := Except.ok.inj (hlines'.symm.trans hlines)
  refine ⟨_, d, hresolve, hdesc, hd, lines', s, hlines, hs, hcommented, ?_⟩
  refine hcommented.isComment_iff.2 ⟨of_decide_eq_true htexts, fun line hline => ?_⟩
  exact Text.feedsMarked_of_feedless (of_decide_eq_true hfeedless line hline)

/-- A word with a description of two lines. -/
def twoLineWord : Field :=
  struct { name := some (.str "r") }
    [word {
      header := { name := some (.str "a"), desc := some (.str "First.\nSecond.\n") }
      bits := 8 }]

/-- A description of two lines begins a line of the comment that has no mark. -/
theorem render_twoLineWord_not_isComment :
    ∃ root d s, twoLineWord.resolve = .ok root ∧
      (∀ e ∈ root.entries, IsTextIfFilled e.header.desc) ∧ root.diagram = .ok d ∧
      d.render .comment = .ok s ∧ ¬s.IsComment := by
  have hresolve : twoLineWord.resolve = .ok (twoLineWord.located [] 0 0) := rfl
  have hdesc : ∀ e ∈ (twoLineWord.located [] 0 0).entries, IsTextIfFilled e.header.desc := by
    decide
  have hdrawn : (twoLineWord.located [] 0 0).diagram.toOption.any (fun d =>
      (d.render .comment).toOption.any fun s =>
        decide (("\nSecond.\n */\n" : Text) <:+ s)) = true := by decide +kernel
  obtain ⟨d, hd, hrendered⟩ := exists_of_any hdrawn
  obtain ⟨s, hs, hend⟩ := exists_of_any hrendered
  refine ⟨_, d, s, hresolve, hdesc, hd, hs, fun hcomment => ?_⟩
  obtain ⟨before, hbefore⟩ := of_decide_eq_true hend
  have hmark : ("Second.\n */\n" : Text) = [] ∨ (" *" : Text) <+: "Second.\n */\n" :=
    hcomment.marked before "Second.\n */\n" hbefore.symm
  exact absurd hmark (by decide)

end Field

end RegisterLayout
