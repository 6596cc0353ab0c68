import Mathlib.Data.List.DropRight
import Mathlib.Data.List.Infix
import RegisterLayout.Diagram.Rendering

/-!
# Text within a comment

A comment has a line that opens it and a mark at every line behind that, and it ends where it is
first closed.  Whether a text can stand within one is found out from its parts: parts that any
other character keeps apart close a comment, or have a line feed, exactly if one of them does.  The
lines of a comment are such texts, made of words between blanks.

Principal definitions: `Text.IsComment`, `Text.ClosesComment`, `Text.FeedsMarked`, `Text.Divides`,
`Text.enclosed`.
Principal results: `Text.closedOnce_enclosed_iff`, `Text.linesMarked_enclosed_iff`.
-/

namespace RegisterLayout

namespace Text

/-! ## Comments -/

/-- A text that ends a comment in which it is. -/
def ClosesComment (s : Text) : Prop := ("*/" : Text) <:+: s

instance (s : Text) : Decidable s.ClosesComment := inferInstanceAs (Decidable (_ <:+: s))

/-- The end of a comment comes only with its last line. -/
def ClosedOnce (s : Text) : Prop := ∀ before after, s = before ++ "*/" ++ after → after = "\n"

/-- Behind every line feed there is the mark of a further line. -/
def FeedsMarked (s : Text) : Prop :=
  ∀ before after, s = before ++ .char '\n' :: after → (" *" : Text) <+: after

/-- Every line but the first begins with its mark. -/
def LinesMarked (s : Text) : Prop :=
  ∀ before after, s = before ++ .char '\n' :: after → after = [] ∨ (" *" : Text) <+: after

/-- A text that is one comment: it begins with the line that opens it and ends with the line that
closes it, it is not closed before, and every line in between has its mark. -/
structure IsComment (s : Text) : Prop where
  opened : ("/**\n" : Text) <+: s
  closed : ("\n */\n" : Text) <:+ s
  closedOnce : s.ClosedOnce
  marked : s.LinesMarked

/-! ## Parts of texts -/

end Text

/-- A character that is not part of the end of a comment and ends no line. -/
def CodePoint.IsPlain (c : CodePoint) : Prop := c ≠ .char '*' ∧ c ≠ .char '/' ∧ c ≠ .char '\n'

instance (c : CodePoint) : Decidable c.IsPlain := inferInstanceAs (Decidable (_ ∧ _ ∧ _))

namespace Text

def IsPlain (s : Text) : Prop := ∀ c ∈ s, c.IsPlain

instance (s : Text) : Decidable s.IsPlain := inferInstanceAs (Decidable (∀ c ∈ s, c.IsPlain))

/-- A property that texts with a plain character between them have together exactly if each of them
has it. -/
structure Divides (P : Text → Prop) : Prop where
  nil : P []
  star : P "*"
  split : ∀ {c : CodePoint}, c.IsPlain → ∀ s t, P (s ++ c :: t) ↔ P s ∧ P t

/-- The end of a comment has no other characters in it. -/
theorem closesComment_append_cons_iff {c : CodePoint} (hstar : c ≠ .char '*')
    (hslash : c ≠ .char '/') {s t : Text} :
    (s ++ c :: t).ClosesComment ↔ s.ClosesComment ∨ t.ClosesComment := by
  have hmem : c ∉ ("*/" : Text) := by
    rw [show ("*/" : Text) = [.char '*', .char '/'] from rfl]
    simp [hstar, hslash]
  have hhead : ∀ u : Text, u <+: c :: t → u <:+: ("*/" : Text) → u = [] := by
    intro u hu hin
    rcases List.prefix_cons_iff.1 hu with rfl | ⟨rest, rfl, -⟩
    · rfl
    · exact absurd (hin.subset List.mem_cons_self) hmem
  unfold ClosesComment
  rw [List.infix_append_iff, List.infix_cons_iff]
  constructor
  · rintro (hs | (hfirst | ht) | ⟨u, v, huv, hu, hv⟩)
    · exact .inl hs
    · exact absurd (hhead _ hfirst List.infix_rfl) (by decide)
    · exact .inr ht
    · obtain rfl := hhead v hv ⟨u, [], by rw [huv, List.append_nil]⟩
      rw [List.append_nil] at huv
      exact .inl (huv ▸ hu.isInfix)
  · rintro (hs | ht)
    · exact .inl hs
    · exact .inr (.inl (.inr ht))

theorem divides_not_closesComment : Divides fun s => ¬s.ClosesComment where
  nil := by
    rw [ClosesComment, List.infix_nil]
    decide
  star := by
    rw [ClosesComment]
    decide
  split := by
    rintro c ⟨hstar, hslash, -⟩ s t
    rw [closesComment_append_cons_iff hstar hslash, not_or]

theorem divides_feedless : Divides fun s => .char '\n' ∉ s where
  nil := List.not_mem_nil
  star := by decide
  split := by
    rintro c ⟨-, -, hfeed⟩ s t
    rw [List.mem_append, List.mem_cons, not_or, not_or, and_iff_right (Ne.symm hfeed)]

section

variable {P : Text → Prop} (hP : Divides P)

include hP

theorem Divides.plain_append_iff {s t : Text} (hs : s.IsPlain) : P (s ++ t) ↔ P t := by
  induction s with
  | nil => rfl
  | cons c s ih =>
    obtain ⟨hc, hs⟩ := List.forall_mem_cons.1 hs
    have hsplit := hP.split hc [] (s ++ t)
    rw [ih hs, and_iff_right hP.nil] at hsplit
    exact hsplit

theorem Divides.of_plain {s : Text} (hs : s.IsPlain) : P s := by
  have hnil := hP.plain_append_iff (t := []) hs
  rw [List.append_nil] at hnil
  exact hnil.2 hP.nil

theorem Divides.between_iff {c : CodePoint} (hc : c.IsPlain) (s t : Text) :
    P (s ++ [c] ++ t) ↔ P s ∧ P t := by
  rw [List.append_assoc]
  exact hP.split hc s t

theorem Divides.append_plain_iff {s t : Text} (ht : t.IsPlain) : P (s ++ t) ↔ P s := by
  cases t with
  | nil => rw [List.append_nil]
  | cons c t =>
    obtain ⟨hc, ht⟩ := List.forall_mem_cons.1 ht
    rw [hP.split hc, and_iff_left (hP.of_plain ht)]

/-- What stands before every line of a comment. -/
theorem Divides.margin_append_iff (s : Text) : P (" * " ++ s) ↔ P s := by
  have hmark : P " *" := (hP.plain_append_iff (s := " ") (by decide)).2 hP.star
  have hsplit : P (" *" ++ [CodePoint.char ' '] ++ s) ↔ P " *" ∧ P s :=
    hP.between_iff (by decide) " *" s
  rwa [and_iff_right hmark] at hsplit

end

/-! ## Words -/

/-- A text is cut like any list. -/
theorem splitOn_eq {α : Type} [DecidableEq α] (c : α) (s : List α) :
    splitOn c s = List.splitOn c s := by
  unfold splitOn
  induction s with
  | nil => rfl
  | cons d s ih =>
    rw [splitBy, List.splitOn_cons_eq_if_modifyHead, ih]
    by_cases hd : d = c
    · rw [if_pos (decide_eq_true hd), if_pos (beq_iff_eq.2 hd)]
    · rw [if_neg (by simpa using hd), if_neg (by simpa using hd)]
      rcases hparts : List.splitOn c s with _ | ⟨part, parts⟩
      · exact absurd hparts (List.splitOn_ne_nil c s)
      · rfl

theorem joined_splitOn (c : CodePoint) (s : Text) : joined [c] (splitOn c s) = s := by
  rw [joined, splitOn_eq, List.intercalate_splitOn]

/-- Words in a row have a property that divides exactly if each of them has it. -/
theorem Divides.joined_iff {P : Text → Prop} (hP : Divides P) {c : CodePoint} (hc : c.IsPlain)
    (words : List Text) : P (joined [c] words) ↔ ∀ word ∈ words, P word := by
  induction words with
  | nil => exact iff_of_true hP.nil (List.forall_mem_nil P)
  | cons word words ih =>
    cases words with
    | nil => rw [joined, List.intercalate_singleton, List.forall_mem_singleton]
    | cons next words =>
      rw [List.forall_mem_cons, ← ih, ← hP.split hc, joined, List.intercalate_cons_cons,
        List.append_assoc]
      rfl

/-! ## Lines -/

theorem ofLines_append (ls ls' : List Text) : ofLines (ls ++ ls') = ofLines ls ++ ofLines ls' :=
  List.flatMap_append

theorem ofLines_cons (l : Text) (ls : List Text) :
    ofLines (l :: ls) = l ++ .char '\n' :: ofLines ls := by
  rw [ofLines, List.flatMap_cons, List.append_assoc]
  rfl

/-- Lines have the end of a comment exactly if one of them has it. -/
theorem closesComment_ofLines_iff {ls : List Text} :
    (ofLines ls).ClosesComment ↔ ∃ l ∈ ls, l.ClosesComment := by
  induction ls with
  | nil => exact iff_of_false divides_not_closesComment.nil (by simp)
  | cons l ls ih =>
    rw [ofLines_cons, closesComment_append_cons_iff (by decide) (by decide), ih,
      List.exists_mem_cons_iff]

/-- A text behind which a comment is closed is closed only there exactly if it does not close the
comment itself. -/
theorem closedOnce_append_iff {s : Text} : (s ++ " */\n").ClosedOnce ↔ ¬s.ClosesComment := by
  constructor
  · rintro honce ⟨before, after, hs⟩
    have hend := honce before (after ++ " */\n") (by rw [← hs]; simp only [List.append_assoc])
    have hlength := congrArg List.length hend
    rw [List.length_append] at hlength
    have : (" */\n" : Text).length = 4 := rfl
    have : ("\n" : Text).length = 1 := rfl
    omega
  · intro hopen before after hs
    have hstar : ¬(s ++ " *").ClosesComment :=
      (divides_not_closesComment.split (by decide) s "*").2
        ⟨hopen, divides_not_closesComment.star⟩
    -- What is behind a mark is compared from its end: the line feed, then the slash before it.
    rcases List.eq_nil_or_concat' after with rfl | ⟨rest, feed, rfl⟩
    · have hlast := congrArg List.getLast? hs
      simp [ofString, ofChars] at hlast
    · have hfeed : (s ++ ofString " */") ++ [CodePoint.char '\n']
          = (before ++ ofString "*/" ++ rest) ++ [feed] := by
        rw [List.append_assoc, List.append_assoc _ rest]
        exact hs
      obtain ⟨hslash, hx⟩ := List.append_inj' hfeed rfl
      obtain rfl := List.singleton_inj.1 hx
      rcases List.eq_nil_or_concat' rest with rfl | ⟨rest, slash, rfl⟩
      · rfl
      · have hrest : (s ++ ofString " *") ++ [CodePoint.char '/']
            = (before ++ ofString "*/" ++ rest) ++ [slash] := by
          rw [List.append_assoc, List.append_assoc _ rest]
          exact hslash
        exact absurd ⟨before, rest, (List.append_inj' hrest rfl).1.symm⟩ hstar

/-! ## Marks of lines -/

theorem mark_prefix_append_feed_iff {s t : Text} :
    (" *" : Text) <+: s ++ .char '\n' :: t ↔ (" *" : Text) <+: s := by
  have hmark : (" *" : Text) = [.char ' ', .char '*'] := rfl
  rw [hmark]
  rcases s with _ | ⟨c, _ | ⟨d, s⟩⟩ <;> simp [List.cons_prefix_cons]

/-- The line that follows a text is marked if the text is followed by one or by nothing. -/
theorem linesMarked_append_feed_iff {s t : Text} :
    (s ++ .char '\n' :: t).LinesMarked ↔
      s.FeedsMarked ∧ (t = [] ∨ (" *" : Text) <+: t) ∧ t.LinesMarked := by
  constructor
  · intro h
    refine ⟨?_, h s t rfl, ?_⟩
    · rintro before after rfl
      rcases h before (after ++ .char '\n' :: t) (by simp) with hnil | hmark
      · exact absurd hnil (by simp)
      · exact mark_prefix_append_feed_iff.1 hmark
    · rintro before after rfl
      exact h (s ++ .char '\n' :: before) after (by simp)
  · rintro ⟨hs, hfirst, ht⟩ before after heq
    rcases List.append_eq_append_iff.1 heq with ⟨rest, rfl, hafter⟩ | ⟨rest, rfl, hafter⟩
    · rcases rest with _ | ⟨feed, rest⟩
      · obtain ⟨-, rfl⟩ := List.cons.inj hafter
        exact hfirst
      · obtain ⟨rfl, rfl⟩ := List.cons.inj hafter
        exact ht rest after rfl
    · rcases rest with _ | ⟨feed, rest⟩
      · obtain ⟨-, rfl⟩ := List.cons.inj hafter
        exact hfirst
      · obtain ⟨rfl, rfl⟩ := List.cons.inj hafter
        exact .inr (mark_prefix_append_feed_iff.2 (hs before rest rfl))

/-- Marked lines have all their lines marked exactly if the line feeds in each of them are. -/
theorem linesMarked_ofLines_iff {first : Text} {ls : List Text}
    (h : ∀ l ∈ ls, (" *" : Text) <+: l) :
    (ofLines (first :: ls)).LinesMarked ↔ ∀ l ∈ first :: ls, l.FeedsMarked := by
  induction ls generalizing first with
  | nil =>
    have hnil : LinesMarked [] := fun before after heq => absurd heq (by simp)
    rw [ofLines_cons, linesMarked_append_feed_iff, List.forall_mem_singleton]
    exact and_iff_left ⟨.inl rfl, hnil⟩
  | cons l' ls ih =>
    obtain ⟨hl', hls⟩ := List.forall_mem_cons.1 h
    have hfirst : (" *" : Text) <+: ofLines (l' :: ls) := by
      rw [ofLines_cons]
      exact mark_prefix_append_feed_iff.2 hl'
    rw [ofLines_cons, linesMarked_append_feed_iff, ih hls, and_iff_right (Or.inr hfirst),
      List.forall_mem_cons (a := first)]

theorem feedsMarked_of_feedless {s : Text} (h : .char '\n' ∉ s) : s.FeedsMarked := by
  rintro before after rfl
  exact absurd (List.mem_append_right before List.mem_cons_self) h

/-! ## Lines between those that open and close a comment -/

/-- Lines as the text of a comment. -/
def enclosed (body : List Text) : Text := ofLines (ofString "/**" :: body ++ [ofString " */"])

section

variable {body : List Text}

theorem enclosed_eq : enclosed body = ofLines (ofString "/**" :: body) ++ " */\n" :=
  ofLines_append _ _

theorem opened_enclosed : ("/**\n" : Text) <+: enclosed body :=
  ⟨ofLines (body ++ [ofString " */"]), rfl⟩

theorem closed_enclosed : ("\n */\n" : Text) <:+ enclosed body := by
  obtain hnil | ⟨init, last, hlast⟩ := List.eq_nil_or_concat (ofString "/**" :: body)
  · cases hnil
  · rw [enclosed_eq, hlast, List.concat_eq_append, ofLines_append, ofLines_cons]
    exact ⟨ofLines init ++ last, by simp [ofLines, ofString, ofChars]⟩

/-- **A comment is closed by its last line only exactly if no line in it closes it.** -/
theorem closedOnce_enclosed_iff : (enclosed body).ClosedOnce ↔ ∀ l ∈ body, ¬l.ClosesComment := by
  have hopening : ¬(ofString "/**").ClosesComment := by
    rw [ClosesComment]
    decide
  rw [enclosed_eq, closedOnce_append_iff, closesComment_ofLines_iff, List.exists_mem_cons_iff,
    or_iff_right hopening]
  push Not
  rfl

/-- **All lines of a comment of marked lines have their mark exactly if the line feeds in these
lines have one.** -/
theorem linesMarked_enclosed_iff (h : ∀ l ∈ body, (" *" : Text) <+: l) :
    (enclosed body).LinesMarked ↔ ∀ l ∈ body, l.FeedsMarked := by
  have hmarks : ∀ l ∈ body ++ [ofString " */"], (" *" : Text) <+: l :=
    List.forall_mem_append.2 ⟨h, List.forall_mem_singleton.2 ⟨[.char '/'], rfl⟩⟩
  have hopening : (ofString "/**").FeedsMarked := feedsMarked_of_feedless (by decide)
  have hclosing : (ofString " */").FeedsMarked := feedsMarked_of_feedless (by decide)
  rw [enclosed, List.cons_append, linesMarked_ofLines_iff hmarks, List.forall_mem_cons,
    List.forall_mem_append, List.forall_mem_singleton, and_iff_right hopening,
    and_iff_left hclosing]

end

/-! ## Stripped lines -/

theorem exists_stripRight_append (s : Text) :
    ∃ blanks, stripRight s ++ blanks = s ∧ ∀ c ∈ blanks, c.holds isBlank = true :=
  ⟨s.rtakeWhile (·.holds isBlank), List.rdropWhile_append_rtakeWhile,
    fun _ => List.mem_rtakeWhile_imp⟩

/-- What stands up to a character that is not blank is not stripped. -/
theorem stripRight_append_cons {c : CodePoint} (hc : c.holds isBlank = false) (s t : Text) :
    stripRight (s ++ c :: t) = s ++ c :: stripRight t := by
  show List.rdropWhile _ _ = s ++ c :: List.rdropWhile _ _
  induction t using List.reverseRecOn with
  | nil =>
    rw [List.rdropWhile_concat_neg _ _ _ (by simp [hc])]
    rfl
  | append_singleton t d ih =>
    have hlast : s ++ c :: (t ++ [d]) = (s ++ c :: t) ++ [d] := by simp
    rw [hlast]
    by_cases hd : d.holds isBlank = true
    · rw [List.rdropWhile_concat_pos _ _ _ hd, List.rdropWhile_concat_pos _ _ _ hd, ih]
    · rw [List.rdropWhile_concat_neg _ _ _ hd, List.rdropWhile_concat_neg _ _ _ hd, hlast]

theorem closesComment_stripRight_iff {s : Text} :
    (stripRight s).ClosesComment ↔ s.ClosesComment := by
  obtain ⟨blanks, hs, hblanks⟩ := exists_stripRight_append s
  conv_rhs => rw [← hs]
  clear hs
  induction blanks using List.reverseRecOn with
  | nil => rw [List.append_nil]
  | append_singleton blanks c ih =>
    rw [List.forall_mem_append, List.forall_mem_singleton] at hblanks
    have hstar : c ≠ .char '*' := by
      rintro rfl
      exact absurd hblanks.2 (by decide)
    have hslash : c ≠ .char '/' := by
      rintro rfl
      exact absurd hblanks.2 (by decide)
    rw [← List.append_assoc, closesComment_append_cons_iff hstar hslash, ← ih hblanks.1,
      or_iff_left divides_not_closesComment.nil]

/-- A line that begins with its mark keeps it. -/
theorem mark_prefix_stripRight {s : Text} (h : (" *" : Text) <+: s) :
    (" *" : Text) <+: stripRight s := by
  obtain ⟨blanks, hs, hblanks⟩ := exists_stripRight_append s
  have hstar : CodePoint.char '*' ∉ blanks := fun hmem => absurd (hblanks _ hmem) (by decide)
  have hmark : (" *" : Text) = [.char ' ', .char '*'] := rfl
  rw [← hs, hmark] at h
  rw [hmark]
  rcases hline : stripRight s with _ | ⟨c, _ | ⟨d, line⟩⟩
  · rw [hline, List.nil_append] at h
    exact absurd (h.subset (by simp)) hstar
  · rw [hline, List.cons_append, List.nil_append, List.cons_prefix_cons] at h
    exact absurd (h.2.subset (by simp)) hstar
  · rw [hline] at h
    simpa [List.cons_prefix_cons] using h

/-! ## Line feeds at the end -/

/-- Behind a line feed there are only blanks. -/
def FeedsAtEnd (s : Text) : Prop :=
  ∀ before after, s = before ++ .char '\n' :: after → ∀ c ∈ after, c.holds isBlank = true

namespace FeedsAtEnd

variable {s t : Text}

theorem of_append_left (h : (s ++ t).FeedsAtEnd) : s.FeedsAtEnd := by
  rintro before after rfl c hc
  exact h before (after ++ t) (by simp) c (List.mem_append_left t hc)

theorem of_append_right (h : (s ++ t).FeedsAtEnd) : t.FeedsAtEnd := by
  rintro before after rfl
  exact h (s ++ before) after (by simp)

theorem feedless_append (hs : .char '\n' ∉ s) (ht : t.FeedsAtEnd) : (s ++ t).FeedsAtEnd := by
  intro before after heq
  rcases List.append_eq_append_iff.1 heq with ⟨rest, rfl, hafter⟩ | ⟨rest, rfl, hafter⟩
  · exact ht rest after hafter
  · rcases rest with _ | ⟨feed, rest⟩
    · exact ht [] after hafter.symm
    · obtain ⟨rfl, -⟩ := List.cons.inj hafter
      exact absurd (List.mem_append_right before List.mem_cons_self) hs

theorem of_feedless (hs : .char '\n' ∉ s) : s.FeedsAtEnd := by
  have hnil : FeedsAtEnd [] := fun before after heq => absurd heq (by simp)
  have happend := feedless_append hs hnil
  rwa [List.append_nil] at happend

/-- No line feed is left of those at the end. -/
theorem feedsMarked_stripRight (h : s.FeedsAtEnd) : (stripRight s).FeedsMarked := by
  refine feedsMarked_of_feedless fun hmem => ?_
  obtain ⟨before, after, hline⟩ := List.append_of_mem hmem
  have hne : s.rdropWhile (·.holds isBlank) ≠ [] := List.ne_nil_of_mem hmem
  have hblank : ∀ c ∈ CodePoint.char '\n' :: after, c.holds isBlank = true := by
    obtain ⟨blanks, hs, -⟩ := exists_stripRight_append s
    rw [← hs] at h
    exact List.forall_mem_cons.2 ⟨by decide, h.of_append_left before after hline⟩
  refine List.rdropWhile_last_not _ _ hne (hblank _ ?_)
  have hlast : (s.rdropWhile (·.holds isBlank)).getLast hne
      = (CodePoint.char '\n' :: after).getLast (List.cons_ne_nil _ _) := by
    have hline' : s.rdropWhile (·.holds isBlank) = before ++ .char '\n' :: after := hline
    simp only [hline', List.getLast_append_right (List.cons_ne_nil _ _)]
  rw [hlast]
  exact List.getLast_mem _

end FeedsAtEnd

end Text

end RegisterLayout
