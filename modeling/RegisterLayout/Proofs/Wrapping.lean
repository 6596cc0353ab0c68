import RegisterLayout.Proofs.CommentBlock

/-!
# How descriptions are wrapped

The words of a description are set behind the head of its line, and behind a margin on further
lines.  Nothing is lost: the words stand on the lines once each and in order.  The lines are filled
greedily, a word that fits stays on the line, and none is longer than the width but for a head
alone or a margin with one word.  Two blanks have an empty word between them, which takes a place
like any other; only its blanks may be stripped at the end of a line.

Principal definitions: `Text.words`, `lineOf`, `Wrapped`, `LegendLine.WrappedAs`.
Principal results: `exists_wrapped` — the run over the words; `Wrapped.of_wide`,
`Wrapped.exists_stripped`, `LegendLine.Spaced.exists_wrappedAs`.
-/

namespace RegisterLayout

/-! ## Words of a text -/

namespace Text

/-- The words of a text, between which there are blanks. -/
def words (s : Text) : List Text := (splitOn (.char ' ') s).filter (· ≠ [])

/-- A text without white space other than plain blanks. -/
def IsSpaced (s : Text) : Prop := ∀ c ∈ s, c.holds isBlank = true → c = .char ' '

instance (s : Text) : Decidable s.IsSpaced :=
  inferInstanceAs (Decidable (∀ c ∈ s, c.holds isBlank = true → c = .char ' '))

theorem words_nil : words [] = [] := by decide

/-- **A blank divides the words.** -/
theorem words_append_blank (s t : Text) : words (s ++ .char ' ' :: t) = words s ++ words t := by
  unfold words
  simp only [splitOn_eq, List.splitOn_eq_splitOnP]
  rw [List.splitOnP_append_cons s t (by decide), List.filter_append]

theorem words_append_blanks (s : Text) (n : Nat) : words (s ++ blanks n) = words s := by
  induction n with
  | zero => rw [blanks, List.replicate_zero, List.append_nil]
  | succ n ih =>
    rw [blanks_succ, ← List.append_assoc, words_append_blank, ih, words_nil, List.append_nil]

theorem words_blanks_append (n : Nat) (s : Text) : words (blanks n ++ s) = words s := by
  induction n with
  | zero => rfl
  | succ n ih =>
    have hfirst : blanks (n + 1) ++ s = [] ++ .char ' ' :: (blanks n ++ s) := rfl
    rw [hfirst, words_append_blank, words_nil, List.nil_append, ih]

/-- The words of texts that are each put behind a blank. -/
theorem words_append_flatMap (s : Text) (ws : List Text) :
    words (s ++ ws.flatMap (.char ' ' :: ·)) = words s ++ ws.flatMap words := by
  induction ws generalizing s with
  | nil => rw [List.flatMap_nil, List.flatMap_nil, List.append_nil, List.append_nil]
  | cons w ws ih =>
    rw [List.flatMap_cons, List.cons_append, words_append_blank, ih, List.flatMap_cons]

theorem words_joined (ws : List Text) : words (joined [.char ' '] ws) = ws.flatMap words := by
  induction ws with
  | nil => exact words_nil
  | cons w ws ih =>
    cases ws with
    | nil => rw [joined, List.intercalate_singleton, List.flatMap_singleton]
    | cons next ws =>
      rw [joined] at ih
      rw [joined, List.intercalate_cons_cons, List.append_assoc, List.singleton_append,
        words_append_blank, ih, List.flatMap_cons (x := w)]

/-- Cut at its blanks, a text has the words of its parts. -/
theorem flatMap_words_splitOn (s : Text) : (splitOn (.char ' ') s).flatMap words = words s := by
  rw [← words_joined, joined_splitOn]

/-- Cutting a text adds no characters. -/
theorem IsSpaced.of_mem_splitOn {s : Text} (h : s.IsSpaced) {w : Text}
    (hw : w ∈ splitOn (.char ' ') s) : w.IsSpaced := by
  intro c hc
  have hflat : c ∈ (splitOn (.char ' ') s).flatten := List.mem_flatten.2 ⟨w, hw, hc⟩
  rw [splitOn, flatten_splitBy] at hflat
  exact h c (List.mem_of_mem_filter hflat)

/-- Stripping blanks leaves the words. -/
theorem IsSpaced.words_stripRight {s : Text} (h : s.IsSpaced) : words (stripRight s) = words s := by
  obtain ⟨blank, hs, hblank⟩ := exists_stripRight_append s
  have hblanks : blank = blanks blank.length := by
    refine List.eq_replicate_of_mem fun c hc => h c ?_ (hblank c hc)
    rw [← hs]
    exact List.mem_append_right _ hc
  rw [hblanks] at hs
  conv_rhs => rw [← hs, words_append_blanks]

end Text

/-! ## Words on lines -/

/-- Words behind what a line begins with, each behind a blank. -/
def lineOf (start : Text) (words : List Text) : Text := start ++ words.flatMap (.char ' ' :: ·)

/-- A first line and further ones, by their words. -/
def wrappedLines (margin head : Text) (first : List Text) (rest : List (List Text)) : List Text :=
  lineOf head first :: rest.map (lineOf margin)

/-- Words on a first line behind a head and on further lines behind a margin, a line being broken
exactly before the words that would make it too long. -/
structure Wrapped (margin head : Text) (words first : List Text) (rest : List (List Text)) :
    Prop where
  flatten : first ++ rest.flatten = words
  begun : ∀ group ∈ rest, group ≠ []
  unbrokenFirst : ∀ before word after, first = before ++ word :: after →
    (lineOf head before ++ " " ++ word).length ≤ wrapWidth
  unbroken : ∀ group ∈ rest, ∀ before word after, group = before ++ word :: after → before ≠ [] →
    (lineOf margin before ++ " " ++ word).length ≤ wrapWidth
  /-- The group behind a line begins with a word that has no room on it. -/
  broken : ∀ (k : Nat) line word after, (wrappedLines margin head first rest)[k]? = some line →
    rest[k]? = some (word :: after) → wrapWidth < (line ++ " " ++ word).length

section

variable {margin head line word : Text} {words first : List Text} {rest : List (List Text)}

theorem lineOf_nil (start : Text) : lineOf start [] = start := by
  rw [lineOf, List.flatMap_nil, List.append_nil]

theorem lineOf_cons (start word : Text) (words : List Text) :
    lineOf start (word :: words) = lineOf (start ++ " " ++ word) words := by
  unfold lineOf
  rw [List.flatMap_cons, List.append_assoc, List.append_assoc]
  rfl

theorem lineOf_concat (start word : Text) (words : List Text) :
    lineOf start (words ++ [word]) = lineOf start words ++ " " ++ word := by
  unfold lineOf
  rw [List.flatMap_append, List.flatMap_singleton, List.append_assoc, List.append_assoc]
  rfl

/-- A word that fits goes on the line. -/
theorem Wrapped.extend (hfits : (line ++ " " ++ word).length ≤ wrapWidth)
    (h : Wrapped margin (line ++ " " ++ word) words first rest) :
    Wrapped margin line (word :: words) (word :: first) rest := by
  constructor
  case flatten => rw [List.cons_append, h.flatten]
  case begun => exact h.begun
  case unbrokenFirst =>
    intro before next after heq
    cases before with
    | nil =>
      obtain ⟨rfl, rfl⟩ := List.cons.inj heq
      rw [lineOf_nil]
      exact hfits
    | cons _ before =>
      obtain ⟨rfl, hfirst⟩ := List.cons.inj heq
      rw [lineOf_cons]
      exact h.unbrokenFirst before next after hfirst
  case unbroken => exact h.unbroken
  case broken =>
    intro k other next after hline hgroup
    rw [wrappedLines, lineOf_cons] at hline
    exact h.broken k other next after hline hgroup

/-- A word that does not fit begins the next line. -/
theorem Wrapped.break (hwide : wrapWidth < (line ++ " " ++ word).length)
    (h : Wrapped margin (margin ++ " " ++ word) words first rest) :
    Wrapped margin line (word :: words) [] ((word :: first) :: rest) := by
  constructor
  case flatten => rw [List.nil_append, List.flatten_cons, List.cons_append, h.flatten]
  case begun => exact List.forall_mem_cons.2 ⟨List.cons_ne_nil _ _, h.begun⟩
  case unbrokenFirst =>
    intro before next after heq
    exact absurd heq.symm (by simp)
  case unbroken =>
    rw [List.forall_mem_cons]
    refine ⟨?_, h.unbroken⟩
    intro before next after heq hne
    cases before with
    | nil => exact absurd rfl hne
    | cons _ before =>
      obtain ⟨rfl, hfirst⟩ := List.cons.inj heq
      rw [lineOf_cons]
      exact h.unbrokenFirst before next after hfirst
  case broken =>
    intro k other next after hline hgroup
    cases k with
    | zero =>
      obtain rfl := Option.some.inj hline
      obtain ⟨rfl, -⟩ := List.cons.inj (Option.some.inj hgroup)
      rw [lineOf_nil]
      exact hwide
    | succ k =>
      rw [wrappedLines, List.map_cons, List.getElem?_cons_succ, lineOf_cons] at hline
      rw [List.getElem?_cons_succ] at hgroup
      exact h.broken k other next after hline hgroup

/-- **Words are wrapped greedily.** -/
theorem exists_wrapped (margin line : Text) (words : List Text) :
    ∃ first rest, wrapWords margin line words = wrappedLines margin line first rest ∧
      Wrapped margin line words first rest := by
  induction words generalizing line with
  | nil =>
    refine ⟨[], [], ?_, rfl, by simp, by simp, by simp, by simp⟩
    rw [wrapWords, wrappedLines, lineOf_nil, List.map_nil]
  | cons word words ih =>
    rw [wrapWords]
    by_cases hwide : wrapWidth < (line ++ " " ++ word).length
    · obtain ⟨first, rest, hlines, hwrapped⟩ := ih (margin ++ " " ++ word)
      refine ⟨[], (word :: first) :: rest, ?_, hwrapped.break hwide⟩
      rw [if_pos hwide, hlines, wrappedLines, wrappedLines, lineOf_nil, List.map_cons, lineOf_cons]
    · obtain ⟨first, rest, hlines, hwrapped⟩ := ih (line ++ " " ++ word)
      refine ⟨word :: first, rest, ?_, hwrapped.extend (Nat.le_of_not_lt hwide)⟩
      rw [if_neg hwide, hlines, wrappedLines, wrappedLines, lineOf_cons]

/-- **A line that is too long is the head alone, or a margin with one word.** -/
theorem Wrapped.of_wide (h : Wrapped margin head words first rest) :
    ∀ line ∈ wrappedLines margin head first rest, wrapWidth < line.length →
      line = head ∨ ∃ word ∈ words, line = margin ++ " " ++ word := by
  intro line hline hwide
  rw [wrappedLines, List.mem_cons, List.mem_map] at hline
  rcases hline with rfl | ⟨group, hgroup, rfl⟩
  · rcases List.eq_nil_or_concat' first with rfl | ⟨before, word, rfl⟩
    · left
      exact lineOf_nil head
    · have hfits := h.unbrokenFirst before word [] rfl
      rw [lineOf_concat] at hwide
      omega
  · rcases List.eq_nil_or_concat' group with rfl | ⟨before, word, rfl⟩
    · exact absurd rfl (h.begun [] hgroup)
    · cases before with
      | nil =>
        right
        refine ⟨word, ?_, ?_⟩
        · rw [← h.flatten]
          exact List.mem_append_right _
            (List.mem_flatten.2 ⟨_, hgroup, List.mem_singleton.2 rfl⟩)
        · rw [lineOf_concat, lineOf_nil]
      | cons w before =>
        have hfits := h.unbroken _ hgroup (w :: before) word [] rfl (List.cons_ne_nil _ _)
        rw [lineOf_concat] at hwide
        omega

end

/-! ## Stripped lines -/

/-- A line is stripped behind the last character of its start that is not blank. -/
theorem stripRight_lineOf {c : CodePoint} (hc : c.holds Text.isBlank = false) (start : Text)
    (blanks : Nat) (words : List Text) :
    Text.stripRight (lineOf (start ++ c :: Text.blanks blanks) words) =
      start ++ c :: Text.stripRight (lineOf (Text.blanks blanks) words) := by
  have hline : lineOf (start ++ c :: Text.blanks blanks) words
      = start ++ c :: lineOf (Text.blanks blanks) words := by
    rw [lineOf, List.append_assoc]
    rfl
  rw [hline, Text.stripRight_append_cons hc]

/-- The words of a line stay when it is stripped. -/
theorem words_stripRight_lineOf (blanks : Nat) {words : List Text}
    (h : ∀ word ∈ words, word.IsSpaced) :
    (Text.stripRight (lineOf (Text.blanks blanks) words)).words = words.flatMap Text.words := by
  have hspaced : (lineOf (Text.blanks blanks) words).IsSpaced := by
    intro c hc hblank
    rw [lineOf, List.mem_append, List.mem_flatMap] at hc
    rcases hc with hc | ⟨word, hword, hc⟩
    · exact List.eq_of_mem_replicate hc
    · rcases List.mem_cons.1 hc with rfl | hc
      · rfl
      · exact h word hword c hc hblank
  rw [hspaced.words_stripRight, lineOf, Text.words_append_flatMap]
  have hnone := Text.words_blanks_append blanks []
  rw [List.append_nil, Text.words_nil] at hnone
  rw [hnone, List.nil_append]

/-- The margin of the lines behind the first: its mark, and as many blanks as the head has
characters behind its own. -/
def marginBehind (head : Text) : Text := " * " ++ Text.blanks (head.length - 3)

/-- **The words of wrapped lines stand behind the head and behind the marks of further lines** once
each and in order, also when the lines are stripped. -/
theorem Wrapped.exists_stripped {head start : Text} {c : CodePoint} {words first : List Text}
    {rest : List (List Text)} (h : Wrapped (marginBehind head) head words first rest)
    (hhead : head = start ++ [c]) (hc : c.holds Text.isBlank = false)
    (hspaced : ∀ word ∈ words, word.IsSpaced) :
    ∃ (behind : Text) (further : List Text),
      (wrappedLines (marginBehind head) head first rest).map Text.stripRight =
          (head ++ behind) :: further.map (fun line => (" *" ++ line : Text)) ∧
        (behind :: further).flatMap Text.words = words.flatMap Text.words := by
  have hmark : marginBehind head
      = [.char ' '] ++ .char '*' :: Text.blanks (head.length - 3 + 1) := rfl
  have hfirst : Text.stripRight (lineOf head first)
      = head ++ Text.stripRight (lineOf (Text.blanks 0) first) := by
    have hstripped := stripRight_lineOf hc start 0 first
    rw [hhead, List.append_assoc]
    exact hstripped
  have hfurther : ∀ group, Text.stripRight (lineOf (marginBehind head) group)
      = " *" ++ Text.stripRight (lineOf (Text.blanks (head.length - 3 + 1)) group) := by
    intro group
    rw [hmark, stripRight_lineOf (by decide)]
    rfl
  rw [← h.flatten, List.forall_mem_append] at hspaced
  refine ⟨Text.stripRight (lineOf (Text.blanks 0) first),
    rest.map fun group => Text.stripRight (lineOf (Text.blanks (head.length - 3 + 1)) group),
    ?_, ?_⟩
  · rw [wrappedLines, List.map_cons, hfirst, List.map_map, List.map_map]
    exact congrArg _ (List.map_congr_left fun group _ => hfurther group)
  · have hgroups : ∀ group ∈ rest, (Text.stripRight
        (lineOf (Text.blanks (head.length - 3 + 1)) group)).words = group.flatMap Text.words := by
      intro group hgroup
      refine words_stripRight_lineOf _ fun word hword => hspaced.2 word ?_
      exact List.mem_flatten.2 ⟨group, hgroup, hword⟩
    have hflat : rest.flatten.flatMap Text.words = rest.flatMap (List.flatMap Text.words) := by
      rw [← List.flatMap_id, List.flatMap_assoc]
      rfl
    rw [List.flatMap_cons, words_stripRight_lineOf 0 hspaced.1, List.flatMap_map,
      List.flatMap_congr hgroups, ← h.flatten, List.flatMap_append, hflat]

/-! ## Lines of the legend -/

namespace LegendLine

/-- All that a comment shows of a line is text, and there are no white spaces but blanks in its
description. -/
structure Spaced (l : LegendLine) : Prop where
  name : l.name.IsText
  bits : l.bits.IsText
  label : ∀ label, l.label = some label → label.IsText
  desc : IsTextIfFilled l.desc
  inset : ∃ n, l.inset = .ok (Text.blanks n)
  spaced : l.description.IsSpaced

/-- The lines of a comment about one field, by their words. -/
structure WrappedAs (l : LegendLine) (head : Text) (first : List Text) (rest : List (List Text)) :
    Prop where
  begins : commentHead l = .ok head
  marked : (" * " : Text) <+: head
  lines : commentEntry l = .ok (wrappedLines (marginBehind head) head first rest)
  wrapped : Wrapped (marginBehind head) head (Text.splitOn (.char ' ') l.description) first rest
  margin : ∀ line ∈ rest.map (lineOf (marginBehind head)), marginBehind head <+: line
  wide : ∀ line ∈ wrappedLines (marginBehind head) head first rest, wrapWidth < line.length →
    line = head ∨ ∃ word, line = marginBehind head ++ " " ++ word
  stripped : ∃ (behind : Text) (further : List Text),
    (wrappedLines (marginBehind head) head first rest).map Text.stripRight =
        (head ++ behind) :: further.map (fun line => (" *" ++ line : Text)) ∧
      (behind :: further).flatMap Text.words = l.description.words

/-- **A description is wrapped without loss**, and as tightly as its words allow. -/
theorem Spaced.exists_wrappedAs {l : LegendLine} (hl : l.Spaced) :
    ∃ head first rest, l.WrappedAs head first rest := by
  obtain ⟨name, hname⟩ := hl.name
  obtain ⟨bits, hbits⟩ := hl.bits
  obtain ⟨n, hn⟩ := hl.inset
  have hhead := commentHead_eq hname hbits hl.label hn
  set head : Text := " * " ++ Text.blanks n ++ "@" ++ name ++ " " ++ l.quotedLabel ++ "(" ++ bits
    ++ "):" with heq
  obtain ⟨first, rest, hlines, hwrapped⟩ :=
    exists_wrapped (marginBehind head) head (Text.splitOn (.char ' ') l.description)
  -- The head ends with a colon, so that nothing of it is stripped.
  have hcolon : ∃ start : Text, head = start ++ [.char ':'] := by
    refine ⟨" * " ++ Text.blanks n ++ "@" ++ name ++ " " ++ l.quotedLabel ++ "(" ++ bits ++ ")", ?_⟩
    rw [heq, List.append_assoc _ (Text.ofString ")")]
    rfl
  obtain ⟨start, hcolon⟩ := hcolon
  refine ⟨head, first, rest, hhead, ?_, ?_, hwrapped, ?_, ?_, ?_⟩
  case refine_1 =>
    rw [heq]
    simp only [List.append_assoc]
    exact List.prefix_append _ _
  case refine_2 =>
    rw [commentEntry, hhead, ok_bind, descriptionWords_eq hl.desc, ok_bind, ← hlines]
    rfl
  case refine_3 =>
    intro line hline
    obtain ⟨group, -, rfl⟩ := List.mem_map.1 hline
    exact List.prefix_append _ _
  case refine_4 =>
    intro line hline hwide
    rcases hwrapped.of_wide line hline hwide with hhead | ⟨word, -, hword⟩
    · exact .inl hhead
    · exact .inr ⟨word, hword⟩
  case refine_5 =>
    obtain ⟨behind, further, hstripped, hwords⟩ :=
      hwrapped.exists_stripped hcolon (by decide) fun word hword => hl.spaced.of_mem_splitOn hword
    exact ⟨behind, further, hstripped, by rw [hwords, Text.flatMap_words_splitOn]⟩

/-- A line with two blanks in a row and more words than one line holds. -/
def transferLine : LegendLine where
  name := .str "transfer"
  bits := .str "bits 30..0"
  label := some (.str "tr")
  desc := some (.str
    "Set when done.  All of the bytes that were asked for are in the buffer of the device by then.")
  indent := 1

theorem exists_wrappedAs_transferLine :
    transferLine.Spaced ∧ ∃ head first rest, transferLine.WrappedAs head first rest := by
  have hspaced : transferLine.Spaced := by
    refine ⟨⟨_, rfl⟩, ⟨_, rfl⟩, ?_, by decide, ⟨2, rfl⟩, by decide⟩
    rintro label hlabel
    exact ⟨"tr", (Option.some.inj hlabel).symm⟩
  exact ⟨hspaced, hspaced.exists_wrappedAs⟩

end LegendLine

end RegisterLayout
