import Mathlib.Data.List.TakeWhile
import RegisterLayout.Table.TextTable

/-!
# Kinds of cells

What a column takes a text for.  A character that no numeral holds makes a text a text, and so does
a letter behind a blank: of all words, only the three for infinities and the undefined value count
as numbers, and those only at the start of a cell.

Principal definitions: `Text.Form.Spares` — a form that leaves a character unread; `IsForeign`.
Principal results: `ofShown_eq_text_of_foreign`, `ofShown_eq_text_of_indented`,
`ofShown_of_initial`.
-/

namespace RegisterLayout

/-! ## Forms that leave a character unread -/

namespace Text.Form

/-- A form that never reads a character. -/
def Spares (f : Form) (c : Char) : Prop := ∀ s, c ∈ s → ∀ rest ∈ f s, c ∈ rest

variable {c : Char} {f g : Form} {p : Char → Bool}

theorem spares_char (h : p c = false) : (char p).Spares c := by
  intro s hs rest hrest
  cases s with
  | nil => cases hs
  | cons d s =>
    rw [char] at hrest
    split at hrest
    · next hd =>
      obtain rfl := List.mem_singleton.1 hrest
      rcases List.mem_cons.1 hs with rfl | hs
      · exact absurd hd (by simp [h])
      · exact hs
    · cases hrest

theorem spares_andThen (hf : f.Spares c) (hg : g.Spares c) : (andThen f g).Spares c := by
  intro s hs rest hrest
  obtain ⟨middle, hmiddle, hrest⟩ := List.mem_flatMap.1 hrest
  exact hg middle (hf s hs middle hmiddle) rest hrest

theorem spares_opt (hf : f.Spares c) : (opt f).Spares c := by
  intro s hs rest hrest
  rcases List.mem_cons.1 hrest with rfl | hrest
  · exact hs
  · exact hf s hs rest hrest

theorem spares_many (h : p c = false) : (many p).Spares c := by
  intro s hs rest hrest
  induction s with
  | nil => cases hs
  | cons d s ih =>
    unfold many at hrest
    split at hrest
    · next hd =>
      rcases List.mem_cons.1 hrest with rfl | hrest
      · exact hs
      · rcases List.mem_cons.1 hs with rfl | hs
        · exact absurd hd (by simp [h])
        · exact ih hs hrest
    · obtain rfl := List.mem_singleton.1 hrest
      exact hs

theorem spares_some1 (h : p c = false) : (some1 p).Spares c :=
  spares_andThen (spares_char h) (spares_many h)

theorem spares_any {fs : List Form} (h : ∀ f ∈ fs, Spares f c) : (any fs).Spares c := by
  intro s hs rest hrest
  obtain ⟨f, hf, hrest⟩ := List.mem_flatMap.1 hrest
  exact h f hf s hs rest hrest

theorem spares_all {fs : List Form} (h : ∀ f ∈ fs, Spares f c) : (all fs).Spares c := by
  have hfold : ∀ ends : List (List Char), (∀ s ∈ ends, c ∈ s) →
      ∀ rest ∈ fs.foldl (fun ends f => ends.flatMap f) ends, c ∈ rest := by
    induction fs with
    | nil => exact fun _ hends => hends
    | cons f fs ih =>
      obtain ⟨hf, hfs⟩ := List.forall_mem_cons.1 h
      intro ends hends
      refine ih hfs (ends.flatMap f) fun s hs => ?_
      obtain ⟨r, hr, hs⟩ := List.mem_flatMap.1 hs
      exact hf r (hends r hr) s hs
  intro s hs
  exact hfold [s] (List.forall_mem_singleton.2 hs)

theorem spares_repeated (hf : f.Spares c) (fuel : Nat) : (repeated f fuel).Spares c := by
  induction fuel with
  | zero => exact fun _ _ _ hrest => nomatch hrest
  | succ fuel ih =>
    intro s hs rest hrest
    obtain ⟨middle, hmiddle, hrest⟩ := List.mem_flatMap.1 hrest
    have hc := hf s hs middle hmiddle
    rcases List.mem_cons.1 hrest with rfl | hrest
    · exact hc
    · exact ih middle hc rest hrest

/-- A form covers no text with a character that it never reads. -/
theorem Spares.covers_eq_false (hf : f.Spares c) {s : List Char} (hs : c ∈ s) :
    f.covers s = false := by
  rw [covers, List.any_eq_false]
  intro rest hrest hempty
  have hc := hf s hs rest hrest
  rw [List.isEmpty_iff.1 hempty] at hc
  cases hc

end Text.Form

/-! ## Numbers in groups -/

namespace ColumnKind

open Text Form

variable {c : Char} {s : List Char}

theorem spares_groupedForm (hdigit : c.isDigit = false) (hc : c ∉ ['+', '-', '.', ',']) :
    groupedForm.Spares c := by
  simp only [List.mem_cons, List.not_mem_nil, or_false, not_or] at hc
  have hlit : ∀ {x : Char}, c ≠ x → (lit x).Spares c := fun hx => spares_char (by simpa using hx)
  have hsign : (char fun c => c == '+' || c == '-').Spares c :=
    spares_char (by simp [hc.1, hc.2.1])
  have hdigits : ∀ n, (digits n).Spares c := by
    intro n
    refine spares_all fun f hf => ?_
    rw [List.eq_of_mem_replicate hf]
    exact spares_char hdigit
  have hgroups : moreGroups.Spares c := fun s hs =>
    spares_opt (spares_repeated (spares_andThen (hlit hc.2.2.2) (hdigits 3)) s.length) s hs
  have hpoint := hlit hc.2.2.1
  refine spares_any (List.forall_mem_cons.2 ⟨spares_all ?_, List.forall_mem_singleton.2 ?_⟩)
  · simp only [List.forall_mem_cons]
    refine ⟨spares_opt hsign, spares_any ?_, hgroups,
      spares_opt (spares_andThen hpoint (spares_many hdigit)), fun _ hf => nomatch hf⟩
    simp only [List.forall_mem_cons]
    exact ⟨hdigits 1, hdigits 2, hdigits 3, fun _ hf => nomatch hf⟩
  · exact spares_opt (spares_andThen hpoint (spares_some1 hdigit))

theorem mem_dropFeed (hc : c ≠ '\n') (hs : c ∈ s) : c ∈ dropFeed s := by
  unfold dropFeed
  split
  · next hlast =>
    obtain ⟨init, rfl⟩ := List.getLast?_eq_some_iff.1 hlast
    rw [List.dropLast_concat]
    simpa [hc] using hs
  · exact hs

theorem isGrouped_eq_false (hdigit : c.isDigit = false) (hc : c ∉ ['+', '-', '.', ',', '\n'])
    (hs : c ∈ s) : isGrouped s = false := by
  simp only [List.mem_cons, List.not_mem_nil, or_false, not_or] at hc
  have hspares : groupedForm.Spares c := spares_groupedForm hdigit (by simp [hc])
  exact hspares.covers_eq_false (mem_dropFeed hc.2.2.2.2 hs)

end ColumnKind

/-! ## Characters that no numeral holds -/

/-- A character that is in no numeral, no grouped number and no word for a number. -/
structure IsForeign (c : Char) : Prop where
  blank : Text.isBlank c = false
  digit : Numeral.digit? 10 c = none
  ascii : c.isDigit = false
  mark : c ∉ ['+', '-', '.', ',', '_', 'e', 'E', '\n']
  word : c.toLower ∉ ['i', 'n', 'f', 't', 'y', 'a']
  truth : c ∉ ['T', 'r', 'u', 'e', 'F', 'a', 'l', 's']

theorem isForeign_colon : IsForeign ':' := by constructor <;> decide

theorem isForeign_x : IsForeign 'x' := by constructor <;> decide

namespace Text

theorem mem_dropWhile {α : Type} {p : α → Bool} {a : α} {s : List α} (ha : p a = false)
    (hs : a ∈ s) : a ∈ s.dropWhile p := by
  rw [← List.takeWhile_append_dropWhile (p := p) (l := s), List.mem_append] at hs
  rcases hs with hs | hs
  · exact absurd (List.mem_takeWhile_imp hs) (by simp [ha])
  · exact hs

theorem mem_stripChars {c : Char} {s : List Char} (hc : isBlank c = false) (hs : c ∈ s) :
    c ∈ stripChars s :=
  List.mem_reverse.2 (mem_dropWhile hc (List.mem_reverse.2 (mem_dropWhile hc hs)))

end Text

namespace Numeral

variable {c : Char} {s : List Char}

theorem mem_takeDigits {base : Nat} (hdigit : digit? base c = none) (hc : c ≠ '_') (inside : Bool)
    (hs : c ∈ s) : c ∈ (takeDigits base inside s).2 := by
  induction s generalizing inside with
  | nil => cases hs
  | cons d s ih =>
    rw [takeDigits]
    split
    · next n hd =>
      rcases List.mem_cons.1 hs with rfl | hs
      · exact absurd (hdigit.symm.trans hd) nofun
      · exact ih true hs
    · dsimp only
      split
      · next hjoins =>
        rcases List.mem_cons.1 hs with rfl | hs
        · simp [hc] at hjoins
        · exact ih false hs
      · exact hs

theorem mem_takeSign (hc : c ∉ ['+', '-']) (hs : c ∈ s) : c ∈ (takeSign s).2 := by
  unfold takeSign
  split
  · rcases List.mem_cons.1 hs with rfl | hs
    · simp at hc
    · exact hs
  · rcases List.mem_cons.1 hs with rfl | hs
    · simp at hc
    · exact hs
  · exact hs

theorem dropBaseMark_ten (s : List Char) : dropBaseMark 10 s = s := by
  unfold dropBaseMark
  split
  · simp
  · rfl

theorem readInt?_of_rest {s : List Char}
    (h : (takeDigits 10 false (takeSign (Text.stripChars s)).2).2 ≠ []) : readInt? 10 s = none := by
  have hrest : (takeDigits 10 false (takeSign (Text.stripChars s)).2).2.isEmpty = false := by
    simpa using h
  unfold readInt? readDigits?
  simp [dropBaseMark_ten, hrest]

theorem readInt?_of_foreign (hc : IsForeign c) (hs : c ∈ s) : readInt? 10 s = none := by
  have hmark := hc.mark
  simp only [List.mem_cons, List.not_mem_nil, or_false, not_or] at hmark
  have hsigned := mem_takeSign (by simp [hmark]) (Text.mem_stripChars hc.blank hs)
  exact readInt?_of_rest
    (List.ne_nil_of_mem (mem_takeDigits hc.digit hmark.2.2.2.2.1 false hsigned))

theorem readExponent?_of_foreign (hc : IsForeign c) (hs : c ∈ s) : readExponent? s = none := by
  have hmark := hc.mark
  simp only [List.mem_cons, List.not_mem_nil, or_false, not_or] at hmark
  unfold readExponent?
  split
  · cases hs
  · next mark rest =>
    split
    · next he =>
      have hrest : c ∈ rest := by
        rcases List.mem_cons.1 hs with rfl | hs
        · simp [hmark] at he
        · exact hs
      have hmem := mem_takeDigits hc.digit hmark.2.2.2.2.1 false
        (mem_takeSign (by simp [hmark]) hrest)
      have hne : (takeDigits 10 false (takeSign rest).2).2.isEmpty = false := by
        simpa using List.ne_nil_of_mem hmem
      simp [hne]
    · rfl

theorem readSpecial?_of_foreign (hc : IsForeign c) (negative : Bool) (hs : c ∈ s) :
    readSpecial? negative s = none := by
  have hlower := List.mem_map_of_mem (f := Char.toLower) hs
  have hword := hc.word
  simp only [List.mem_cons, List.not_mem_nil, or_false, not_or] at hword
  have hne : ∀ w : String, c.toLower ∉ w.toList → String.ofList (s.map Char.toLower) ≠ w := by
    rintro w hw rfl
    rw [String.toList_ofList] at hw
    exact hw hlower
  unfold readSpecial?
  dsimp only
  rw [if_neg, if_neg]
  · exact hne _ (by simp [hword])
  · exact not_or.2 ⟨hne _ (by simp [hword]), hne _ (by simp [hword])⟩

theorem readReal?_of_foreign (hc : IsForeign c) (hs : c ∈ s) : readReal? s = none := by
  have hmark := hc.mark
  simp only [List.mem_cons, List.not_mem_nil, or_false, not_or] at hmark
  have hsigned := mem_takeSign (by simp [hmark]) (Text.mem_stripChars hc.blank hs)
  have hrest := mem_takeDigits hc.digit hmark.2.2.2.2.1 false hsigned
  unfold readReal?
  generalize takeSign (Text.stripChars s) = sign at hsigned hrest ⊢
  obtain ⟨negative, signed⟩ := sign
  dsimp only at hsigned hrest ⊢
  generalize takeDigits 10 false signed = first at hrest ⊢
  obtain ⟨whole, rest⟩ := first
  dsimp only at hrest ⊢
  have hend : ∀ (fraction : List Nat) (rest : List Char), c ∈ rest →
      (if whole.isEmpty && fraction.isEmpty then readSpecial? negative signed
        else (readExponent? rest).map fun e =>
          Binary64.ofDecimal negative (ofDigits 10 (whole ++ fraction)) (e - fraction.length))
        = none := by
    intro fraction rest hrest
    rw [readSpecial?_of_foreign hc negative hsigned, readExponent?_of_foreign hc hrest]
    simp
  split
  · next fractional =>
    have hfractional : c ∈ fractional := by
      rcases List.mem_cons.1 hrest with rfl | hs
      · simp at hmark
      · exact hs
    exact hend _ _ (mem_takeDigits hc.digit hmark.2.2.2.2.1 false hfractional)
  · exact hend [] _ hrest

end Numeral

/-! ## Words -/

/-- A character at which a name can begin. -/
def IsInitial (c : Char) : Prop := c.isAlpha ∨ c = '_'

/-- A property of characters that is decided for all of the first 128. -/
theorem forall_ascii {P : Char → Prop} (h : ∀ n < 128, P (Char.ofNat n)) {c : Char}
    (hc : c.toNat < 128) : P c := by
  have hchar := h c.toNat hc
  rwa [Char.ofNat_toNat] at hchar

theorem toNat_lt_of_isAlphanum {c : Char} (h : c.isAlphanum) : c.toNat < 128 := by
  delta Char.isAlphanum Char.isAlpha Char.isUpper Char.isLower Char.isDigit at h
  simp only [Bool.or_eq_true, Bool.and_eq_true, decide_eq_true_eq, UInt32.le_iff_toNat_le] at h
  have hval : c.toNat = c.val.toNat := rfl
  have hupper : 'Z'.val.toNat = 90 := rfl
  have hlower : 'z'.val.toNat = 122 := rfl
  have hdigit : '9'.val.toNat = 57 := rfl
  omega

theorem IsInitial.ascii {c : Char} (h : IsInitial c) : c.toNat < 128 := by
  rcases h with h | rfl
  · exact toNat_lt_of_isAlphanum (by simp [Char.isAlphanum, h])
  · decide

/-- A character that is no beginning of a numeral, and no part of a number in groups. -/
def BeginsNoNumeral (c : Char) : Prop :=
  Text.isBlank c = false ∧ Numeral.digit? 10 c = none ∧ c.isDigit = false ∧
    c ∉ ['+', '-', '.', ',', '\n']

theorem IsInitial.beginsNoNumeral {c : Char} (h : IsInitial c) : BeginsNoNumeral c := by
  have hall : ∀ n < 128, (Char.ofNat n).isAlpha = true ∨ Char.ofNat n = '_' →
      BeginsNoNumeral (Char.ofNat n) := by
    unfold BeginsNoNumeral
    decide +kernel
  exact forall_ascii (P := fun c => c.isAlpha = true ∨ c = '_' → BeginsNoNumeral c) hall h.ascii h

theorem stripChars_of_initial {before rest : List Char} {c : Char}
    (hbefore : ∀ b ∈ before, Text.isBlank b = true) (hc : Text.isBlank c = false) :
    ∃ more, Text.stripChars (before ++ c :: rest) = c :: more := by
  have hdrop : (before ++ c :: rest).dropWhile Text.isBlank = c :: rest := by
    rw [List.dropWhile_append, List.dropWhile_eq_nil_iff.2 hbefore]
    simp [hc]
  rw [Text.stripChars, hdrop, Text.dropRight, List.reverse_cons, List.dropWhile_append]
  split
  · exact ⟨[], by simp [hc]⟩
  · exact ⟨_, by rw [List.reverse_append]; rfl⟩

namespace Numeral

variable {before rest : List Char} {c : Char}

/-- A text that begins with a letter has no sign and no digits. -/
theorem takeSign_of_initial (hc : IsInitial c) (more : List Char) :
    takeSign (c :: more) = (false, c :: more) := by
  have hmark := hc.beginsNoNumeral.2.2.2
  simp only [List.mem_cons, List.not_mem_nil, or_false, not_or] at hmark
  unfold takeSign
  split
  · next h => exact absurd (List.cons.inj h).1 hmark.2.1
  · next h => exact absurd (List.cons.inj h).1 hmark.1
  · rfl

theorem takeDigits_of_initial (hc : IsInitial c) (more : List Char) :
    takeDigits 10 false (c :: more) = ([], c :: more) := by
  rw [takeDigits]
  simp [hc.beginsNoNumeral.2.1]

theorem readInt?_of_initial (hbefore : ∀ b ∈ before, Text.isBlank b = true) (hc : IsInitial c) :
    readInt? 10 (before ++ c :: rest) = none := by
  obtain ⟨more, hmore⟩ := @stripChars_of_initial before rest c hbefore hc.beginsNoNumeral.1
  refine readInt?_of_rest ?_
  rw [hmore, takeSign_of_initial hc, takeDigits_of_initial hc]
  exact List.cons_ne_nil _ _

theorem readReal?_of_initial (hbefore : ∀ b ∈ before, Text.isBlank b = true) (hc : IsInitial c) :
    readReal? (before ++ c :: rest)
      = readSpecial? false (Text.stripChars (before ++ c :: rest)) := by
  obtain ⟨more, hmore⟩ := @stripChars_of_initial before rest c hbefore hc.beginsNoNumeral.1
  have hmark := hc.beginsNoNumeral.2.2.2
  simp only [List.mem_cons, List.not_mem_nil, or_false, not_or] at hmark
  unfold readReal?
  rw [hmore, takeSign_of_initial hc]
  dsimp only
  rw [takeDigits_of_initial hc]
  simp [hmark]

/-- The words for numbers stand for none that is finite. -/
theorem toRat?_of_readSpecial? {negative : Bool} {s : List Char} {x : Binary64}
    (h : readSpecial? negative s = some x) : x.toRat? = none := by
  unfold readSpecial? at h
  dsimp only at h
  split at h
  · exact Option.some.inj h ▸ rfl
  · split at h
    · exact Option.some.inj h ▸ rfl
    · cases h

end Numeral

/-! ## Escapes -/

namespace Text

theorem behind?_eq_none {a c : CodePoint} {start rest : Text} (h : a ≠ c) :
    behind? (a :: start) (c :: rest) = none := by
  simp [behind?, List.isPrefixOf, h]

theorem escape?_eq_none {c : CodePoint} {rest : Text} (h : c ≠ escapeMark) :
    escape? (c :: rest) = none := by
  have hcontrol : behind? "\x1b[" (c :: rest) = none := behind?_eq_none h.symm
  have hlink : behind? "\x1b]8;" (c :: rest) = none := behind?_eq_none h.symm
  rw [escape?, hcontrol]
  dsimp only
  rw [hlink]
  rfl

/-- A text without the mark of an escape is shown as it is. -/
theorem stripEscapes_eq_self {s : Text} (h : escapeMark ∉ s) : stripEscapes s = s := by
  have hstrip : ∀ (fuel : Nat) (s : Text), escapeMark ∉ s → stripFrom fuel s = s := by
    intro fuel
    induction fuel with
    | zero => exact fun _ _ => rfl
    | succ fuel ih =>
      intro s hs
      cases s with
      | nil => rfl
      | cons c rest =>
        obtain ⟨hc, hrest⟩ := not_or.1 (List.mem_cons.not.1 hs)
        rw [stripFrom]
        simp only [escape?_eq_none (Ne.symm hc)]
        rw [ih rest hrest]
  exact hstrip s.length s h

theorem hasEscape_eq_false {s : Text} (h : escapeMark ∉ s) : hasEscape s = false := by
  induction s with
  | nil => rfl
  | cons c rest ih =>
    obtain ⟨hc, hrest⟩ := not_or.1 (List.mem_cons.not.1 h)
    rw [hasEscape, escape?_eq_none (Ne.symm hc), ih hrest]
    rfl

end Text

/-! ## Kinds of texts -/

namespace ColumnKind

open Numeral

variable {cs before rest : List Char} {c : Char}

theorem ofChars_eq_iff {cs : List Char} {w : String} :
    Text.ofChars cs = (w : Text) ↔ cs = w.toList := by
  constructor
  · intro h
    have hchars := congrArg Text.chars? h
    rw [Text.ofString, Text.chars?_ofChars, Text.chars?_ofChars] at hchars
    exact Option.some.inj hchars
  · rintro rfl
    rfl

/-- A text that reads as no whole number is a number or a text. -/
theorem ofShown_of_unread (hne : cs ≠ [])
    (htruth : cs ≠ "True".toList ∧ cs ≠ "False".toList) (hint : readInt? 10 cs = none)
    (hgroup : isGrouped cs = false) :
    ofShown (Text.ofChars cs) = if isReal cs then .real else .text := by
  have hempty : (Text.ofChars cs).isEmpty = false := by
    simpa [Text.ofChars] using hne
  have hwords : ¬(Text.ofChars cs = Text.ofString "True" ∨
      Text.ofChars cs = Text.ofString "False") := by
    rw [ofChars_eq_iff, ofChars_eq_iff]
    exact not_or.2 htruth
  unfold ofShown
  rw [hempty, if_neg Bool.false_ne_true, if_neg hwords, Text.chars?_ofChars]
  simp [hint, hgroup]

/-- **A text with a character that is in no numeral is a text.** -/
theorem ofShown_eq_text_of_foreign (hc : IsForeign c) (hs : c ∈ cs) :
    ofShown (Text.ofChars cs) = .text := by
  have hmark := hc.mark
  have htruth := hc.truth
  simp only [List.mem_cons, List.not_mem_nil, or_false, not_or] at hmark htruth
  have hwords : cs ≠ "True".toList ∧ cs ≠ "False".toList := by
    constructor
    · rintro rfl
      simp [htruth] at hs
    · rintro rfl
      simp [htruth] at hs
  have hgroup := isGrouped_eq_false hc.ascii (by simp [hmark]) hs
  have hreal : isReal cs = false := by rw [isReal, readReal?_of_foreign hc hs]
  rw [ofShown_of_unread (List.ne_nil_of_mem hs) hwords (readInt?_of_foreign hc hs) hgroup, hreal]
  rfl

/-- **A name behind blanks is a text**, whatever name it is. -/
theorem ofShown_eq_text_of_indented (hbefore : ∀ b ∈ before, Text.isBlank b = true)
    (hc : IsInitial c) :
    ofShown (Text.ofChars (' ' :: before ++ c :: rest)) = .text := by
  have hblanks : ∀ b ∈ ' ' :: before, Text.isBlank b = true :=
    List.forall_mem_cons.2 ⟨Text.isBlank_space, hbefore⟩
  have hgroup : isGrouped (' ' :: before ++ c :: rest) = false :=
    isGrouped_eq_false (c := ' ') (by decide) (by decide) List.mem_cons_self
  have hreal : isReal (' ' :: before ++ c :: rest) = false := by
    unfold isReal
    rw [readReal?_of_initial hblanks hc]
    split
    · rfl
    · next x hx =>
      have hword : ∀ w : String, w.toList.head? ≠ some ' ' →
          String.ofList ((' ' :: before ++ c :: rest).map Char.toLower) ≠ w := by
        rintro w hw rfl
        rw [String.toList_ofList] at hw
        exact hw rfl
      rw [toRat?_of_readSpecial? hx, Option.isSome_none, Bool.false_or, decide_eq_false_iff_not]
      simp only [List.mem_cons, List.not_mem_nil, or_false, not_or]
      exact ⟨hword _ (by decide), hword _ (by decide), hword _ (by decide)⟩
  have hwords : ' ' :: before ++ c :: rest ≠ "True".toList ∧
      ' ' :: before ++ c :: rest ≠ "False".toList := by
    constructor
    · exact fun h => absurd (List.cons.inj h).1 (by decide)
    · exact fun h => absurd (List.cons.inj h).1 (by decide)
  have hint : readInt? 10 (' ' :: before ++ c :: rest) = none :=
    @readInt?_of_initial (' ' :: before) rest c hblanks hc
  have hne : ' ' :: before ++ c :: rest ≠ [] := List.cons_ne_nil _ _
  rw [ofShown_of_unread hne hwords hint hgroup, hreal]
  rfl

/-- **A text that begins with a letter is a word for a truth value, a word for a number, or a
text.** -/
theorem ofShown_of_initial (hc : IsInitial c) :
    ofShown (Text.ofChars (c :: rest))
      = if c :: rest = "True".toList ∨ c :: rest = "False".toList then .truth
        else if isReal (c :: rest) then .real else .text := by
  have hunlike := hc.beginsNoNumeral
  have hgroup : isGrouped (c :: rest) = false :=
    isGrouped_eq_false hunlike.2.2.1 hunlike.2.2.2 List.mem_cons_self
  have hint : readInt? 10 (c :: rest) = none :=
    @readInt?_of_initial [] rest c (List.forall_mem_nil _) hc
  split
  · next hwords =>
    rcases hwords with heq | heq
    · rw [heq]
      rfl
    · rw [heq]
      rfl
  · next hwords => exact ofShown_of_unread (List.cons_ne_nil _ _) (not_or.1 hwords) hint hgroup

/-- What counts as a number among names can be read as one. -/
theorem readReal?_of_ofShown (hc : IsInitial c)
    (h : ofShown (Text.ofChars (c :: rest)) = .real) : ∃ x, readReal? (c :: rest) = some x := by
  cases hread : readReal? (c :: rest) with
  | some x => exact ⟨x, rfl⟩
  | none =>
    have hreal : isReal (c :: rest) = false := by rw [isReal, hread]
    rw [ofShown_of_initial hc, hreal] at h
    split at h
    · cases h
    · cases h

end ColumnKind

end RegisterLayout
