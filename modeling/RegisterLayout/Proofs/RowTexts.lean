import RegisterLayout.Proofs.AlignmentClass
import RegisterLayout.Proofs.Identifiers
import RegisterLayout.Proofs.TableLines
import RegisterLayout.Proofs.Undeclared

/-!
# Texts in rows

The rows of an accepted tree without line feeds in its names are made of printed characters: the
names in them are identifiers, and what is besides the names is whole numbers, the bits of items
and the names of kinds.  Of all these cells only those of names can count as numbers with
fractions, and of the names only two words can.

Principal definitions: `Text.IsNumberWord`, `Field.Unbroken`, `Row.Tabular`.
Principal results: `ColumnKind.ofCell_of_isIdentifier`, `Field.isIdentifier_of_resolve`,
`Row.Shows.tabular`.
-/

namespace RegisterLayout

/-! ## Printed texts -/

theorem isPrinted_of_ascii {c : Char} (h : IsNumeralChar c ∨ c = '_') :
    (CodePoint.char c).isPrinted = true := by
  have hascii : c.toNat < 128 := by
    rcases h with (h | h) | rfl
    · exact toNat_lt_of_isAlphanum h
    · simp only [List.mem_cons, List.not_mem_nil, or_false] at h
      rcases h with rfl | rfl | rfl <;> decide
    · decide
  refine forall_ascii (P := fun c => IsNumeralChar c ∨ c = '_' →
    (CodePoint.char c).isPrinted = true) ?_ hascii h
  decide +kernel

theorem isPrinted_ofString {s : String} (h : IsNumeralText s) : (Text.ofString s).IsPrinted :=
  List.forall_mem_map.2 fun c hc => isPrinted_of_ascii (.inl (h c hc))

namespace Text

variable {s : Text}

theorem IsIdentifier.isPrinted (h : s.IsIdentifier) : s.IsPrinted := by
  intro c hc
  have hword := (isIdentifier_iff.1 h).1 c hc
  cases c with
  | char c => exact isPrinted_of_ascii ((isWord_char_iff.1 hword).imp_left .inl)
  | surrogate i => cases hword

theorem IsIdentifier.isNodeName (h : s.IsIdentifier) : s.IsNodeName := by
  obtain ⟨c, rest, hc, hrest, rfl⟩ := h
  exact ⟨c, rest, hc, fun d hd => (hrest d hd).imp_right .inl, rfl⟩

/-- Identifiers joined by underscores are one. -/
theorem IsIdentifier.joined {parts : List Text} (hne : parts ≠ [])
    (h : ∀ s ∈ parts, s.IsIdentifier) : (Path.joined parts).IsIdentifier := by
  have hname : (Path.joined parts).IsNodeName := .joined hne fun s hs => (h s hs).isNodeName
  refine hname.isIdentifier_iff.2 fun hmem => ?_
  refine forall_mem_joined (P := (· ≠ lineFeed)) (by decide) (fun s hs c hc => ?_) _ hmem rfl
  rintro rfl
  exact (h s hs).isNodeName.isIdentifier_iff.1 (h s hs) hc

theorem stripChars_eq_self {cs : List Char} (h : ∀ c ∈ cs, isBlank c = false) :
    stripChars cs = cs := by
  have hkeep : ∀ cs : List Char, (∀ c ∈ cs, isBlank c = false) →
      cs.dropWhile isBlank = cs := by
    intro cs hcs
    rw [List.dropWhile_eq_self_iff]
    exact fun hpos => by simp [hcs _ (List.getElem_mem hpos)]
  rw [stripChars, hkeep cs h, dropRight,
    hkeep cs.reverse fun c hc => h c (List.mem_reverse.1 hc), List.reverse_reverse]

theorem isBlank_of_word {c : Char} (h : c.isAlphanum ∨ c = '_') : isBlank c = false := by
  have hascii : c.toNat < 128 := IsFurther.ascii (h.imp_right .inl)
  refine forall_ascii (P := fun c => c.isAlphanum ∨ c = '_' → isBlank c = false) ?_ hascii h
  decide +kernel

end Text

/-! ## Names that count as numbers -/

/-- The words for infinity and for the undefined value. -/
def numberWords : List String := ["inf", "nan"]

/-- One of the words for numbers, in any case. -/
def Text.IsNumberWord (s : Text) : Prop :=
  s.satisfies (fun cs => decide (String.ofList (cs.map Char.toLower) ∈ numberWords)) = true

instance (s : Text) : Decidable s.IsNumberWord := inferInstanceAs (Decidable (_ = true))

namespace ColumnKind

variable {c : Char} {rest : List Char}

/-- A word is read as one of those for numbers or not at all. -/
theorem readReal?_of_word (hc : IsInitial c) (hrest : ∀ d ∈ rest, d.isAlphanum ∨ d = '_') :
    Numeral.readReal? (c :: rest) = Numeral.readSpecial? false (c :: rest) := by
  have hread := @Numeral.readReal?_of_initial [] rest c (List.forall_mem_nil _) hc
  have hstrip := Text.stripChars_eq_self
    (List.forall_mem_cons.2 ⟨hc.beginsNoNumeral.1, fun d hd => Text.isBlank_of_word (hrest d hd)⟩)
  rwa [List.nil_append, hstrip] at hread

/-- Two words are numbers among the texts that begin with a letter. -/
theorem isReal_of_initial (hc : IsInitial c) (hrest : ∀ d ∈ rest, d.isAlphanum ∨ d = '_') :
    isReal (c :: rest)
      = decide (String.ofList ((c :: rest).map Char.toLower) ∈ numberWords) := by
  rw [isReal, readReal?_of_word hc hrest, Numeral.readSpecial?]
  generalize String.ofList ((c :: rest).map Char.toLower) = word
  by_cases hinf : word = "inf"
  · subst hinf
    rfl
  · by_cases hlong : word = "infinity"
    · subst hlong
      rfl
    · by_cases hnan : word = "nan"
      · subst hnan
        rfl
      · simp [hinf, hlong, hnan, numberWords]

/-- What an identifier counts as. -/
theorem ofCell_of_isIdentifier {s : Text} (hs : s.IsIdentifier) :
    ofCell (.str s) = .truth ∧ ¬s.IsNumberWord ∨
      ofCell (.str s) = if s.IsNumberWord then .real else .text := by
  rw [ofCell, hs.isNodeName.stripEscapes]
  obtain ⟨c, rest, hc, hrest, rfl⟩ := hs
  rw [ofShown_of_initial hc, isReal_of_initial hc hrest]
  split
  · next hwords =>
    left
    rcases hwords with heq | heq
    · rw [heq]
      decide
    · rw [heq]
      decide
  · right
    simp only [Text.IsNumberWord, Text.satisfies, Text.chars?_ofChars, Option.map_some,
      Option.getD_some]

/-- A word that counts as a number is set as one, in small letters. -/
theorem cellText_of_isNumberWord {s : Text} (hs : s.IsIdentifier) (hword : s.IsNumberWord) :
    ∃ word ∈ numberWords, cellText false .real (.str s) = .ok (word : String) := by
  have hcommas := hs.isNodeName.filter_commas
  obtain ⟨c, rest, hc, hrest, rfl⟩ := hs
  simp only [Text.IsNumberWord, Text.satisfies, Text.chars?_ofChars, Option.map_some,
    Option.getD_some, decide_eq_true_eq] at hword
  have htext : cellText false .real (.str (Text.ofChars (c :: rest)))
      = realText false (Text.ofChars (c :: rest)) := rfl
  refine ⟨_, hword, ?_⟩
  rw [htext, realText, if_neg Bool.false_ne_true, hcommas, realFrom, Text.chars?_ofChars,
    Option.bind_some, readReal?_of_word hc hrest, Numeral.readSpecial?]
  generalize String.ofList ((c :: rest).map Char.toLower) = word at hword ⊢
  simp only [numberWords, List.mem_cons, List.not_mem_nil, or_false] at hword
  rcases hword with rfl | rfl
  · rfl
  · rfl

end ColumnKind

/-! ## Names without line feeds -/

/-- The texts among the names of a node have no line feed. -/
def Header.Unbroken (h : Header) : Prop :=
  ∀ s, h.name = some (.str s) ∨ h.shortName = some (.str s) → lineFeed ∉ s

instance (h : Header) : Decidable h.Unbroken :=
  decidable_of_iff (∀ v ∈ h.name.toList ++ h.shortName.toList, v.IsText → lineFeed ∉ v.text) (by
    simp only [List.mem_append, Option.mem_toList]
    constructor
    · exact fun hall s hs => hall (.str s) hs ⟨s, rfl⟩
    · rintro hall v hv ⟨s, rfl⟩
      exact hall s hv)

theorem Header.isIdentifier_labelText {h : Header} (hs : h.Spelled) (hu : h.Unbroken)
    (hlabel : h.label? = some (.str h.labelText)) : h.labelText.IsIdentifier := by
  have hgiven : h.name = some (.str h.labelText) ∨ h.shortName = some (.str h.labelText) := by
    unfold label? at hlabel
    cases hshort : filled? h.shortName with
    | some short =>
      rw [hshort] at hlabel
      exact .inr ((Option.filter_eq_some_iff.1 hshort).1.trans hlabel)
    | none =>
      rw [hshort] at hlabel
      exact .inl hlabel
  exact (Text.IsNodeName.isName (hs _ hgiven)).isIdentifier_iff.2 (hu _ hgiven)

/-- **A name is an identifier if the names on the way to it are.** -/
theorem Visit.NamedByRule.isIdentifier {v : Visit} (hv : v.NamedByRule)
    (hend : ∃ (way : Trail) (k : Nat), v.trail = way ++ [(v.node.header, k)])
    (hway : ∀ p ∈ v.trail, p.1.Spelled ∧ p.1.Unbroken) : v.node.fullName.IsIdentifier := by
  have hlabels : ∀ p ∈ v.trail, p.1.IsNamed → p.1.labelText.IsIdentifier := fun p hp hnamed =>
    Header.isIdentifier_labelText (hway p hp).1 (hway p hp).2 (hv.label p hp hnamed)
  obtain ⟨way, k, htrail⟩ := hend
  by_cases hnamed : v.node.header.IsNamed
  · rw [Field.fullName, hv.named hnamed, Option.getD_some]
    refine .joined ?_ fun s hs => ?_
    · rw [htrail]
      simp [Trail.labels, hnamed]
    · obtain ⟨p, hp, hlabel⟩ := List.mem_filterMap.1 hs
      split at hlabel
      · next hp' => exact Option.some.inj hlabel ▸ hlabels p hp hp'
      · cases hlabel
  · rw [Field.fullName, hv.unnamed hnamed, Option.getD_some]
    refine .joined ?_ fun s hs => ?_
    · rw [htrail]
      simp [Trail.components]
    · obtain ⟨p, hp, rfl⟩ := List.mem_map.1 hs
      split
      · next hp' => exact hlabels p hp hp'
      · exact isIdentifier_numberedName (by decide) p.2

namespace Field

/-- A tree whose names have no line feeds. -/
def Unbroken (f : Field) : Prop := ∀ g ∈ f.nodes, ∀ h ∈ g.ownHeaders, h.Unbroken

instance (f : Field) : Decidable f.Unbroken :=
  inferInstanceAs (Decidable (∀ g ∈ f.nodes, ∀ h ∈ g.ownHeaders, h.Unbroken))

/-- What is known of all headers of a tree is known of those on the ways through it. -/
theorem forall_mem_trail {P : Header → Prop} {f : Field} {above : Trail} {index : Nat}
    (habove : ∀ p ∈ above, P p.1) (hf : ∀ g ∈ f.nodes, ∀ h ∈ g.ownHeaders, P h) :
    ∀ v ∈ f.walk above index, ∀ p ∈ v.trail, P p.1 := by
  induction f using inductionOnChildren generalizing above index with
  | node f ih =>
    obtain ⟨hown, hbelow⟩ := forall_mem_nodes.1 hf
    have hheader : P f.header := hown _ (by cases f <;> exact List.mem_cons_self)
    have htrail : ∀ p ∈ above ++ [(f.header, index)], P p.1 :=
      List.forall_mem_append.2 ⟨habove, List.forall_mem_singleton.2 hheader⟩
    refine forall_mem_walk.2 ⟨htrail, ?_, fun k c hk => ?_⟩
    · rintro b rfl k i hk
      refine List.forall_mem_append.2 ⟨htrail, List.forall_mem_singleton.2 (hown _ ?_)⟩
      exact List.mem_cons_of_mem _ (List.mem_map_of_mem (List.mem_of_getElem? hk))
    · have hc := List.mem_of_getElem? hk
      exact ih c hc htrail (hbelow c hc)

section

variable {raw root : Field}

/-- **The full names in an accepted tree of spelled names without line feeds are identifiers.** -/
theorem isIdentifier_of_resolve (hspelled : raw.Spelled) (hunbroken : raw.Unbroken)
    (h : raw.resolve = .ok root) : ∀ v ∈ root.visits, v.node.fullName.IsIdentifier := by
  have hheaders : ∀ g ∈ root.nodes, ∀ h ∈ g.ownHeaders, h.Spelled ∧ h.Unbroken :=
    forall_headers_of_resolve (P := fun h => h.Spelled ∧ h.Unbroken) (fun _ => Iff.rfl)
      (fun g hg h hh => ⟨hspelled g hg h hh, hunbroken g hg h hh⟩) h
  intro v hv
  have hnamed : v.NamedByRule := (resolve_eq_ok h).1.namedByRule rfl (List.forall_mem_nil _) v hv
  exact hnamed.isIdentifier (exists_way v hv)
    (forall_mem_trail (P := fun h => h.Spelled ∧ h.Unbroken) (List.forall_mem_nil _) hheaders v hv)

end

end Field

/-! ## Rows -/

theorem isPrinted_append_ofString {s t : String} (hs : (Text.ofString s).IsPrinted)
    (ht : (Text.ofString t).IsPrinted) : (Text.ofString (s ++ t)).IsPrinted := by
  rw [Text.ofString, String.toList_append, Text.ofChars_append]
  exact Text.isPrinted_append.2 ⟨hs, ht⟩

theorem isNumeralText_hexText (n : Nat) : IsNumeralText (Number.hexText n) := by
  intro c hc
  rw [Number.hexText, String.toList_ofList] at hc
  exact .inl (forall_mem_toDigits_sixteen n c hc)

theorem isPrinted_of_hexText {n : Int} {s : Text} (h : hexText (.int n) = .ok s) :
    s.IsPrinted := by
  obtain rfl := Except.ok.inj h
  have hmark : IsNumeralText (if n < 0 then "-" else "") := by split <;> decide
  exact isPrinted_ofString
    ((((by decide : IsNumeralText "0x").append hmark)).append (isNumeralText_hexText n.natAbs))

namespace Item

theorem isPrinted_rangeText (i : Item) : i.rangeText.IsPrinted := by
  have hnumber : ∀ n : Int, (Text.ofString (toString n)).IsPrinted :=
    fun n => isPrinted_ofString (Number.int n).isNumeralText_text
  unfold rangeText
  split
  · exact hnumber i.low
  · exact isPrinted_append_ofString
      (isPrinted_append_ofString (hnumber i.high) (by decide)) (hnumber i.low)

theorem isPrinted_maskText (i : Item) : i.maskText.IsPrinted :=
  isPrinted_ofString ((by decide : IsNumeralText "0x").append (isNumeralText_hexText _))

end Item

/-- A node whose row has printed texts and whole numbers only, besides its name. -/
structure Field.Tabular (f : Field) : Prop where
  offset : ∃ start, f.header.StandsAt start
  size : ∃ n, f.sizeBits = .ok (.int n)
  align : ∃ a, f.header.AlignedTo a ∧ (Value.int a).isWritable = true
  bits : ∀ s ∈ [f.bitTexts.1, f.bitTexts.2], s.IsPrinted ∧ ColumnKind.ofCell (.str s) ≠ .real

theorem IsAlignmentOf.isWritable {a n : Int} (h : IsAlignmentOf a n) :
    (Value.int a).isWritable = true := by
  have hpos : 0 ≤ a := by
    obtain ⟨k, rfl⟩ := h.power
    exact pow_nonneg (by decide) k
  rw [Value.isWritable_num]
  exact isWritable_of_le (by omega) h.le

namespace Field

section

variable {raw root : Field}

theorem tabular_of_resolve (hwhole : raw.SizesWhole) (h : raw.resolve = .ok root) :
    ∀ v ∈ root.visits, v.node.Tabular := by
  have hlaidOut := laidOut_of_resolve hwhole h
  have haligned := alignedAt_of_resolve hwhole h
  have hshares := sharesBits_of_resolve hwhole h
  refine forall_mem_walk_node.2 ⟨fun g hg => ?_, fun b hb i hi => ?_⟩
  · obtain ⟨start, hstands⟩ := hlaidOut g hg
    obtain ⟨_, a, halign⟩ := haligned g hg
    have hbits : g.bitTexts = ([], []) := by
      cases g with
      | stray i => exact absurd rfl ((hshares _ hg).noItem i)
      | _ => rfl
    refine ⟨⟨start, hstands.offset⟩, ⟨_, hstands.size⟩,
      ⟨a, halign.align, halign.largest.isWritable⟩, ?_⟩
    rw [hbits]
    decide
  · have hmem := mem_bitFields.1 hb
    obtain ⟨start, hstands⟩ := hlaidOut _ hmem
    obtain ⟨_, a, halign⟩ := haligned _ hmem
    obtain ⟨⟨m, hm, hword⟩, hchecked⟩ := (checked_of_resolve hwhole h _ hmem).bitfield b rfl
    obtain ⟨⟨n, hn, -⟩, -⟩ := hchecked i hi
    obtain ⟨b', width, hwidth, hpartition⟩ := (hshares _ hmem).partition b rfl
    have hbits : ∀ bit ∈ i.bitIndices, 0 ≤ bit ∧ bit < 64 := by
      intro bit hbit
      obtain ⟨hlow, hhigh⟩ := (hpartition.cover bit).1 ⟨i, hi, hbit⟩
      obtain rfl : m = width := Number.int.inj (Value.num.inj (hword.symm.trans hwidth))
      exact ⟨hlow, Int.lt_of_lt_of_le hhigh (mem_wordWidths_bounds hm).2⟩
    have hne := hpartition.nonempty i hi
    obtain ⟨range, mask, htexts, hrange, hmask⟩ := bitTexts_eq_ok hne hbits
    rw [Item.bitTexts_of_nonneg hne fun bit hbit => (hbits bit hbit).1] at htexts
    obtain ⟨rfl, rfl⟩ := Prod.mk.inj (Except.ok.inj htexts)
    refine ⟨⟨start, hstands.items b rfl i hi⟩, ⟨n, congrArg Except.ok hn⟩,
      ⟨a, (halign.items b rfl i hi).2, halign.largest.isWritable⟩, ?_⟩
    rw [List.forall_mem_cons, List.forall_mem_singleton]
    exact ⟨⟨i.isPrinted_rangeText, hrange⟩, i.isPrinted_maskText, hmask⟩

end

end Field

/-- The full name of a visited node behind two blanks for every level above it. -/
def Visit.indentedName (v : Visit) : Text := Text.blanks (2 * v.depth) ++ v.node.fullName

/-- A row that shows a visited node in printed texts, of which only the name can count as a number
with a fraction, and in numbers that can be written if the size can. -/
structure Row.Tabular (r : Row) (v : Visit) : Prop where
  name : r.cells[0]? = some (.str v.indentedName)
  kind : r.cells[1]? = some (.str v.node.kindName)
  printed : ∀ cell ∈ r.cells, cell.text.IsPrinted
  unreal : ∀ cell ∈ r.cells.tail, ColumnKind.ofCell cell ≠ .real
  writable : (∀ cell ∈ r.cells, cell.isWritable = true) ↔
    ∀ size, v.node.sizeBits = .ok size → size.isWritable = true

theorem Field.isPrinted_kindName (f : Field) : (Text.ofString f.kindName).IsPrinted :=
  (by decide : ∀ kind ∈ kindNames, (Text.ofString kind).IsPrinted) f.kindName f.kindName_mem

/-- **The row of a visited node is tabular if the node is and has an identifier for its name.** -/
theorem Row.Shows.tabular {r : Row} {v : Visit} (h : r.Shows v)
    (hname : v.node.fullName.IsIdentifier) (ht : v.node.Tabular) : r.Tabular v := by
  obtain ⟨start, hstart, hoffset⟩ := h.offset
  obtain ⟨start', hstart'⟩ := ht.offset
  obtain ⟨n, hn⟩ := ht.size
  obtain ⟨a, ha, hwritable⟩ := ht.align
  obtain rfl := Option.some.inj (hstart.symm.trans hstart')
  obtain ⟨offset, hoffset', hunreal⟩ := hexText_int start'
  obtain rfl := Except.ok.inj (hoffset.symm.trans hoffset')
  have hsize : r.bits = .int n := Except.ok.inj (h.size.symm.trans hn)
  have halign : r.align = some (.int a) := h.align.trans ha
  obtain ⟨hrange, hmask⟩ := Prod.mk.inj h.bits
  have hcells : r.cells = [.str v.indentedName, .str v.node.kindName, .str r.offset, .int n, .int a,
      .str v.node.bitTexts.1, .str v.node.bitTexts.2] := by
    rw [Row.cells, h.name, h.kind, hsize, halign, hrange, hmask]
    rfl
  have hbits := ht.bits
  rw [List.forall_mem_cons, List.forall_mem_singleton] at hbits
  have hnumber : ∀ n : Int, (Value.int n).text.IsPrinted :=
    fun n => isPrinted_ofString (Number.int n).isNumeralText_text
  constructor
  case name => rw [hcells]; rfl
  case kind => rw [hcells]; rfl
  case printed =>
    simp only [hcells, List.forall_mem_cons, Value.text_str]
    exact ⟨Text.isPrinted_append.2 ⟨Text.isPrinted_blanks _, hname.isPrinted⟩,
      v.node.isPrinted_kindName, isPrinted_of_hexText hoffset, hnumber n, hnumber a, hbits.1.1,
      hbits.2.1, List.forall_mem_nil _⟩
  case unreal =>
    simp only [hcells, List.tail_cons, List.forall_mem_cons]
    exact ⟨v.node.ofCell_kindName, by simp [hunreal], by simp [ColumnKind.ofCell],
      by simp [ColumnKind.ofCell], hbits.1.2, hbits.2.2, List.forall_mem_nil _⟩
  case writable =>
    have hwhole : (∀ size, v.node.sizeBits = .ok size → size.isWritable = true) ↔
        (Value.int n).isWritable = true := by
      rw [hn]
      exact ⟨fun hall => hall _ rfl, fun hn size hsize => Except.ok.inj hsize ▸ hn⟩
    rw [hcells, hwhole]
    simp only [List.forall_mem_cons]
    constructor
    · rintro ⟨-, -, -, hn, -⟩
      exact hn
    · exact fun hn => ⟨rfl, rfl, rfl, hn, hwritable, rfl, rfl, List.forall_mem_nil _⟩

end RegisterLayout
