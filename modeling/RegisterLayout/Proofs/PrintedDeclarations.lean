import RegisterLayout.Proofs.Declared
import RegisterLayout.Proofs.PrintedBlock

/-!
# Printed declarations of a tree

The whole text that is printed for a tree, written down from its fields: the struct with a line or
two for each field, the lines of a union further in, and behind an empty line the lines of all bit
fields in their order.  Each line of the text is closed by a line feed.  The lines of the struct
are all indented, so the macros and the functions of the text are those of the bit fields.

Principal definitions: `Field.printedMembers`, `Field.printed`.
Principal results: `Declares.memberLines_eq`, `Declares.text_eq`; `Field.filter_define_printed`,
`Field.filter_function_printed`, `Field.filter_struct_printed`.
-/

namespace RegisterLayout

/-! ## Lines of members -/

/-- The type of a word as it is written: the name that its author gave, or that of a number. -/
def Word.typeText (w : Word) : Text :=
  match filled? w.typedef with
  | some name => name.text
  | none => (if (filled? w.signed).isSome then "s" else "u" : String) ++ w.bits.text

namespace Field

mutual

/-- The lines of the member for a field behind some unnamed ones. -/
def printedMember (o : DeclarationOptions) (indent : Text) (n : UnnamedMembers) :
    Field → List Text
  | word w => [indent ++ w.typeText ++ " " ++ w.header.nameOr "unused_" n.plain ++ ";"]
  | blob b =>
    match filled? b.decl with
    | some decl => [indent ++ decl.text]
    | none => [indent ++ "u8 unused_" ++ toString n.plain ++ "[" ++ b.bytes.text ++ "];"]
  | bitfield b =>
    [indent ++ "u" ++ b.bits.text ++ " " ++ b.header.nameOr "bitfield_" n.bitFields ++ ";"]
  | union h members =>
    (indent ++ "union \x7b") :: printedMembers o (indent ++ "\t") {} members
      ++ [indent ++ "\x7d " ++ Cause.nameText (h.name.map Value.text) ++ ";"]
  | _ => []
termination_by structural f => f

/-- The lines of the members for some fields, each behind the comment that its description
becomes. -/
def printedMembers (o : DeclarationOptions) (indent : Text) (n : UnnamedMembers) :
    List Field → List Text
  | [] => []
  | f :: fs =>
    ((o.comment? f.header).toList.map fun text : Text => indent ++ "/** " ++ text ++ " */")
      ++ printedMember o indent n f ++ printedMembers o indent (n.after f) fs
termination_by structural fs => fs

end

end Field

section

variable {o : DeclarationOptions} {struct : Text} {n : UnnamedMembers} {fs : List Field}

theorem Member.linesAll_doc (indent : Text) (doc : Option Text) (ms : List Member) :
    linesAll indent (doc.toList.map .doc ++ ms)
      = (doc.toList.map fun text : Text => indent ++ "/** " ++ text ++ " */")
        ++ linesAll indent ms := by
  cases doc <;> rfl

/-- The member for a field without members is printed in one line. -/
theorem DeclaredLeaf.lines_eq {f : Field} {m : Member} {own : List BitFieldBlock}
    (h : DeclaredLeaf o struct n f m own) (indent : Text) :
    m.lines indent = f.printedMember o indent n := by
  cases h with
  | word w =>
    have htype : w.memberType.text = w.typeText := by
      unfold Word.memberType Word.typeText
      cases filled? w.typedef <;> rfl
    rw [Member.lines, htype]
    rfl
  | verbatim b decl hdecl =>
    rw [Field.printedMember, hdecl]
    rfl
  | bytes b hdecl =>
    rw [Field.printedMember, hdecl]
    simp [Member.lines, numberedName, Text.ofString, Text.ofChars]
  | bitfield b =>
    rw [Field.printedMember, Member.lines, WordType.text]
    simp [Text.ofString, Text.ofChars]

/-- **The members of a struct have the lines that its fields call for.** -/
theorem Declares.memberLines_eq {ms : List Member} {blocks : List BitFieldBlock}
    (h : Declares o struct n fs ms blocks) (indent : Text) :
    Member.linesAll indent ms = Field.printedMembers o indent n fs := by
  induction h generalizing indent with
  | nil => rfl
  | leaf first rest ih =>
    rw [Member.linesAll_doc, Member.linesAll, first.lines_eq, ih]
    exact (List.append_assoc ..).symm
  | union within rest ihwithin ih =>
    rw [Member.linesAll_doc, Member.linesAll, Member.lines, ihwithin, ih]
    exact (List.append_assoc ..).symm

end

/-! ## The whole text -/

namespace Field

section

variable (o : DeclarationOptions) (struct : Text) (fs : List Field)

/-- The lines for the bit fields of a struct; one empty line if it has none. -/
def printedBlocks : List Text :=
  let lines := (numberedBitFields 0 (bitFieldsOf fs)).flatMap fun b => b.1.printed o struct b.2
  if lines.isEmpty then [[]] else lines

/-- The lines that are printed for a struct. -/
def printed : List Text :=
  ("struct " ++ struct ++ " \x7b") :: printedMembers o "\t" {} fs
    ++ [Text.ofString "\x7d;", []] ++ printedBlocks o struct fs

variable {o struct fs}

/-- A line of a bit field is a line of the text, whatever the name is under which it stands. -/
theorem mem_printed {b : BitField} (hb : b ∈ bitFieldsOf fs) {line : Text}
    (hline : ∀ member, line ∈ b.printed o struct member) : line ∈ printed o struct fs := by
  rw [← map_fst_numberedBitFields 0 (bitFieldsOf fs)] at hb
  obtain ⟨named, hnamed, rfl⟩ := List.mem_map.1 hb
  have hlines : line ∈ (numberedBitFields 0 (bitFieldsOf fs)).flatMap
      fun b => b.1.printed o struct b.2 := List.mem_flatMap.2 ⟨named, hnamed, hline named.2⟩
  refine List.mem_append_right _ ?_
  rw [printedBlocks, if_neg (by simpa using List.ne_nil_of_mem hlines)]
  exact hlines

end

end Field

/-- Lines are joined by line feeds and closed by one, also where there are none. -/
theorem Text.joined_feed (lines : List Text) :
    joined "\n" lines ++ "\n" = ofLines (if lines.isEmpty then [[]] else lines) := by
  cases lines with
  | nil => rfl
  | cons line lines =>
    rw [if_neg (by simp)]
    induction lines generalizing line with
    | nil => simp [joined, ofLines]
    | cons next lines ih =>
      have hjoined : joined "\n" (line :: next :: lines)
          = line ++ "\n" ++ joined "\n" (next :: lines) := by
        simp [joined, List.intercalate]
      rw [hjoined, List.append_assoc, ih next]
      rfl

theorem Member.mem_linesAll {m : Member} {ms : List Member} (hm : m ∈ ms) {indent line : Text}
    (hline : line ∈ m.lines indent) : line ∈ linesAll indent ms := by
  induction ms with
  | nil => cases hm
  | cons m' ms ih =>
    rw [linesAll, List.mem_append]
    rcases List.mem_cons.1 hm with rfl | hm
    · exact .inl hline
    · exact .inr (ih hm)

section

variable {o : DeclarationOptions} {d : Declarations} {fs : List Field}

theorem Declares.text_eq (h : Declares o d.structName {} fs d.members d.blocks)
    (hblocks : d.blocks = (numberedBitFields 0 (Field.bitFieldsOf fs)).map
      fun b => b.1.block o d.structName b.2) :
    d.text = Text.ofLines (Field.printed o d.structName fs) := by
  have hlines : d.blockLines = (numberedBitFields 0 (Field.bitFieldsOf fs)).flatMap
      fun b => b.1.printed o d.structName b.2 := by
    rw [Declarations.blockLines, hblocks, List.flatMap_map]
    exact List.flatMap_congr fun b _ => b.1.lines_block o _ _
  have htext : d.text = Text.joined "\n" (("struct " ++ d.structName ++ " \x7b") :: d.memberLines
        ++ [Text.ofString "\x7d;"]) ++ "\n" ++ "\n"
      ++ (Text.joined "\n" d.blockLines ++ "\n") := rfl
  rw [htext, Text.joined_feed, Text.joined_feed, hlines, if_neg (by simp), Declarations.memberLines,
    h.memberLines_eq]
  simp [Text.ofLines, Field.printed, Field.printedBlocks]

end

/-! ## Lines with a keyword -/

namespace Field

section

variable {o : DeclarationOptions}

theorem indented_printedMembers {fs : List Field}
    (ih : ∀ f ∈ fs, ∀ (indent : Text) (n : UnnamedMembers),
      ∀ line ∈ f.printedMember o indent n, indent <+: line)
    (indent : Text) (n : UnnamedMembers) :
    ∀ line ∈ printedMembers o indent n fs, indent <+: line := by
  induction fs generalizing n with
  | nil => exact List.forall_mem_nil _
  | cons f fs ihfs =>
    obtain ⟨hf, hfs⟩ := List.forall_mem_cons.1 ih
    rw [printedMembers, List.forall_mem_append, List.forall_mem_append, List.forall_mem_map]
    refine ⟨⟨fun text _ => ?_, hf indent n⟩, ihfs hfs _⟩
    rw [List.append_assoc, List.append_assoc]
    exact List.prefix_append _ _

/-- Every line of a member stands behind the indent. -/
theorem indented_printedMember (f : Field) (indent : Text) (n : UnnamedMembers) :
    ∀ line ∈ f.printedMember o indent n, indent <+: line := by
  have hone : ∀ indent t : Text, ∀ line ∈ [indent ++ t], indent <+: line := by
    simp
  induction f using inductionOn generalizing indent n with
  | word w =>
    simp only [printedMember, List.append_assoc]
    exact hone _ _
  | bitfield b =>
    simp only [printedMember, List.append_assoc]
    exact hone _ _
  | blob b =>
    rw [printedMember]
    cases filled? b.decl with
    | none =>
      simp only [List.append_assoc]
      exact hone _ _
    | some decl => exact hone _ _
  | union h members ih =>
    have hinner := indented_printedMembers ih (indent ++ "\t") {}
    simp only [printedMember, List.append_assoc, List.cons_append, List.forall_mem_cons,
      List.forall_mem_append]
    exact ⟨List.prefix_append _ _,
      fun line hline => (List.prefix_append _ _).trans (hinner line hline), List.prefix_append _ _,
      List.forall_mem_nil _⟩
  | struct h fields => exact List.forall_mem_nil _
  | stray i => exact List.forall_mem_nil _

/-- No line of a member has a keyword at its beginning. -/
theorem filter_printedMembers (n : UnnamedMembers) (fs : List Field) {start : String}
    (hstart : start ∈ keywords) :
    (printedMembers o "\t" n fs).filter (Text.beginsWith start) = [] := by
  refine filter_keyword_eq_nil (fun line hline => ?_) hstart
  obtain ⟨t, rfl⟩ := indented_printedMembers (fun f _ => indented_printedMember f) "\t" n line hline
  exact ⟨'\t', t, by decide, rfl⟩

variable (o) (struct : Text) (fs : List Field)

theorem filter_printed {start : String} (hstart : start ∈ keywords) :
    (printed o struct fs).filter (Text.beginsWith start)
      = [Text.ofString "struct " ++ struct ++ " \x7b"].filter (Text.beginsWith start)
        ++ (numberedBitFields 0 (bitFieldsOf fs)).flatMap fun b =>
            (b.1.printed o struct b.2).filter (Text.beginsWith start) := by
  have hclosing : ∀ start ∈ keywords,
      [Text.ofString "\x7d;", []].filter (Text.beginsWith start) = [] := by decide
  have hblocks : (printedBlocks o struct fs).filter (Text.beginsWith start)
      = (numberedBitFields 0 (bitFieldsOf fs)).flatMap fun b =>
          (b.1.printed o struct b.2).filter (Text.beginsWith start) := by
    have hempty : ∀ start ∈ keywords, [[]].filter (Text.beginsWith start) = [] := by decide
    rw [← List.filter_flatMap, printedBlocks]
    cases (numberedBitFields 0 (bitFieldsOf fs)).flatMap fun b => b.1.printed o struct b.2 with
    | nil => exact hempty start hstart
    | cons line lines => rfl
  rw [printed, ← List.singleton_append, List.append_assoc, List.append_assoc, List.filter_append,
    List.filter_append, List.filter_append, filter_printedMembers _ _ hstart,
    hclosing start hstart, hblocks, List.nil_append, List.nil_append]

/-- **The text defines the macros of the named items, each in one line, and no other.** -/
theorem filter_define_printed :
    (printed o struct fs).filter (Text.beginsWith "#define ")
      = ((bitFieldsOf fs).flatMap BitField.namedItems).map Item.defineLine := by
  rw [filter_printed _ _ _ (by decide), List.map_flatMap, ← flatMap_numberedBitFields 0]
  exact List.flatMap_congr fun b _ => b.1.filter_define_printed o _ _

/-- **The text has those functions of the named items that their access admits, and no other.** -/
theorem filter_function_printed :
    (printed o struct fs).filter (Text.beginsWith "static inline ")
      = (numberedBitFields 0 (bitFieldsOf fs)).flatMap fun b =>
          b.1.namedItems.flatMap (Item.functionHeads o (b.1.place struct b.2)) := by
  rw [filter_printed _ _ _ (by decide)]
  exact List.flatMap_congr fun b _ => b.1.filter_function_printed o _ _

/-- **The text declares the struct of the layout and one for each bit field with a name.** -/
theorem filter_struct_printed :
    (printed o struct fs).filter (Text.beginsWith "struct ")
      = ("struct " ++ struct ++ " \x7b") :: (bitFieldsOf fs).filterMap BitField.structLine? := by
  have hhead : (Text.ofString "struct " ++ struct ++ " \x7b").beginsWith "struct " = true := rfl
  rw [filter_printed _ _ _ (by decide), List.filter_cons_of_pos hhead, List.filter_nil,
    List.singleton_append, List.filterMap_eq_flatMap_toList, ← flatMap_numberedBitFields 0]
  exact congrArg (_ :: ·) (List.flatMap_congr fun b _ => b.1.filter_struct_printed o _ _)

end

end Field

end RegisterLayout
