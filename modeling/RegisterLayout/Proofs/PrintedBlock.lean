import Mathlib.Data.List.Basic
import RegisterLayout.Proofs.ItemDeclaration

/-!
# Printed declarations of a bit field

What is printed for a bit field, written down from its items: the struct of its word or a comment
that says where the word is, and below it the enumerations, the macros and the functions of the
named items, each group behind an empty line.  A macro stands for the bits of its item, since the
text behind its name stands for them and for no others, and no other line defines a macro or begins
a function.

Principal definitions: `Text.DenotesBits`; `Item.defineLine`, `Item.enumLines`,
`Item.functionLines`, `BitField.printed`; `Text.beginsWith`.
Principal results: `Text.DenotesBits.unique`, `BitField.lines_block`,
`Item.PlacedUnder.denotesBits_iff`; `BitField.filter_define_printed`,
`BitField.filter_function_printed`, `BitField.filter_struct_printed`.
-/

namespace RegisterLayout

/-! ## Texts that stand for bits -/

/-- What a text stands for in a C program: `BIT` for the one bit that it names, `GENMASK` for all
bits between the two that it names, the highest of them first. -/
inductive Text.DenotesBits : Text → (Int → Prop) → Prop
  | bit (index : Int) : DenotesBits ("BIT(" ++ toString index ++ ")") (· = index)
  | span (high low : Int) :
      DenotesBits ("GENMASK(" ++ toString high ++ ", " ++ toString low ++ ")")
        fun k => low ≤ k ∧ k ≤ high

namespace Text

/-- The characters of a number in decimal digits. -/
theorem toList_toString_int (n : Int) : (toString n).toList
    = (if n < 0 then ['-'] else []) ++ Nat.toDigits 10 n.natAbs := by
  cases n with
  | ofNat n =>
    rw [if_neg (by simp)]
    exact Nat.toList_repr
  | negSucc n =>
    rw [if_pos (Int.negSucc_lt_zero n)]
    exact (String.toList_append ..).trans (congrArg _ Nat.toList_repr)

theorem comma_notMem_toString_int (n : Int) : CodePoint.char ',' ∉ ofString (toString n) := by
  have hdigits : ',' ∉ Nat.toDigits 10 n.natAbs := fun hmem =>
    absurd (Nat.isDigit_of_mem_toDigits (by decide) (by decide) hmem) (by decide)
  rw [ofString, ofChars, toList_toString_int]
  split <;> simp [hdigits]

theorem toString_int_injective {m n : Int}
    (h : ofString (toString m) = ofString (toString n)) : m = n := by
  have hminus : ∀ k : Nat, '-' ∉ Nat.toDigits 10 k := fun k hmem =>
    absurd (Nat.isDigit_of_mem_toDigits (by decide) (by decide) hmem) (by decide)
  have hchars := List.map_injective_iff.2 (fun _ _ => CodePoint.char.inj) h
  rw [toList_toString_int, toList_toString_int] at hchars
  have hsign : m < 0 ↔ n < 0 := by
    have hmem := congrArg ('-' ∈ ·) hchars
    simpa [hminus] using hmem
  have hdigits : Nat.toDigits 10 m.natAbs = Nat.toDigits 10 n.natAbs := by
    simpa only [hsign, List.append_cancel_left_eq] using hchars
  have hnat : m.natAbs = n.natAbs :=
    calc
      m.natAbs = Nat.ofDigitChars 10 (Nat.toDigits 10 m.natAbs) 0 :=
        Nat.ofDigitChars_ten_toDigits.symm
      _ = Nat.ofDigitChars 10 (Nat.toDigits 10 n.natAbs) 0 := by rw [hdigits]
      _ = n.natAbs := Nat.ofDigitChars_ten_toDigits
  omega

/-- A text that stands for bits stands for these only. -/
theorem DenotesBits.unique {s : Text} {bits bits' : Int → Prop} (h : s.DenotesBits bits)
    (h' : s.DenotesBits bits') : bits = bits' := by
  generalize hs : s = t at h'
  cases h with
  | bit index =>
    cases h' with
    | bit index' =>
      rw [List.append_cancel_right_eq, List.append_cancel_left_eq] at hs
      rw [toString_int_injective hs]
    | span high low =>
      have hhead := congrArg List.head? hs
      simp [ofString, ofChars] at hhead
  | span high low =>
    cases h' with
    | bit index =>
      have hhead := congrArg List.head? hs
      simp [ofString, ofChars] at hhead
    | span high' low' =>
      simp only [List.append_assoc, List.append_cancel_left_eq] at hs
      have hcomma : ∀ t : Text, ofString ", " ++ t = .char ',' :: .char ' ' :: t := fun _ => rfl
      rw [hcomma, hcomma] at hs
      have hbehind : .char ',' ∉ .char ' ' :: (ofString (toString low) ++ ofString ")") := by
        rw [List.mem_cons, List.mem_append, not_or, not_or]
        exact ⟨by decide, comma_notMem_toString_int low, by decide⟩
      obtain ⟨hhigh, -, hrest⟩ := (List.append_cons_inj_of_notMem
        (comma_notMem_toString_int high) hbehind).1 hs
      rw [List.cons.injEq, List.append_cancel_right_eq] at hrest
      rw [toString_int_injective hhigh, toString_int_injective hrest.2]

/-- A line with a text at its beginning. -/
def beginsWith (start : String) (line : Text) : Bool := (ofString start).isPrefixOf line

/-- A line with which a function of the name begins. -/
def BeginsFunction (line name : Text) : Prop :=
  ∃ type parameters : Text,
    line = "static inline " ++ type ++ " " ++ name ++ "(" ++ parameters ++ ") \x7b"

end Text

/-! ## Lines of an item -/

namespace Item

/-- The text for the bits of an item. -/
def bitsText (i : Item) : Text :=
  if i.IsFlag then "BIT(" ++ toString i.low ++ ")"
  else "GENMASK(" ++ toString i.high ++ ", " ++ toString i.low ++ ")"

/-- The line of the macro. -/
def defineLine (i : Item) : Text := tabbed ("#define " ++ i.macroName) i.bitsText

/-- The lines of the enumeration of an item that has entries. -/
def enumLines (i : Item) : List Text :=
  match entries? i.enumeration with
  | none => []
  | some entries =>
    ("enum " ++ i.fullName ++ " \x7b")
      :: entries.map (fun (key, value) =>
        tabbed ("\t" ++ constantName i.fullName key.text) ("= " ++ value.text ++ ","))
      ++ [Text.ofString "\x7d;"]

/-- The type of the value: a truth value for one bit, or the enumeration, or the smallest type of
numbers that holds all bits. -/
def typeText (i : Item) : Text :=
  if i.IsFlag then "bool"
  else if (entries? i.enumeration).isSome then "enum " ++ i.fullName
  else
    let width := ([8, 16, 32].find? fun width : Nat => decide (i.bits.whole ≤ width)).getD 64
    "u" ++ toString width

def getterName (i : Item) : Text := (if i.IsFlag then "is_" else "get_" : String) ++ i.fullName

def setterName (i : Item) : Text := "set_" ++ i.fullName

section

variable (o : DeclarationOptions) (place : Text × Text) (i : Item)

/-- The line with which the getter begins, which takes a pointer to the struct. -/
def getterHead : Text :=
  "static inline " ++ i.typeText ++ " " ++ i.getterName ++ "(struct " ++ place.1 ++ " *x) \x7b"

def setterHead : Text :=
  "static inline void " ++ i.setterName ++ "(struct " ++ place.1 ++ " *x, " ++ i.typeText
    ++ " v) \x7b"

/-- The lines of the getter, which reads the bits of the macro from the member of the struct. -/
def getterLines : List Text :=
  [i.getterHead place, "\treturn FIELD_GET(" ++ i.macroName ++ ", x->" ++ place.2 ++ ");", "\x7d"]

def setterLines : List Text :=
  [i.setterHead place,
    "\tx->" ++ place.2 ++ " = FIELD_SET(x->" ++ place.2 ++ ", " ++ i.macroName ++ ", v);", "\x7d"]

/-- An item has no getter if its access is honoured and it may only be written. -/
def HasGetter : Prop := ¬(o.honorAccess ∧ i.only = some (.str "write"))

/-- An item has no setter if its access is honoured and it may only be read. -/
def HasSetter : Prop := ¬(o.honorAccess ∧ i.only = some (.str "read"))

instance : Decidable (i.HasGetter o) := inferInstanceAs (Decidable (¬_))

instance : Decidable (i.HasSetter o) := inferInstanceAs (Decidable (¬_))

/-- The lines of the functions, behind the comment that the description becomes. -/
def functionLines : List Text :=
  ((o.comment? i.header).toList.map fun text : Text => "/** " ++ text ++ " */")
    ++ (if i.HasGetter o then i.getterLines place else [])
    ++ (if i.HasSetter o then i.setterLines place else [])

/-- The lines with which functions begin. -/
def functionHeads : List Text :=
  (if i.HasGetter o then [i.getterHead place] else [])
    ++ (if i.HasSetter o then [i.setterHead place] else [])

end

/-! ## Lines of the declarations for an item -/

section

variable (o : DeclarationOptions) (place : Text × Text) (i : Item)

theorem text_valueType : i.valueType.text = i.typeText := by
  unfold valueType typeText
  split
  · rfl
  · split <;> rfl

theorem line_define : (Macro.mk i.macroName i.mask).line = i.defineLine := by
  unfold Macro.line defineLine mask bitsText
  split <;> rfl

theorem lines_enum? : i.enum?.toList.flatMap EnumDeclaration.lines = i.enumLines := by
  unfold enum? enumLines
  cases entries? i.enumeration with
  | none => rfl
  | some entries =>
    simp only [Option.map_some, Option.toList_some, List.flatMap_singleton, EnumDeclaration.lines,
      List.map_map]
    rfl

theorem valueType_eq_flag_iff {i : Item} : i.valueType = .flag ↔ i.IsFlag := by
  unfold valueType
  by_cases hflag : i.IsFlag
  · rw [if_pos hflag]
    exact iff_of_true rfl hflag
  · rw [if_neg hflag]
    refine iff_of_false ?_ hflag
    split <;> nofun

theorem functionName?_getter :
    (Accessor.getter (i.target place)).functionName? = some i.getterName := by
  have hflag : (i.target place).type = .flag ↔ i.IsFlag := valueType_eq_flag_iff
  simp only [Accessor.functionName?, hflag]
  rfl

theorem lines_getter : (Accessor.getter (i.target place)).lines = i.getterLines place := by
  rw [Accessor.lines, functionName?_getter]
  simp only [target, text_valueType]
  rfl

theorem lines_setter : (Accessor.setter (i.target place)).lines = i.setterLines place := by
  rw [Accessor.lines]
  simp only [target, text_valueType]
  rfl

/-- An item has the functions that its access admits. -/
theorem functions_eq : i.functions o place
    = (if i.HasGetter o then [.getter (i.target place)] else [])
      ++ (if i.HasSetter o then [.setter (i.target place)] else []) :=
  congrArg₂ (· ++ ·) (ite_not ..).symm (ite_not ..).symm

/-- **The accessors of an item have the lines of its functions.** -/
theorem lines_accessors :
    (i.declarations o place).accessors.flatMap Accessor.lines = i.functionLines o place := by
  have hcomment : ((o.comment? i.header).toList.map Accessor.doc).flatMap Accessor.lines
      = (o.comment? i.header).toList.map fun text : Text => "/** " ++ text ++ " */" := by
    cases o.comment? i.header <;> rfl
  have hkept : ∀ (a : Accessor) (p : Prop) [Decidable p],
      (if p then [a] else []).flatMap Accessor.lines = if p then a.lines else [] := by
    intro a p _
    split <;> simp
  rw [declarations, functions_eq, List.flatMap_append, List.flatMap_append, hcomment, hkept, hkept,
    lines_getter, lines_setter, ← List.append_assoc]
  rfl

end

end Item

/-! ## Lines of a bit field -/

/-- Groups of lines that are not empty, each below an empty line. -/
def grouped (groups : List (List Text)) : List Text :=
  (groups.filter (!·.isEmpty)).flatMap ([] :: ·)

theorem flatMap_paragraph (groups : List (List Text)) :
    groups.flatMap paragraph = grouped groups := by
  induction groups with
  | nil => rfl
  | cons lines groups ih =>
    rw [List.flatMap_cons, ih]
    cases lines <;> rfl

theorem mem_grouped {line : Text} {lines : List Text} {groups : List (List Text)}
    (hline : line ∈ lines) (hlines : lines ∈ groups) : line ∈ grouped groups := by
  refine List.mem_flatMap.2 ⟨lines, List.mem_filter.2 ⟨hlines, ?_⟩, List.mem_cons_of_mem _ hline⟩
  simpa using List.ne_nil_of_mem hline

/-- What is chosen of lines in groups is chosen of the groups in turn. -/
theorem filter_grouped {q : Text → Bool} (hempty : q [] = false) (groups : List (List Text)) :
    (grouped groups).filter q = groups.flatMap (List.filter q) := by
  induction groups with
  | nil => rfl
  | cons lines groups ih =>
    rw [← flatMap_paragraph] at ih ⊢
    rw [List.flatMap_cons, List.flatMap_cons, List.filter_append, ih]
    cases lines with
    | nil => rfl
    | cons line lines =>
      rw [paragraph, if_neg (by simp), List.filter_cons_of_neg (by simp [hempty])]

namespace BitField

section

variable (o : DeclarationOptions) (struct member : Text) (b : BitField)

/-- The struct that functions take, and the member of it that holds the word: a struct of its own
for a bit field with a name, the struct of the layout for any other. -/
def place : Text × Text :=
  match b.header.givenName? with
  | some name => (name.text, "word")
  | none => (struct, member)

/-- The struct for the word of a bit field with a name. -/
def structLine? : Option Text :=
  b.header.givenName?.map fun name =>
    "struct " ++ name.text ++ " \x7b u" ++ b.bits.text ++ " word; \x7d;"

/-- The first line: the struct of a bit field with a name, or a comment. -/
def headLine : Text := b.structLine?.getD ("/* " ++ struct ++ " " ++ member ++ " */")

/-- The lines that are printed for a bit field. -/
def printed : List Text :=
  b.headLine struct member
    :: grouped [b.namedItems.flatMap Item.enumLines, b.namedItems.map Item.defineLine,
        b.namedItems.flatMap (Item.functionLines o (b.place struct member))]
    ++ [[]]

theorem headLine_of_named {name : Text} (h : b.header.givenName? = some (.str name)) :
    b.headLine struct member = "struct " ++ name ++ " \x7b u" ++ b.bits.text ++ " word; \x7d;" := by
  rw [headLine, structLine?, h]
  rfl

theorem place_of_named {name : Text} (h : b.header.givenName? = some (.str name)) :
    b.place struct member = (name, ("word" : Text)) := by
  rw [place, h]
  rfl

theorem place_backing : (b.backing struct member).place = b.place struct member := by
  unfold backing place
  cases b.header.givenName? <;> rfl

/-- **The declarations for a bit field have the lines that its items call for.** -/
theorem lines_block : (b.block o struct member).lines = b.printed o struct member := by
  have hhead : (b.backing struct member).line = b.headLine struct member := by
    unfold backing headLine structLine?
    cases b.header.givenName? <;> rfl
  have henums : (b.namedItems.filterMap Item.enum?).flatMap EnumDeclaration.lines
      = b.namedItems.flatMap Item.enumLines := by
    rw [List.filterMap_eq_flatMap_toList, List.flatMap_assoc]
    exact List.flatMap_congr fun i _ => i.lines_enum?
  have hfunctions : b.namedItems.flatMap (fun i =>
        (i.declarations o (b.place struct member)).accessors.flatMap Accessor.lines)
      = b.namedItems.flatMap (Item.functionLines o (b.place struct member)) :=
    List.flatMap_congr fun i _ => i.lines_accessors o _
  have hdefines : b.namedItems.map (fun i => (Macro.mk i.macroName i.mask).line)
      = b.namedItems.map Item.defineLine := List.map_congr_left fun i _ => i.line_define
  rw [BitFieldBlock.lines, block, printed, ← flatMap_paragraph]
  simp only [place_backing, List.filterMap_map, List.map_map, List.flatMap_assoc,
    List.flatMap_map, List.flatMap_cons, List.flatMap_nil, List.append_nil, ← hhead, ← henums,
    ← hdefines, ← hfunctions, List.cons_append, List.append_assoc]
  rfl

end

end BitField

/-! ## Lines with a keyword -/

/-- What the lines begin with that define a macro, begin a function or declare a struct. -/
def keywords : List String := ["#define ", "static inline ", "struct "]

theorem beginsWith_keyword {c : Char} (hc : c ∉ ['#', 's']) (line : Text) :
    ∀ start ∈ keywords, Text.beginsWith start (.char c :: line) = false := by
  have hother : ∀ (first : Char) (rest : Text), first ∈ ['#', 's'] →
      (CodePoint.char first :: rest).isPrefixOf (.char c :: line) = false := by
    intro first rest hfirst
    have hne : first ≠ c := fun heq => hc (heq ▸ hfirst)
    simp [List.isPrefixOf, hne]
  simp only [keywords, List.forall_mem_cons, List.not_mem_nil, false_implies, implies_true,
    and_true]
  exact ⟨hother _ _ (by decide), hother _ _ (by decide), hother _ _ (by decide)⟩

/-- Lines of which none begins like one with a keyword. -/
theorem filter_keyword_eq_nil {lines : List Text}
    (h : ∀ line ∈ lines, ∃ c t, c ∉ ['#', 's'] ∧ line = .char c :: t) {start : String}
    (hstart : start ∈ keywords) : lines.filter (Text.beginsWith start) = [] := by
  rw [List.filter_eq_nil_iff]
  intro line hline
  obtain ⟨c, t, hc, rfl⟩ := h line hline
  simp [beginsWith_keyword hc t start hstart]

namespace Item

theorem filter_enumLines (i : Item) {start : String} (hstart : start ∈ keywords) :
    i.enumLines.filter (Text.beginsWith start) = [] := by
  refine filter_keyword_eq_nil ?_ hstart
  unfold enumLines
  cases entries? i.enumeration with
  | none => exact List.forall_mem_nil _
  | some entries =>
    simp only [List.cons_append, List.forall_mem_cons, List.forall_mem_append,
      List.forall_mem_map, List.not_mem_nil, false_implies, implies_true, and_true]
    exact ⟨⟨'e', _, by decide, rfl⟩, fun _ _ => ⟨'\t', _, by decide, rfl⟩,
      '\x7d', _, by decide, rfl⟩

/-- Of the lines of functions only the first ones have a keyword. -/
theorem filter_functionLines (o : DeclarationOptions) (place : Text × Text) (i : Item)
    {start : String} (hstart : start ∈ keywords) :
    (i.functionLines o place).filter (Text.beginsWith start)
      = (i.functionHeads o place).filter (Text.beginsWith start) := by
  have hcomment : ((o.comment? i.header).toList.map fun text : Text =>
      "/** " ++ text ++ " */").filter (Text.beginsWith start) = [] := by
    refine filter_keyword_eq_nil ?_ hstart
    rw [List.forall_mem_map]
    exact fun _ _ => ⟨'/', _, by decide, rfl⟩
  have hbody : ∀ (head body : Text),
      [head, .char '\t' :: body, "\x7d"].filter (Text.beginsWith start)
        = [head].filter (Text.beginsWith start) := by
    intro head body
    have hrest : ∀ line ∈ [.char '\t' :: body, ("\x7d" : Text)],
        ∃ c t, c ∉ ['#', 's'] ∧ line = .char c :: t := by
      simp only [List.forall_mem_cons, List.not_mem_nil, false_implies, implies_true, and_true]
      exact ⟨⟨'\t', _, by decide, rfl⟩, '\x7d', _, by decide, rfl⟩
    rw [← List.singleton_append, List.filter_append, filter_keyword_eq_nil hrest hstart,
      List.append_nil]
  have hkept : ∀ (p : Prop) [Decidable p] (head body : Text),
      (if p then [head, .char '\t' :: body, "\x7d"] else []).filter (Text.beginsWith start)
        = (if p then [head] else []).filter (Text.beginsWith start) := by
    intro p _ head body
    split
    · exact hbody head body
    · rfl
  rw [functionLines, functionHeads, List.filter_append, List.filter_append, List.filter_append,
    hcomment, List.nil_append]
  exact congrArg₂ (· ++ ·) (hkept _ _ _) (hkept _ _ _)

end Item

namespace BitField

section

variable (o : DeclarationOptions) (struct member : Text) (b : BitField)

/-- Of the lines of a bit field only some have a keyword. -/
theorem filter_printed {start : String} (hstart : start ∈ keywords) :
    (b.printed o struct member).filter (Text.beginsWith start)
      = [b.headLine struct member].filter (Text.beginsWith start)
        ++ (b.namedItems.map Item.defineLine).filter (Text.beginsWith start)
        ++ (b.namedItems.flatMap (Item.functionHeads o (b.place struct member))).filter
            (Text.beginsWith start) := by
  have hempty : ∀ start ∈ keywords, Text.beginsWith start [] = false := by decide
  have henums : (b.namedItems.flatMap Item.enumLines).filter (Text.beginsWith start) = [] := by
    rw [List.filter_flatMap, List.flatMap_eq_nil_iff]
    exact fun i _ => i.filter_enumLines hstart
  have hfunctions : (b.namedItems.flatMap (Item.functionLines o (b.place struct member))).filter
        (Text.beginsWith start)
      = (b.namedItems.flatMap (Item.functionHeads o (b.place struct member))).filter
          (Text.beginsWith start) := by
    rw [List.filter_flatMap, List.filter_flatMap]
    exact List.flatMap_congr fun i _ => i.filter_functionLines o _ hstart
  rw [printed, ← List.singleton_append, List.append_assoc, List.filter_append, List.filter_append,
    filter_grouped (hempty start hstart)]
  simp only [List.flatMap_cons, List.flatMap_nil, henums, hfunctions, List.append_nil,
    List.nil_append, List.append_assoc, List.filter_cons, hempty start hstart, List.filter_nil,
    Bool.false_eq_true, if_false]

/-- The functions of the items begin with the same keyword. -/
theorem forall_mem_functionHeads (place : Text × Text) {P : Text → Prop}
    (hgetter : ∀ i : Item, P (i.getterHead place)) (hsetter : ∀ i : Item, P (i.setterHead place)) :
    ∀ line ∈ b.namedItems.flatMap (Item.functionHeads o place), P line := by
  rw [List.forall_mem_flatMap]
  intro i _
  rw [Item.functionHeads, List.forall_mem_append]
  constructor <;> split <;> simp [hgetter, hsetter]

theorem beginsWith_headLine (start : String) (hstart : start ∈ keywords) :
    (b.headLine struct member).beginsWith start
      = (decide (start = "struct ") && b.structLine?.isSome) := by
  unfold headLine structLine?
  simp only [keywords, List.mem_cons, List.not_mem_nil, or_false] at hstart
  rcases hstart with rfl | rfl | rfl <;> cases b.header.givenName? <;> rfl

/-- **Those lines of a bit field define a macro that do so for a named item.** -/
theorem filter_define_printed :
    (b.printed o struct member).filter (Text.beginsWith "#define ")
      = b.namedItems.map Item.defineLine := by
  have hhead := b.beginsWith_headLine struct member "#define " (by decide)
  have hdefines : ∀ line ∈ b.namedItems.map Item.defineLine,
      Text.beginsWith "#define " line = true := List.forall_mem_map.2 fun _ _ => rfl
  have hfunctions := b.forall_mem_functionHeads o (b.place struct member)
    (P := fun line => ¬Text.beginsWith "#define " line = true) (fun _ => nofun) fun _ => nofun
  rw [filter_printed _ _ _ _ (by decide), List.filter_eq_self.2 hdefines,
    List.filter_eq_nil_iff.2 hfunctions]
  simp [hhead]

/-- **Those lines of a bit field begin a function that do so for a named item.** -/
theorem filter_function_printed :
    (b.printed o struct member).filter (Text.beginsWith "static inline ")
      = b.namedItems.flatMap (Item.functionHeads o (b.place struct member)) := by
  have hhead := b.beginsWith_headLine struct member "static inline " (by decide)
  have hdefines : ∀ line ∈ b.namedItems.map Item.defineLine,
      ¬Text.beginsWith "static inline " line = true := List.forall_mem_map.2 fun _ _ => nofun
  have hfunctions := b.forall_mem_functionHeads o (b.place struct member)
    (P := fun line => Text.beginsWith "static inline " line = true) (fun _ => rfl) fun _ => rfl
  rw [filter_printed _ _ _ _ (by decide), List.filter_eq_self.2 hfunctions,
    List.filter_eq_nil_iff.2 hdefines]
  simp [hhead]

/-- **A bit field declares a struct in one line, if it has a name.** -/
theorem filter_struct_printed :
    (b.printed o struct member).filter (Text.beginsWith "struct ") = b.structLine?.toList := by
  have hhead := b.beginsWith_headLine struct member "struct " (by decide)
  have hdefines : ∀ line ∈ b.namedItems.map Item.defineLine,
      ¬Text.beginsWith "struct " line = true := List.forall_mem_map.2 fun _ _ => nofun
  have hfunctions := b.forall_mem_functionHeads o (b.place struct member)
    (P := fun line => ¬Text.beginsWith "struct " line = true) (fun _ => nofun) fun _ => nofun
  rw [filter_printed _ _ _ _ (by decide), List.filter_eq_nil_iff.2 hfunctions,
    List.filter_eq_nil_iff.2 hdefines, List.filter_cons, hhead, headLine]
  cases b.structLine? <;> rfl

end

end BitField

namespace Item.PlacedUnder

variable {i : Item} {path : Path} {index : Nat}

/-- **The text behind the name of a macro stands for the bits of the item, and for no others.** -/
theorem denotesBits_iff (h : i.PlacedUnder path index) {bits : Int → Prop} :
    i.bitsText.DenotesBits bits ↔ bits = (· ∈ i.bitIndices) := by
  have hcovers : (fun k => i.mask.Covers k) = (· ∈ i.bitIndices) :=
    funext fun k => propext (h.covers_mask_iff k)
  have hdenotes : i.bitsText.DenotesBits (· ∈ i.bitIndices) := by
    rw [← hcovers]
    unfold mask bitsText
    split
    · exact .bit i.low
    · exact .span i.high i.low
  constructor
  · exact fun hbits => hbits.unique hdenotes
  · rintro rfl
    exact hdenotes

end Item.PlacedUnder

namespace Item

/-- The names of the functions of an item. -/
def functionNames (o : DeclarationOptions) (i : Item) : List Text :=
  (if i.HasGetter o then [i.getterName] else []) ++ (if i.HasSetter o then [i.setterName] else [])

variable (o : DeclarationOptions) (place : Text × Text) (i : Item)

theorem beginsFunction_getterHead : (i.getterHead place).BeginsFunction i.getterName :=
  ⟨i.typeText, "struct " ++ place.1 ++ " *x", by simp [getterHead, Text.ofString, Text.ofChars]⟩

theorem beginsFunction_setterHead : (i.setterHead place).BeginsFunction i.setterName :=
  ⟨"void", "struct " ++ place.1 ++ " *x, " ++ i.typeText ++ " v",
    by simp [setterHead, Text.ofString, Text.ofChars]⟩

/-- The functions of an item begin in lines with their names, one after the other. -/
theorem beginsFunction_functionHeads :
    List.Forall₂ Text.BeginsFunction (i.functionHeads o place) (i.functionNames o) := by
  refine List.rel_append ?_ ?_
  · split
    · exact .cons (i.beginsFunction_getterHead place) .nil
    · exact .nil
  · split
    · exact .cons (i.beginsFunction_setterHead place) .nil
    · exact .nil

end Item

end RegisterLayout
