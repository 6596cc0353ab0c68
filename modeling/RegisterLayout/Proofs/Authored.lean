import RegisterLayout.Proofs.FullName
import RegisterLayout.Proofs.Location

/-!
# What placing reads and what it writes

Placing reads what an author wrote and nothing else: positions and bit ranges that an earlier
placing left in a tree change neither the result nor the error.  It writes positions and bit ranges
and nothing else.  A placed tree that is placed again is therefore the same tree.

Principal definition: `Field.authored` — a tree as its author wrote it.
Principal results: `Field.place_authored`, `Field.authored_of_place`, `Field.resolve_readsAuthored`.
-/

namespace RegisterLayout

/-! ## Trees as they were written -/

/-- A header as its author wrote it. -/
def Header.authored (h : Header) : Header := { h with position := {} }

def Item.authored (i : Item) : Item := { i with header := i.header.authored, bitRange := none }

def Word.authored (w : Word) : Word := { w with header := w.header.authored }

def BitField.authored (b : BitField) : BitField :=
  { b with header := b.header.authored, items := b.items.map Item.authored }

def Blob.authored (b : Blob) : Blob := { b with header := b.header.authored }

namespace Field

mutual

/-- A tree as its author wrote it: no node has a position, and no item a bit range. -/
def authored : Field → Field
  | word w => word w.authored
  | bitfield b => bitfield b.authored
  | blob b => blob b.authored
  | struct h fields => struct h.authored (authoredAll fields)
  | union h members => union h.authored (authoredAll members)
  | stray i => stray i.authored
termination_by structural f => f

def authoredAll : List Field → List Field
  | [] => []
  | f :: fs => authored f :: authoredAll fs
termination_by structural fs => fs

end

@[simp] theorem header_authored (f : Field) : f.authored.header = f.header.authored := by
  cases f <;> rfl

end Field

/-! ## Nothing else is read -/

section

variable {path : Path} {index : Nat} {start wordBits : Number}

theorem nodeName_authored (h : Header) (path : Path) (index : Nat) :
    nodeName h.authored path index = nodeName h path index := rfl

theorem givenName?_authored (h : Header) : h.authored.givenName? = h.givenName? := rfl

/-- An item without its bit range, and its width. -/
def unranged (named : Item × Int) : Item × Int := ({ named.1 with bitRange := none }, named.2)

/-- The checks of an item do not depend on its position and its bit range, and leave the latter. -/
theorem nameItem_authored (i : Item) :
    nameItem path index start wordBits i.authored
      = (nameItem path index start wordBits i).map unranged := by
  unfold nameItem
  dsimp +instances only [Item.authored, nodeName_authored, givenName?_authored]
  cases nodeName i.header path index with
  | error e => rfl
  | ok r =>
    simp only [ok_bind]
    cases hunused : i.header.givenName?.isNone && i.enumeration.isSome with
    | true => rfl
    | false =>
      simp only [Bool.false_eq_true, ↓reduceIte]
      cases itemWidth? i.bits with
      | none => rfl
      | some width =>
        cases i.enumeration with
        | none =>
          dsimp only
          cases checkCountable wordBits width <;> rfl
        | some entries =>
          dsimp only
          cases greatestValue width with
          | error e => rfl
          | ok greatest =>
            simp only [ok_bind]
            cases checkEnumeration r.1 0 greatest entries with
            | error e => rfl
            | ok _ => cases checkCountable wordBits width <;> rfl

theorem nameItems_authored (items : List Item) :
    nameItems path start wordBits index (items.map Item.authored)
      = (nameItems path start wordBits index items).map (List.map unranged) := by
  induction items generalizing index with
  | nil => rfl
  | cons i rest ih =>
    rw [List.map_cons, nameItems, nameItems, nameItem_authored, ih]
    cases nameItem path index start wordBits i with
    | error e => rfl
    | ok named => cases nameItems path start wordBits (index + 1) rest <;> rfl

/-- Bit ranges are assigned whatever the items had before. -/
theorem assignRanges_unranged (endBit : Int) (named : List (Item × Int)) :
    assignRanges endBit (named.map unranged) = assignRanges endBit named := by
  induction named generalizing endBit with
  | nil => rfl
  | cons r rest ih => rw [List.map_cons, assignRanges, assignRanges, unranged, ih]

theorem leftOver_unranged (wordBits : Number) (named : List (Item × Int)) :
    leftOver wordBits (named.map unranged) = leftOver wordBits named := by
  rw [leftOver, leftOver, List.foldr_map]
  rfl

theorem placeBitField_authored (b : BitField) (fullName : Text) :
    placeBitField b.authored fullName path start = placeBitField b fullName path start := by
  unfold placeBitField
  simp only [BitField.authored]
  cases wordWidth? b.bits with
  | none => rfl
  | some width =>
    simp only [nameItems_authored]
    cases nameItems path start width 0 b.items with
    | error e => rfl
    | ok named =>
      simp only [Except.map, ok_bind, leftOver_unranged, assignRanges_unranged]
      rfl

end

namespace Field

section

variable {path : Path} {index : Nat} {start : Number}

theorem fieldFault?_authored (f : Field) :
    fieldFault? index start f.authored = fieldFault? index start f := by
  cases f <;> rfl

theorem memberFault?_authored (parent : Text) (f : Field) :
    memberFault? parent f.authored = memberFault? parent f := by
  cases f <;> rfl

theorem placeFields_authored {parent : Text} {fields : List Field}
    (h : ∀ f ∈ fields, ∀ (path : Path) (index : Nat) (start : Number),
      place path index start f.authored = place path index start f) :
    placeFields parent path index start (authoredAll fields)
      = placeFields parent path index start fields := by
  induction fields generalizing index start with
  | nil => rfl
  | cons f fs ih =>
    obtain ⟨hf, hfs⟩ := List.forall_mem_cons.1 h
    simp only [authoredAll, placeFields, fieldFault?_authored, hf, ih hfs]

theorem placeMembers_authored {parent : Text} {longest : Number} {members : List Field}
    (h : ∀ f ∈ members, ∀ (path : Path) (index : Nat) (start : Number),
      place path index start f.authored = place path index start f) :
    placeMembers parent path index start longest (authoredAll members)
      = placeMembers parent path index start longest members := by
  induction members generalizing index longest with
  | nil => rfl
  | cons f fs ih =>
    obtain ⟨hf, hfs⟩ := List.forall_mem_cons.1 h
    simp only [authoredAll, placeMembers, memberFault?_authored, hf, ih hfs]

/-- **Placing reads what the author wrote.** -/
theorem place_authored (f : Field) (path : Path) (index : Nat) (start : Number) :
    place path index start f.authored = place path index start f := by
  induction f using inductionOn generalizing path index start with
  | word w => rfl
  | bitfield b =>
    simp only [authored, place, placeBitField_authored]
    rfl
  | blob b => rfl
  | struct header fields ih =>
    simp only [authored, place, nodeName_authored, placeFields_authored ih]
    rfl
  | union header members ih =>
    have hempty : (authoredAll members).isEmpty = members.isEmpty := by cases members <;> rfl
    simp only [authored, place, nodeName_authored, placeMembers_authored ih, hempty]
    rfl
  | stray i => rfl

end

/-! ## Nothing else is written -/

section

variable {path : Path} {index : Nat} {start : Number}

theorem authored_placedAt (h : Header) (fullName : Text) (start : Number) :
    (h.placedAt fullName start).authored = h.authored := rfl

theorem authored_of_nameItems {wordBits : Number} {items : List Item} {named : List (Item × Int)}
    (h : nameItems path start wordBits index items = .ok named) :
    named.map (·.1.authored) = items.map Item.authored := by
  induction items generalizing index named with
  | nil =>
    rw [nameItems, Except.ok.injEq] at h
    subst h
    rfl
  | cons i rest ih =>
    obtain ⟨-, -, more, hmore, rfl⟩ := nameItems_cons_eq_ok h
    rw [List.map_cons, List.map_cons, ih hmore]
    rfl

theorem authored_assignRanges (endBit : Int) (named : List (Item × Int)) :
    (assignRanges endBit named).map Item.authored = named.map (·.1.authored) := by
  induction named generalizing endBit with
  | nil => rfl
  | cons r rest ih =>
    rw [assignRanges, List.map_cons, List.map_cons, ih]
    rfl

theorem authored_of_placeBitField {b : BitField} {fullName : Text} {r : BitField × Number}
    (h : placeBitField b fullName path start = .ok r) : r.1.authored = b.authored := by
  obtain ⟨width, named, stop, -, hnamed, rfl⟩ := placeBitField_eq_ok h
  simp only [BitField.authored, authored_placedAt, authored_assignRanges,
    authored_of_nameItems hnamed]

theorem authored_of_placeFields {parent : Text} {fields : List Field} {r : List Field × Number}
    (hfields : ∀ f ∈ fields, ∀ {path : Path} {index : Nat} {start : Number} {r : Field × Number},
      place path index start f = .ok r → r.1.authored = f.authored)
    (h : placeFields parent path index start fields = .ok r) :
    authoredAll r.1 = authoredAll fields := by
  induction fields generalizing index start r with
  | nil =>
    rw [placeFields, Except.ok.injEq] at h
    subst h
    rfl
  | cons f fs ih =>
    obtain ⟨hf, hfs⟩ := List.forall_mem_cons.1 hfields
    obtain ⟨-, first, hfirst, rest, hrest, rfl⟩ := placeFields_cons_eq_ok_iff.1 h
    rw [authoredAll, authoredAll, hf hfirst, ih hfs hrest]

theorem authored_of_placeMembers {parent : Text} {longest : Number} {members : List Field}
    {r : List Field × Number}
    (hmembers : ∀ f ∈ members, ∀ {path : Path} {index : Nat} {start : Number}
      {r : Field × Number}, place path index start f = .ok r → r.1.authored = f.authored)
    (h : placeMembers parent path index start longest members = .ok r) :
    authoredAll r.1 = authoredAll members := by
  induction members generalizing index longest r with
  | nil =>
    rw [placeMembers, Except.ok.injEq] at h
    subst h
    rfl
  | cons f fs ih =>
    obtain ⟨hf, hfs⟩ := List.forall_mem_cons.1 hmembers
    obtain ⟨-, first, hfirst, rest, hrest, rfl⟩ := placeMembers_cons_eq_ok_iff.1 h
    rw [authoredAll, authoredAll, hf hfirst, ih hfs hrest]

/-- **Placing leaves what the author wrote.** -/
theorem authored_of_place {f : Field} {path : Path} {index : Nat} {start : Number}
    {r : Field × Number} (h : place path index start f = .ok r) : r.1.authored = f.authored := by
  induction f using inductionOn generalizing path index start r with
  | word w =>
    obtain ⟨-, placed, hplaced, rfl⟩ := place_word_eq_ok_iff.1 h
    rw [(placeWord_eq_ok hplaced).2]
    rfl
  | bitfield b =>
    obtain ⟨-, placed, hplaced, rfl⟩ := place_bitfield_eq_ok_iff.1 h
    rw [authored, authored, authored_of_placeBitField hplaced]
  | blob b =>
    obtain ⟨-, placed, hplaced, rfl⟩ := place_blob_eq_ok_iff.1 h
    rw [(placeBlob_eq_ok hplaced).2]
    rfl
  | struct header fields ih =>
    obtain ⟨-, placed, hplaced, -, rfl⟩ := place_struct_eq_ok_iff.1 h
    rw [authored, authored, authored_of_placeFields (fun f hf => ih f hf) hplaced]
    rfl
  | union header members ih =>
    obtain ⟨-, -, -, placed, hplaced, rfl⟩ := place_union_eq_ok_iff.1 h
    rw [authored, authored, authored_of_placeMembers (fun f hf => ih f hf) hplaced]
    rfl
  | stray i => exact absurd h place_stray_ne_ok

end

/-! ## Whole trees -/

theorem resolve_authored (f : Field) : f.authored.resolve = f.resolve := by
  have hoffset : f.authored.checkRootOffset = f.checkRootOffset := by
    rw [checkRootOffset, checkRootOffset, header_authored]
    rfl
  rw [resolve, resolve, hoffset, place_authored]

/-- **Resolving reads what the author wrote, and writes everything else.**  Trees that were written
alike have one outcome, be it a tree or an error.  A tree that is returned is the one that was given
but for the positions and the bit ranges, and is returned again when it is resolved once more. -/
theorem resolve_readsAuthored :
    (∀ t u : Field, t.authored = u.authored → t.resolve = u.resolve) ∧
    ∀ t r : Field, t.resolve = .ok r → r.authored = t.authored ∧ r.resolve = .ok r := by
  have hreads : ∀ t u : Field, t.authored = u.authored → t.resolve = u.resolve := by
    intro t u h
    rw [← resolve_authored t, h, resolve_authored]
  refine ⟨hreads, fun t r h => ?_⟩
  have hwrites : r.authored = t.authored := by
    simp only [resolve, check_bind_eq_ok_iff, @bind_eq_ok_iff (Field × Number),
      pure_eq_ok_iff] at h
    obtain ⟨-, placed, hplaced, -, rfl⟩ := h
    exact authored_of_place hplaced
  exact ⟨hwrites, (hreads r t hwrites).trans h⟩

/-- A struct of one bit field that is still to be placed. -/
def timerRoot : Field :=
  struct { name := some (.str "timer") }
    [bitfield { bits := 8, items := [{ header := { name := some (.str "run") }, bits := 3 },
      { bits := 5 }] }]

/-- The same struct, cut out of a layout where it began at byte 4. -/
def movedRoot : Field :=
  struct { name := some (.str "timer"), position := ⟨some "all_timer", some 4, some 4⟩ }
    [bitfield { header := { position := ⟨some "all_timer_f0", some 4, some 4⟩ }, bits := 8,
                items := [{ header := { name := some (.str "run") }, bits := 3,
                            bitRange := some [37, 38, 39] },
                          { bits := 5 }] }]

theorem resolve_readsAuthored_timerRoot :
    movedRoot.authored = timerRoot.authored ∧ movedRoot.resolve = timerRoot.resolve ∧
      ∃ r, timerRoot.resolve = .ok r ∧ r.authored = timerRoot.authored ∧ r.resolve = .ok r := by
  have hwritten : movedRoot.authored = timerRoot.authored := rfl
  have hresolve : timerRoot.resolve = .ok (timerRoot.located [] 0 0) := rfl
  exact ⟨hwritten, resolve_readsAuthored.1 _ _ hwritten, _, hresolve,
    resolve_readsAuthored.2 _ _ hresolve⟩

end Field

end RegisterLayout
