import RegisterLayout.Proofs.Authored
import RegisterLayout.Proofs.Rounding

/-!
# What gives a tree its size

The bytes of a tree are those of its leaves: a word or a bit field has one of four widths and a blob
at least one byte, while a struct or a union has what is below it.  A placed node with a leaf takes
at least a byte and one without takes nothing, be the sizes whole or of the binary64 format.

Principal definitions: `Field.Occupied`, `Value.SizeOf`.
Principal results: `Field.sized_of_place`; `Field.sumSizes_placeFields`, placing keeps sizes.
-/

namespace RegisterLayout

namespace Number

variable {a b c : Number} {n : Nat}

theorem plus_eq_ok_iff : a.plus b = .ok c ↔ a.add? b = some c := by
  unfold plus
  cases a.add? b with
  | none => exact ⟨nofun, nofun⟩
  | some d =>
    exact ⟨fun h => congrArg some (Except.ok.inj h),
      fun h => congrArg Except.ok (Option.some.inj h)⟩

/-- What reaches a positive number is above nothing, and not below it. -/
theorem Reaches.pos (ha : a.Reaches n) (hn : 0 < n) :
    (0 : Number).lt a = true ∧ a.lt 0 = false := by
  cases a with
  | int m =>
    rw [reaches_int] at ha
    exact ⟨decide_eq_true (show (0 : Int) < m by omega), decide_eq_false (show ¬m < 0 by omega)⟩
  | real x =>
    rw [reaches_real hn] at ha
    cases x with
    | finite q =>
      have hq : (0 : Rat) < q := lt_of_lt_of_le (Nat.cast_pos.2 hn) ha
      exact ⟨decide_eq_true hq, decide_eq_false hq.not_gt⟩
    | infinite negative =>
      obtain rfl : negative = false := ha
      exact ⟨rfl, rfl⟩
    | _ => exact ha.elim

theorem reaches_of_same {w : Int} (h : a.same w = true) (hw : (n : Int) ≤ w) (hn : 0 < n) :
    a.Reaches n := by
  cases a with
  | int m =>
    obtain rfl : m = w := beq_iff_eq.1 h
    exact reaches_int.2 hw
  | real x =>
    have hx : x.toRat? = some (w : Rat) := beq_iff_eq.1 h
    rw [reaches_real hn]
    cases x with
    | finite q =>
      obtain rfl := Option.some.inj hx
      show ((n : Nat) : Rat) ≤ (w : Rat)
      exact_mod_cast hw
    | negativeZero =>
      have hzero : w = 0 := Rat.intCast_eq_zero_iff.1 (Option.some.inj hx).symm
      omega
    | _ => cases hx

end Number

/-! ## Sizes of something and of nothing -/

namespace Value

/-- The size of a node: at least the bits of a byte if something is there, otherwise none. -/
structure SizeOf (v : Value) (occupied : Prop) : Prop where
  reaches : occupied → ∃ n, v = .num n ∧ n.Reaches 8
  zero : ¬occupied → v = 0

variable {u v w : Value} {p q : Prop}

theorem SizeOf.of_reaches {n : Number} (hn : n.Reaches 8) (hp : p) : (num n).SizeOf p :=
  ⟨fun _ => ⟨n, rfl, hn⟩, fun h => absurd hp h⟩

theorem sizeOf_zero (hp : ¬p) : (0 : Value).SizeOf p := ⟨fun h => absurd h hp, fun _ => rfl⟩

theorem SizeOf.congr (hv : v.SizeOf p) (hpq : p ↔ q) : v.SizeOf q :=
  ⟨fun h => hv.reaches (hpq.2 h), fun h => hv.zero fun hp => h (hpq.1 hp)⟩

theorem SizeOf.exists_num (hv : v.SizeOf p) :
    ∃ n, v = .num n ∧ (p → n.Reaches 8) ∧ (¬p → n = 0) := by
  by_cases hp : p
  · obtain ⟨n, rfl, hn⟩ := hv.reaches hp
    exact ⟨n, rfl, fun _ => hn, fun h => absurd hp h⟩
  · obtain rfl := hv.zero hp
    exact ⟨0, rfl, fun h => absurd h hp, fun _ => rfl⟩

theorem SizeOf.addSize (hu : u.SizeOf p) (hv : v.SizeOf q) (h : u.addSize v = .ok w) :
    w.SizeOf (p ∨ q) := by
  obtain ⟨m, rfl, hm, hm0⟩ := hu.exists_num
  obtain ⟨n, rfl, hn, hn0⟩ := hv.exists_num
  simp only [Value.addSize, number_num, ok_bind, bind_eq_ok_iff, pure_eq_ok_iff,
    Number.plus_eq_ok_iff] at h
  obtain ⟨s, hs, rfl⟩ := h
  have hsign : ∀ {r : Prop} {k : Number}, (r → k.Reaches 8) → (¬r → k = 0) →
      k = 0 ∨ k.Reaches (2 ^ 3) := by
    intro r k hk hk0
    by_cases hr : r
    · exact .inr (hk hr)
    · exact .inl (hk0 hr)
  constructor
  · intro hpq
    exact ⟨s, rfl, Number.reaches_of_add? (k := 3) hs (hsign hm hm0) (hsign hn hn0)
      (hpq.imp hm hn)⟩
  · intro hpq
    rw [not_or] at hpq
    rw [hm0 hpq.1, hn0 hpq.2] at hs
    rw [← Option.some.inj hs]
    rfl

theorem SizeOf.maxSize (hu : u.SizeOf p) (hv : v.SizeOf q) :
    ∃ w, u.maxSize v = .ok w ∧ w.SizeOf (p ∨ q) := by
  obtain ⟨m, rfl, hm, hm0⟩ := hu.exists_num
  obtain ⟨n, rfl, hn, hn0⟩ := hv.exists_num
  refine ⟨if m.lt n then .num n else .num m, rfl, ?_⟩
  by_cases hp : p
  · by_cases hq : q
    · split
      · exact .of_reaches (hn hq) (.inl hp)
      · exact .of_reaches (hm hp) (.inl hp)
    · obtain rfl := hn0 hq
      rw [((hm hp).pos (by decide)).2, if_neg (by decide)]
      exact .of_reaches (hm hp) (.inl hp)
  · obtain rfl := hm0 hp
    by_cases hq : q
    · rw [((hn hq).pos (by decide)).1, if_pos rfl]
      exact .of_reaches (hn hq) (.inr hq)
    · obtain rfl := hn0 hq
      exact sizeOf_zero (not_or.2 ⟨hp, hq⟩)

end Value

namespace Field

/-! ## Leaves -/

/-- A node that has bytes of its own. -/
def IsLeaf : Field → Prop
  | struct _ _ | union _ _ => False
  | _ => True

/-- A tree with a leaf. -/
def Occupied (f : Field) : Prop := ∃ g ∈ f.nodes, g.IsLeaf

theorem IsLeaf.occupied {f : Field} (hf : f.IsLeaf) : f.Occupied := ⟨f, mem_nodes_self f, hf⟩

theorem occupied_struct {h : Header} {fields : List Field} :
    (struct h fields).Occupied ↔ ∃ f ∈ fields, f.Occupied :=
  exists_mem_nodes.trans (or_iff_right id)

theorem occupied_union {h : Header} {members : List Field} :
    (union h members).Occupied ↔ ∃ f ∈ members, f.Occupied :=
  exists_mem_nodes.trans (or_iff_right id)

/-- A node that has a size, which is that of its leaves. -/
def Sized (f : Field) : Prop := ∃ v, f.sizeBits = .ok v ∧ v.SizeOf f.Occupied

theorem sizeOf_of_sumSizes {fs : List Field} (h : ∀ f ∈ fs, f.Sized) {total v : Value} {p : Prop}
    (htotal : total.SizeOf p) (hv : sumSizes total fs = .ok v) :
    v.SizeOf (p ∨ ∃ f ∈ fs, f.Occupied) := by
  induction fs generalizing total p with
  | nil =>
    obtain rfl := Except.ok.inj hv
    exact htotal.congr (by simp)
  | cons f fs ih =>
    obtain ⟨⟨size, hsize, hf⟩, hfs⟩ := List.forall_mem_cons.1 h
    simp only [sumSizes, hsize, ok_bind, bind_eq_ok_iff] at hv
    obtain ⟨next, hnext, hv⟩ := hv
    exact (ih hfs (htotal.addSize hf hnext) hv).congr (by simp [or_assoc])

theorem sizeOf_maxSizes {fs : List Field} (h : ∀ f ∈ fs, f.Sized) {largest : Value} {p : Prop}
    (hlargest : largest.SizeOf p) :
    ∃ v, maxSizes largest fs = .ok v ∧ v.SizeOf (p ∨ ∃ f ∈ fs, f.Occupied) := by
  induction fs generalizing largest p with
  | nil => exact ⟨largest, rfl, hlargest.congr (by simp)⟩
  | cons f fs ih =>
    obtain ⟨⟨size, hsize, hf⟩, hfs⟩ := List.forall_mem_cons.1 h
    obtain ⟨next, hnext, hlarger⟩ := hlargest.maxSize hf
    obtain ⟨v, hv, hall⟩ := ih hfs hlarger
    refine ⟨v, ?_, hall.congr (by simp [or_assoc])⟩
    rw [maxSizes, hsize, ok_bind, hnext, ok_bind, hv]

theorem sized_union {h : Header} {members : List Field} (hmembers : ∀ f ∈ members, f.Sized) :
    (union h members).Sized := by
  cases members with
  | nil => exact ⟨0, rfl, Value.sizeOf_zero (by simp [occupied_union])⟩
  | cons f fs =>
    obtain ⟨⟨size, hsize, hf⟩, hfs⟩ := List.forall_mem_cons.1 hmembers
    obtain ⟨v, hv, hall⟩ := sizeOf_maxSizes hfs hf
    refine ⟨v, ?_, hall.congr (by simp [occupied_union])⟩
    rw [sizeBits, hsize, ok_bind, hv]

/-! ## Placed trees -/

/-- The widths of words are numbers, none of them below a byte. -/
theorem reaches_of_wordWidth? {v : Value} {n : Number} (h : wordWidth? v = some n) :
    v = .num n ∧ n.Reaches 8 := by
  obtain ⟨hv, hwidth⟩ := Option.filter_eq_some_iff.1 h
  obtain ⟨width, hmem, hsame⟩ := List.any_eq_true.1 hwidth
  have hle : (8 : Int) ≤ width := by
    simp only [wordWidths, List.mem_cons, List.not_mem_nil, or_false] at hmem
    omega
  have hreaches : n.Reaches 8 := Number.reaches_of_same hsame hle (by decide)
  cases v with
  | num m =>
    obtain rfl := Option.some.inj hv
    exact ⟨rfl, hreaches⟩
  | bool b =>
    -- A truth value counts as nought or one.
    obtain rfl := Option.some.inj hv
    rw [Number.reaches_int] at hreaches
    cases b <;> exact absurd hreaches (by decide)
  | _ => cases hv

theorem sized_of_wordWidth? {f : Field} (hf : f.IsLeaf) {v : Value} {n : Number}
    (hsize : f.sizeBits = .ok v) (h : wordWidth? v = some n) : f.Sized := by
  obtain ⟨rfl, hn⟩ := reaches_of_wordWidth? h
  exact ⟨_, hsize, .of_reaches hn hf.occupied⟩

theorem sized_blob {b : Blob} (h : 1 ≤ b.bytes.whole) : (blob b).Sized := by
  have hsize : (blob b).sizeBits = .ok (.int (b.bytes.whole * 8)) := by
    rw [sizeBits, Value.eq_int_of_one_le_whole h]
    rfl
  have hreaches : (Number.int (b.bytes.whole * 8)).Reaches 8 := Number.reaches_int.2 (by omega)
  exact ⟨_, hsize, .of_reaches hreaches (IsLeaf.occupied trivial)⟩

section

variable {path : Path} {index : Nat} {start : Number}

/-- **Every node of a placed tree has the size of its leaves**: at least a byte if it has leaves,
and nothing otherwise. -/
theorem sized_of_place {f : Field} {r : Field × Number} (h : place path index start f = .ok r) :
    ∀ g ∈ r.1.nodes, g.Sized := by
  induction f using inductionOn generalizing path index start r with
  | word w =>
    obtain ⟨-, placed, hplaced, rfl⟩ := place_word_eq_ok_iff.1 h
    obtain ⟨⟨width, hwidth⟩, hword⟩ := placeWord_eq_ok hplaced
    have hsize : (word placed.1).sizeBits = .ok w.bits := by rw [hword, sizeBits]
    exact List.forall_mem_singleton.2 (sized_of_wordWidth? trivial hsize hwidth)
  | bitfield b =>
    obtain ⟨-, placed, hplaced, rfl⟩ := place_bitfield_eq_ok_iff.1 h
    obtain ⟨width, named, stop, hwidth, -, rfl⟩ := placeBitField_eq_ok hplaced
    exact List.forall_mem_singleton.2 (sized_of_wordWidth? trivial rfl hwidth)
  | blob b =>
    obtain ⟨-, placed, hplaced, rfl⟩ := place_blob_eq_ok_iff.1 h
    obtain ⟨hone, hblob⟩ := placeBlob_eq_ok hplaced
    rw [hblob]
    exact List.forall_mem_singleton.2 (sized_blob hone)
  | struct header fields ih =>
    obtain ⟨-, placed, hplaced, ⟨size, hsize⟩, rfl⟩ := place_struct_eq_ok_iff.1 h
    have hbelow : ∀ c ∈ placed.1, ∀ g ∈ c.nodes, g.Sized := by
      intro c hc
      obtain ⟨k, hk⟩ := List.mem_iff_getElem?.1 hc
      obtain ⟨f, hf, there, stop, -, hplaced⟩ := placeFields_eq_ok hplaced hk
      exact ih f hf hplaced
    have hall := sizeOf_of_sumSizes (fun c hc => hbelow c hc c (mem_nodes_self c))
      (Value.sizeOf_zero not_false) hsize
    rw [false_or, ← occupied_struct] at hall
    exact forall_mem_nodes.2 ⟨⟨size, hsize, hall⟩, hbelow⟩
  | union header members ih =>
    obtain ⟨-, -, -, placed, hplaced, rfl⟩ := place_union_eq_ok_iff.1 h
    have hbelow : ∀ c ∈ placed.1, ∀ g ∈ c.nodes, g.Sized := by
      intro c hc
      obtain ⟨k, hk⟩ := List.mem_iff_getElem?.1 hc
      obtain ⟨f, hf, -, stop, hplaced⟩ := placeMembers_eq_ok hplaced hk
      exact ih f hf hplaced
    exact forall_mem_nodes.2 ⟨sized_union fun c hc => hbelow c hc c (mem_nodes_self c), hbelow⟩
  | stray i => exact absurd h place_stray_ne_ok

end

/-! ## Sizes before and after placing -/

theorem forall₂_authoredAll {R : Field → Field → Prop} {fs : List Field}
    (h : ∀ f ∈ fs, R f.authored f) : List.Forall₂ R (authoredAll fs) fs := by
  induction fs with
  | nil => exact .nil
  | cons f fs ih =>
    obtain ⟨hf, hfs⟩ := List.forall_mem_cons.1 h
    exact .cons hf (ih hfs)

theorem sizeBits_authored (f : Field) : f.authored.sizeBits = f.sizeBits := by
  induction f using inductionOn with
  | struct h fields ih => exact sumSizes_congr (forall₂_authoredAll ih) 0
  | union h members ih => exact sizeBits_union_congr (forall₂_authoredAll ih)
  | _ => rfl

/-- Fields have a sum of sizes once placed if they had it before. -/
theorem sumSizes_placeFields {path : Path} {index : Nat} {start : Number} {parent : Text}
    {fields : List Field} {placed : List Field × Number}
    (h : placeFields parent path index start fields = .ok placed) :
    sumSizes 0 placed.1 = sumSizes 0 fields := by
  have hsame : authoredAll placed.1 = authoredAll fields :=
    authored_of_placeFields (fun _ _ => authored_of_place) h
  have hsum : ∀ fs, sumSizes 0 (authoredAll fs) = sumSizes 0 fs := fun fs =>
    sumSizes_congr (forall₂_authoredAll fun f _ => sizeBits_authored f) 0
  rw [← hsum, hsame, hsum]

end Field

end RegisterLayout
