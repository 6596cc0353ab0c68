import RegisterLayout.Proofs.Outcome
import RegisterLayout.Proofs.Tree

/-!
# Whole sizes

The size of a tree whose widths and counts of bytes are whole numbers is a whole number: that of
a struct is the sum, that of a union the greatest of the sizes below.

Principal definitions: `Field.SizesWhole`, `Field.bitCount`, `Field.byteCount`.
Principal results: `Field.sizeBits_eq`, `Field.bitCount_struct`, `Field.bitCount_union`.
-/

namespace RegisterLayout

namespace Field

/-- What gives a node a size of its own is a whole number. -/
def OwnSizeWhole : Field → Prop
  | word w => ∃ n, w.bits = .int n
  | bitfield b => (∃ n, b.bits = .int n) ∧ ∀ i ∈ b.items, ∃ n, i.bits = .int n
  | blob b => ∃ n, b.bytes = .int n
  | stray i => ∃ n, i.bits = .int n
  | struct _ _ | union _ _ => True

instance (f : Field) : Decidable f.OwnSizeWhole :=
  have hint : ∀ v : Value, v.int?.isSome = true ↔ ∃ n, v = .int n := by
    simp [Option.isSome_iff_exists]
  match f with
  | word w => decidable_of_iff _ (hint w.bits)
  | bitfield b =>
    decidable_of_iff (b.bits.int?.isSome = true ∧ ∀ i ∈ b.items, i.bits.int?.isSome = true) (by
      simp only [hint, OwnSizeWhole])
  | blob b => decidable_of_iff _ (hint b.bytes)
  | stray i => decidable_of_iff _ (hint i.bits)
  | struct _ _ | union _ _ => isTrue trivial

/-- All widths and counts of bytes in a tree are whole numbers. -/
def SizesWhole (f : Field) : Prop := ∀ g ∈ f.nodes, g.OwnSizeWhole

instance (f : Field) : Decidable f.SizesWhole := inferInstanceAs (Decidable (∀ g ∈ f.nodes, _))

/-- The size of a node in bits, if that is a whole number. -/
def bitCount (f : Field) : Int :=
  match f.sizeBits with
  | .ok (.num (.int n)) => n
  | _ => 0

/-- The size of a node in whole bytes. -/
def byteCount (f : Field) : Int := f.bitCount / 8

theorem SizesWhole.own {f : Field} (hf : f.SizesWhole) : f.OwnSizeWhole :=
  (forall_mem_nodes.1 hf).1

theorem SizesWhole.child {f c : Field} (hf : f.SizesWhole) (hc : c ∈ f.children) :
    c.SizesWhole :=
  (forall_mem_nodes.1 hf).2 c hc

theorem bitCount_of_sizeBits {f : Field} {n : Int} (h : f.sizeBits = .ok (.int n)) :
    f.bitCount = n := by
  simp [bitCount, h]

/-! ## Sums and maxima -/

theorem sumSizes_eq {fs : List Field} (h : ∀ f ∈ fs, f.sizeBits = .ok (.int f.bitCount))
    (total : Int) :
    sumSizes (.int total) fs = .ok (.int (total + (fs.map bitCount).sum)) := by
  induction fs generalizing total with
  | nil => simp [sumSizes]
  | cons f fs ih =>
    have hf := h f List.mem_cons_self
    have hfs := ih fun g hg => h g (List.mem_cons_of_mem _ hg)
    have hadd : (Value.int total).addSize (.int f.bitCount) = .ok (.int (total + f.bitCount)) := rfl
    rw [sumSizes, hf]
    show (Value.int total).addSize (.int f.bitCount) >>= (sumSizes · fs) = _
    rw [hadd]
    show sumSizes (.int (total + f.bitCount)) fs = _
    rw [hfs, List.map_cons, List.sum_cons, Int.add_assoc]

theorem maxSizes_eq {fs : List Field} (h : ∀ f ∈ fs, f.sizeBits = .ok (.int f.bitCount))
    (largest : Int) :
    maxSizes (.int largest) fs = .ok (.int ((fs.map bitCount).foldl max largest)) := by
  induction fs generalizing largest with
  | nil => simp [maxSizes]
  | cons f fs ih =>
    have hf := h f List.mem_cons_self
    have hfs := ih fun g hg => h g (List.mem_cons_of_mem _ hg)
    have hmax : (Value.int largest).maxSize (.int f.bitCount)
        = .ok (.int (max largest f.bitCount)) := by
      show Except.ok (if decide (largest < f.bitCount) = true then _ else _) = _
      congr 1
      split <;> rename_i hlt <;> simp only [decide_eq_true_eq] at hlt <;> congr 2 <;> omega
    rw [maxSizes, hf]
    show (Value.int largest).maxSize (.int f.bitCount) >>= (maxSizes · fs) = _
    rw [hmax]
    exact hfs _

/-! ## The size of each kind of node -/

theorem bitCount_word {w : Word} {n : Int} (h : w.bits = .int n) : (word w).bitCount = n :=
  bitCount_of_sizeBits (by rw [sizeBits, h])

theorem bitCount_bitfield {b : BitField} {n : Int} (h : b.bits = .int n) :
    (bitfield b).bitCount = n :=
  bitCount_of_sizeBits (by rw [sizeBits, h])

theorem bitCount_blob {b : Blob} {n : Int} (h : b.bytes = .int n) : (blob b).bitCount = n * 8 :=
  bitCount_of_sizeBits (by rw [sizeBits, h]; rfl)

theorem sizeBits_struct {h : Header} {fields : List Field}
    (hf : ∀ f ∈ fields, f.sizeBits = .ok (.int f.bitCount)) :
    (struct h fields).sizeBits = .ok (.int (fields.map bitCount).sum) := by
  rw [sizeBits, ← Int.zero_add (fields.map bitCount).sum]
  exact sumSizes_eq hf 0

theorem sizeBits_union {h : Header} {members : List Field}
    (hf : ∀ f ∈ members, f.sizeBits = .ok (.int f.bitCount)) :
    (union h members).sizeBits = .ok (.int ((members.map bitCount).max?.getD 0)) := by
  cases members with
  | nil => rfl
  | cons m ms =>
    have hms := maxSizes_eq fun f hm => hf f (List.mem_cons_of_mem _ hm)
    rw [sizeBits, hf m List.mem_cons_self]
    exact hms m.bitCount

/-- **The size of a tree of whole sizes is a whole number.** -/
theorem sizeBits_eq {f : Field} (hf : f.SizesWhole) : f.sizeBits = .ok (.int f.bitCount) := by
  induction f using inductionOn with
  | word w =>
    obtain ⟨n, hn⟩ := hf.own
    rw [bitCount_word hn, sizeBits, hn]
  | bitfield b =>
    obtain ⟨⟨n, hn⟩, -⟩ := hf.own
    rw [bitCount_bitfield hn, sizeBits, hn]
  | blob b =>
    obtain ⟨n, hn⟩ := hf.own
    rw [bitCount_blob hn, sizeBits, hn]
    rfl
  | struct h fields ih =>
    have hsizes := sizeBits_struct (h := h) fun f hm => ih f hm (hf.child hm)
    rw [hsizes, bitCount_of_sizeBits hsizes]
  | union h members ih =>
    have hsizes := sizeBits_union (h := h) fun f hm => ih f hm (hf.child hm)
    rw [hsizes, bitCount_of_sizeBits hsizes]
  | stray i =>
    obtain ⟨n, hn⟩ := hf.own
    have hsize : (stray i).sizeBits = .ok (.int n) := by rw [sizeBits, hn]
    rw [hsize, bitCount_of_sizeBits hsize]

theorem bitCount_struct {h : Header} {fields : List Field} (hf : ∀ f ∈ fields, f.SizesWhole) :
    (struct h fields).bitCount = (fields.map bitCount).sum :=
  bitCount_of_sizeBits (sizeBits_struct fun f hm => sizeBits_eq (hf f hm))

theorem bitCount_union {h : Header} {members : List Field} (hf : ∀ f ∈ members, f.SizesWhole) :
    (union h members).bitCount = (members.map bitCount).max?.getD 0 :=
  bitCount_of_sizeBits (sizeBits_union fun f hm => sizeBits_eq (hf f hm))

end Field

end RegisterLayout
