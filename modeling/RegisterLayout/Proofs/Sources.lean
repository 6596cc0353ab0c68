import RegisterLayout.Proofs.Descent
import RegisterLayout.Proofs.Intact
import RegisterLayout.Proofs.ScalarReading
import RegisterLayout.Value.OfNode

/-!
# Where values come from

The node from which a value inside a document was read.  The value under a text in a mapping comes
from the last entry whose key is read as that text, since an entry replaces those before it with
the same key; the value at an index in a list comes from the item under that index.

Principal definitions: `Node.sourceStep?`, `Looped.source?`, `Looped.BuiltFrom`.
Principal result: `Looped.builtFrom_of_at?`.
-/

namespace RegisterLayout

open Document

/-- A node whose value is a text. -/
def Document.Node.readsAs (read : Node → Except Failure Value) (s : Text) (n : Node) : Bool :=
  match read n with
  | .ok (.str t) => t == s
  | _ => false

/-- The child of a node that the value under a step was read from. -/
def Document.Node.sourceStep? (read : Node → Except Failure Value) (n : Node) (step : Value) :
    Option Node :=
  match n, step with
  | .mapping _ _ entries, .str s =>
    (entries.reverse.find? fun entry => entry.1.readsAs read s).map Prod.snd
  | .sequence _ _ items, .num (.int (.ofNat i)) => items[i]?
  | _, _ => none

/-- A node that a value was read from: it stands for the value, or it is one of the pairs that make
an ordered mapping. -/
def Document.Node.Reads (read : Node → Except Failure Value) (n : Node) (v : Value) : Prop :=
  read n = .ok v ∨ ∃ start tag key value k w, n = .mapping start tag [(key, value)] ∧
    read key = .ok k ∧ read value = .ok w ∧ v = .tuple [k, w]

namespace Looped

/-- The value that a node of a document stands for, with its marks. -/
def valueOf (document : Looped Node) (n : Node) : Except Failure Value := do
  let (loops, _) ← admittedLoops document
  Value.ofNode (Value.ofLoop loops) n

/-- The value of a document, with its marks. -/
def marked (document : Looped Node) : Except Failure (Looped Value) := do
  let (loops, met) ← admittedLoops document
  let bodies ← met.mapM fun l => do return (l, ← document.valueOf ((Node.again l).opened loops))
  return ⟨← document.valueOf document.root, bodies⟩

/-- The node that the value at a path from a node was read from. -/
def sourceFrom? (document : Looped Node) (n : Node) (path : List Value) : Option Node :=
  path.foldlM (fun n step => (n.opened document.loops).sourceStep? document.valueOf step) n

/-- The node that the value at a path was read from. -/
def source? (document : Looped Node) (path : List Value) : Option Node :=
  document.sourceFrom? document.root path

/-- A value was read from a node of a document, and perhaps unfolded afterwards. -/
def BuiltFrom (document : Looped Node) (n : Node) (v : Value) : Prop :=
  ∃ whole w, document.marked = .ok whole ∧ n.Reads document.valueOf w ∧ w.Unfolds whole.loops v

end Looped

/-! ## What nodes are read as -/

namespace Value

variable {inner : Loop → Except Failure Value} {v : Value}

/-- A mark is read as a scalar or as itself. -/
theorem ofLoop_cases {loops : Loops Node} {l : Loop} (h : ofLoop loops l = .ok v) :
    v.isScalar = true ∨ v = .again l := by
  unfold ofLoop at h
  split at h
  · exact .inl (isScalar_of_readScalar h)
  · exact .inr (Except.ok.inj h).symm

theorem forall₂_of_ofNodes {items : List Node} {xs : List Value}
    (h : ofNodes inner items = .ok xs) :
    List.Forall₂ (Node.Reads (ofNode inner)) items xs := by
  induction items generalizing xs with
  | nil =>
    obtain rfl := Except.ok.inj h
    exact .nil
  | cons item items ih =>
    rw [ofNodes] at h
    obtain ⟨x, hx, h⟩ := bind_eq_ok_iff.1 h
    obtain ⟨xs, hxs, h⟩ := bind_eq_ok_iff.1 h
    obtain rfl := pure_eq_ok_iff.1 h
    exact .cons (.inl hx) (ih hxs)

theorem forall₂_of_pairsOf {items : List Node} {xs : List Value}
    (h : pairsOf inner items = .ok xs) :
    List.Forall₂ (Node.Reads (ofNode inner)) items xs := by
  induction items generalizing xs with
  | nil =>
    obtain rfl := Except.ok.inj h
    exact .nil
  | cons item items ih =>
    match item with
    | .mapping start tag [(key, value)] =>
      rw [pairsOf] at h
      obtain ⟨k, hk, h⟩ := bind_eq_ok_iff.1 h
      obtain ⟨w, hw, h⟩ := bind_eq_ok_iff.1 h
      obtain ⟨rest, hrest, h⟩ := bind_eq_ok_iff.1 h
      obtain rfl := pure_eq_ok_iff.1 h
      exact .cons (.inr ⟨start, tag, key, value, k, w, rfl, hk, hw, rfl⟩) (ih hrest)
    | .mapping _ _ [] | .mapping _ _ (_ :: _ :: _) | .scalar .. | .sequence .. | .again _ => cases h

/-- The entries of a mapping without a key that merges. -/
theorem forall₂_of_ofEntries {entries : List (Node × Node)}
    {r : List (Value × Value) × List (Value × Value)}
    (hfree : ∀ entry ∈ entries, entry.1.tag? ≠ some .merge) (h : ofEntries inner entries = .ok r) :
    r.1 = [] ∧ List.Forall₂ (fun entry pair => ofNode inner entry.1 = .ok pair.1 ∧
      ofNode inner entry.2 = .ok pair.2) entries r.2 := by
  induction entries generalizing r with
  | nil =>
    obtain rfl := Except.ok.inj h
    exact ⟨rfl, .nil⟩
  | cons entry entries ih =>
    obtain ⟨hentry, hentries⟩ := List.forall_mem_cons.1 hfree
    obtain ⟨key, value⟩ := entry
    rw [ofEntries] at h
    obtain ⟨r', hr', h⟩ := bind_eq_ok_iff.1 h
    obtain ⟨hmerged, hown⟩ := ih hentries hr'
    dsimp only at h
    split at h
    · exact absurd rfl hentry
    · obtain ⟨k, hk, h⟩ := bind_eq_ok_iff.1 h
      obtain ⟨k', hk', h⟩ := bind_eq_ok_iff.1 h
      obtain ⟨w, hw, h⟩ := bind_eq_ok_iff.1 h
      obtain rfl := pure_eq_ok_iff.1 h
      obtain rfl := (asKey_eq_ok_iff.1 hk').1
      exact ⟨hmerged, .cons ⟨hk, hw⟩ hown⟩

/-- What a node that is no mark is read as: a scalar, or a collection of what stands in it. -/
theorem ofNode_cases {n : Node} (hn : n.isAgain = false)
    (hfree : ∀ entry ∈ n.entries, entry.1.tag? ≠ some .merge) (h : ofNode inner n = .ok v) :
    v.isScalar = true ∨
    (∃ start tag items xs, n = .sequence start tag items ∧ v = .list xs ∧
      List.Forall₂ (Node.Reads (ofNode inner)) items xs) ∨
    (∃ start entries pairs, n = .mapping start .map entries ∧ v = .map (putEntries pairs) ∧
      List.Forall₂ (fun entry pair => ofNode inner entry.1 = .ok pair.1 ∧
        ofNode inner entry.2 = .ok pair.2) entries pairs) ∨
    ∃ xs, v = .set xs := by
  cases n with
  | again l => cases hn
  | scalar start tag text =>
    rw [ofNode] at h
    exact .inl (isScalar_of_readScalar h)
  | sequence start tag items =>
    cases tag with
    | seq =>
      obtain ⟨xs, hxs, h⟩ := bind_eq_ok_iff.1 h
      obtain rfl := pure_eq_ok_iff.1 h
      exact .inr (.inl ⟨start, _, items, xs, rfl, rfl, forall₂_of_ofNodes hxs⟩)
    | omap | pairs =>
      obtain ⟨xs, hxs, h⟩ := bind_eq_ok_iff.1 h
      obtain rfl := pure_eq_ok_iff.1 h
      exact .inr (.inl ⟨start, _, items, xs, rfl, rfl, forall₂_of_pairsOf hxs⟩)
    | _ => cases h
  | mapping start tag entries =>
    cases tag with
    | map =>
      obtain ⟨⟨merged, own⟩, hr, h⟩ := bind_eq_ok_iff.1 h
      obtain rfl := pure_eq_ok_iff.1 h
      obtain ⟨rfl, hown⟩ := forall₂_of_ofEntries hfree hr
      exact .inr (.inr (.inl ⟨start, entries, own, rfl, rfl, hown⟩))
    | set =>
      obtain ⟨r, hr, h⟩ := bind_eq_ok_iff.1 h
      obtain rfl := pure_eq_ok_iff.1 h
      exact .inr (.inr (.inr ⟨_, rfl⟩))
    | _ =>
      obtain ⟨text, ht, h⟩ := bind_eq_ok_iff.1 h
      exact .inl (isScalar_of_readScalar h)

/-- The value under a text was read from the last entry whose key is read as the text. -/
theorem find?_of_lookup? {read : Node → Except Failure Value} {entries : List (Node × Node)}
    {pairs : List (Value × Value)} {s : Text}
    (h : List.Forall₂ (fun entry pair => read entry.1 = .ok pair.1 ∧ read entry.2 = .ok pair.2)
      entries pairs) (hv : lookup? pairs s = some v) :
    ∃ entry, entries.find? (fun entry => entry.1.readsAs read s) = some entry ∧
      read entry.2 = .ok v := by
  induction h with
  | nil => cases hv
  | @cons entry pair entries pairs hpair _ ih =>
    by_cases hkey : pair.1 = .str s
    · obtain ⟨k, w⟩ := pair
      obtain rfl : k = .str s := hkey
      obtain rfl := Option.some.inj (lookup?_cons_self.symm.trans hv)
      have hreads : entry.1.readsAs read s = true := by simp [Node.readsAs, hpair.1]
      exact ⟨entry, List.find?_cons_of_pos hreads, hpair.2⟩
    · rw [lookup?_cons_of_ne hkey] at hv
      have hreads : ¬entry.1.readsAs read s = true := by
        rw [Node.readsAs, hpair.1]
        split
        · next t heq =>
          have hne : t ≠ s := fun ht => hkey (ht ▸ Except.ok.inj heq)
          simpa using hne
        · exact Bool.false_ne_true
      rw [List.find?_cons_of_neg (by exact hreads)]
      exact ih hv

/-- A node that counts as a collection and is no mark is read as one. -/
theorem isCollection_of_ofNode {n : Node} {tag : Tag} (htag : n.tag? = some tag)
    (hcollection : tag.isCollection = true) (h : ofNode inner n = .ok v) :
    v.isCollection = true := by
  cases n with
  | again l => cases htag
  | scalar start tag' text =>
    obtain rfl := Option.some.inj htag
    cases tag' with
    | seq | map | set | omap | pairs => cases h
    | _ => cases hcollection
  | sequence start tag' items =>
    obtain rfl := Option.some.inj htag
    cases tag' with
    | seq | omap | pairs =>
      obtain ⟨xs, hxs, h⟩ := bind_eq_ok_iff.1 h
      obtain rfl := pure_eq_ok_iff.1 h
      rfl
    | map | set => cases h
    | _ => cases hcollection
  | mapping start tag' entries =>
    obtain rfl := Option.some.inj htag
    cases tag' with
    | map | set =>
      obtain ⟨r, hr, h⟩ := bind_eq_ok_iff.1 h
      obtain rfl := pure_eq_ok_iff.1 h
      rfl
    | seq | omap | pairs =>
      obtain ⟨text, ht, h⟩ := bind_eq_ok_iff.1 h
      cases h
    | _ => cases hcollection

end Value

namespace Looped

variable {document : Looped Node} {whole : Looped Value} {loops : Loops Node} {met : List Loop}
  {n : Node} {step v w : Value}

theorem MergeFree.entries (h : document.MergeFree) (hn : n ∈ document.nodes) :
    ∀ entry ∈ n.entries, entry.1.tag? ≠ some .merge := by
  intro entry hentry htag
  refine h n hn entry hentry ?_
  cases hkey : entry.1 with
  | again l =>
    rw [hkey] at htag
    cases htag
  | _ => rwa [hkey] at htag

theorem valueOf_eq (h : admittedLoops document = .ok (loops, met)) :
    document.valueOf = Value.ofNode (Value.ofLoop loops) := by
  funext n
  rw [valueOf, h]
  rfl

theorem mem_of_lookup {read : Loop → Except Failure Value} {bodies : Loops Value}
    (h : List.Forall₂ (fun l entry => (do return (l, ← read l)) = .ok entry) met bodies)
    {l : Loop} {body : Value} (hl : bodies.lookup l = some body) : l ∈ met ∧ read l = .ok body := by
  induction h with
  | nil => cases hl
  | @cons k entry met bodies hentry _ ih =>
    obtain ⟨value, hvalue, hentry⟩ := bind_eq_ok_iff.1 hentry
    obtain rfl := pure_eq_ok_iff.1 hentry
    rw [List.lookup_cons] at hl
    by_cases hk : l = k
    · subst hk
      rw [beq_self_eq_true] at hl
      obtain rfl := Option.some.inj hl
      exact ⟨List.mem_cons_self, hvalue⟩
    · have hne : (l == k) = false := by simpa using hk
      rw [hne] at hl
      obtain ⟨hmem, hread⟩ := ih hl
      exact ⟨List.mem_cons_of_mem _ hmem, hread⟩

/-- Every mark of a document that has been read is one that was met. -/
theorem marked_eq_ok (h : document.marked = .ok whole) :
    ∃ loops met, admittedLoops document = .ok (loops, met) ∧
      document.valueOf document.root = .ok whole.root ∧
      ∀ l body, whole.loops.lookup l = some body →
        l ∈ met ∧ document.valueOf ((Node.again l).opened loops) = .ok body := by
  obtain ⟨⟨loops, met⟩, hadmitted, h⟩ := bind_eq_ok_iff.1 h
  obtain ⟨bodies, hbodies, h⟩ := bind_eq_ok_iff.1 h
  obtain ⟨root, hroot, h⟩ := bind_eq_ok_iff.1 h
  obtain rfl := pure_eq_ok_iff.1 h
  exact ⟨loops, met, hadmitted, hroot, fun l body hl =>
    mem_of_lookup (mapM_eq_ok_forall₂ hbodies) hl⟩

/-- The body of a mark was read from what the mark stands for. -/
theorem valueOf_body (hfree : document.MergeFree) (hmarked : document.marked = .ok whole)
    {l : Loop} {body : Value} (hl : whole.loops.lookup l = some body) :
    document.valueOf ((Node.again l).opened document.loops) = .ok body := by
  obtain ⟨loops, met, hadmitted, -, hbodies⟩ := marked_eq_ok hmarked
  obtain ⟨hmet, hread⟩ := hbodies l body hl
  rwa [(intact_of_admittedLoops hfree hadmitted).opened_of_met hmet] at hread

theorem opened_isAgain (hsound : ∀ loop ∈ document.loops, loop.2.isAgain = false) {l : Loop} :
    document.loops.lookup l = none ∨ ((Node.again l).opened document.loops).isAgain = false := by
  cases hl : document.loops.lookup l with
  | none => exact .inl rfl
  | some body =>
    obtain ⟨before, after, hloops, -⟩ := List.lookup_eq_some_iff.1 hl
    have hbody := hsound (l, body) (hloops ▸ by simp)
    exact .inr (by simpa [Node.opened, hl] using hbody)

theorem bodiesCollect_marked (hsound : ∀ loop ∈ document.loops, loop.2.isAgain = false)
    (hfree : document.MergeFree) (hmarked : document.marked = .ok whole) :
    Value.BodiesCollect whole.loops := by
  intro l body hl
  have hread := valueOf_body hfree hmarked hl
  obtain ⟨loops, met, hadmitted, -, hbodies⟩ := marked_eq_ok hmarked
  have hintact := intact_of_admittedLoops hfree hadmitted
  have hcollects := hintact.met l (hbodies l body hl).1
  rw [valueOf_eq hadmitted] at hread
  rcases opened_isAgain hsound (l := l) with hnone | hagain
  · have hself : (Node.again l).opened document.loops = .again l := by simp [Node.opened, hnone]
    rw [hself] at hread
    rcases hintact.lookup l with hlookup | ⟨hnot, -⟩
    · refine .inr ?_
      have hloop : Value.ofLoop loops l = .ok (.again l) := by
        rw [Value.ofLoop, hlookup, hnone]
      exact Except.ok.inj (hread.symm.trans hloop)
    · exact absurd hcollects hnot
  · obtain ⟨tag, htag⟩ : ∃ tag, ((Node.again l).opened document.loops).tag? = some tag := by
      cases hopened : (Node.again l).opened document.loops with
      | again k =>
        rw [hopened] at hagain
        cases hagain
      | _ => exact ⟨_, rfl⟩
    exact .inl (Value.isCollection_of_ofNode htag (hcollects tag htag) hread)

theorem mem_parts_of_sourceStep? {read : Node → Except Failure Value} {m : Node}
    (h : n.sourceStep? read step = some m) : m ∈ n.parts := by
  unfold Node.sourceStep? at h
  split at h
  · obtain ⟨entry, hentry, rfl⟩ := Option.map_eq_some_iff.1 h
    exact Node.value_mem_parts (List.mem_reverse.1 (List.mem_of_find?_eq_some hentry))
  · exact List.mem_of_getElem? h
  · cases h

theorem mem_nodes_of_sourceStep? {m : Node} (hn : n ∈ document.nodes)
    (h : (n.opened document.loops).sourceStep? document.valueOf step = some m) :
    m ∈ document.nodes :=
  part_mem_nodes (opened_mem_nodes hn) (mem_parts_of_sourceStep? h)

theorem mem_nodes_of_sourceFrom? {m : Node} {path : List Value} (hn : n ∈ document.nodes)
    (h : document.sourceFrom? n path = some m) : m ∈ document.nodes := by
  induction path generalizing n with
  | nil =>
    obtain rfl := Option.some.inj h
    exact hn
  | cons step path ih =>
    rw [sourceFrom?, List.foldlM_cons] at h
    obtain ⟨k, hk, h⟩ := Option.bind_eq_some_iff.1 h
    exact ih (mem_nodes_of_sourceStep? hn hk) h

/-- A step down in a node that is no mark, and in the value that it is read as. -/
theorem sourceStep?_of_read {read : Node → Except Failure Value}
    {inner : Loop → Except Failure Value} (hread : read = Value.ofNode inner)
    (hn : n.isAgain = false) (hfree : ∀ entry ∈ n.entries, entry.1.tag? ≠ some .merge)
    (h : read n = .ok w) {loops : Loops Value} (hstep : w.step? loops step = some v) :
    ∃ m, n.sourceStep? read step = some m ∧ m.Reads read v := by
  subst hread
  rcases Value.ofNode_cases hn hfree h with hscalar | ⟨start, tag, items, xs, rfl, rfl, hitems⟩ |
    ⟨start, entries, pairs, rfl, rfl, hpairs⟩ | ⟨xs, rfl⟩
  · cases w <;> first | (cases hscalar; done) | cases hstep
  · match step with
    | .num (.int (.ofNat i)) =>
      have hv : xs[i]? = some v := hstep
      obtain ⟨hi, hxs⟩ := List.getElem?_eq_some_iff.1 hv
      have hlength := hitems.length_eq
      have hitem : i < items.length := by omega
      refine ⟨items[i], List.getElem?_eq_getElem hitem, ?_⟩
      rw [← hxs]
      exact hitems.get hitem hi
    | .num (.int (.negSucc _)) | .num (.real _) => cases hstep
    | .null | .bool _ | .str _ | .date _ | .moment _ _ | .bytes _ | .list _ | .tuple _ | .set _
    | .map _ | .again _ => cases hstep
  · cases step with
    | str s =>
      have hv : Value.lookup? (Value.putEntries pairs) s = some v := hstep
      rw [Value.lookup?_putEntries] at hv
      obtain ⟨entry, hentry, hvalue⟩ :=
        Value.find?_of_lookup? (List.rel_reverse hpairs) hv
      refine ⟨entry.2, ?_, .inl hvalue⟩
      show Option.map Prod.snd _ = _
      rw [hentry, Option.map_some]
    | _ => cases hstep
  · cases hstep

/-- Where a step leads down, the node is no mark once it is opened, and the step leads down in what
is read there. -/
theorem step?_opened (hsound : ∀ loop ∈ document.loops, loop.2.isAgain = false)
    (hfree : document.MergeFree) (hmarked : document.marked = .ok whole) (hn : n ∈ document.nodes)
    (h : document.valueOf n = .ok w) (hstep : w.step? whole.loops step = some v) :
    (n.opened document.loops).isAgain = false ∧
      ∃ x, document.valueOf (n.opened document.loops) = .ok x ∧
        x.step? whole.loops step = some v := by
  obtain ⟨loops, met, hadmitted, -⟩ := marked_eq_ok hmarked
  have hread := h
  rw [valueOf_eq hadmitted] at hread
  by_cases hagain : n.isAgain = true
  · obtain ⟨l, rfl⟩ : ∃ l, n = .again l := by
      cases n with
      | again l => exact ⟨l, rfl⟩
      | _ => cases hagain
    rcases Value.ofLoop_cases hread with hscalar | rfl
    · cases w <;> first | (cases hscalar; done) | cases hstep
    · -- The step goes through the body of the mark, which is a collection.
      cases hl : whole.loops.lookup l with
      | none =>
        simp [Value.step?, Value.opened, hl] at hstep
      | some body =>
        have hbody := valueOf_body hfree hmarked hl
        have hopened : (Value.again l).opened whole.loops = body := by simp [Value.opened, hl]
        have hcollection : body.isCollection = true := by
          refine (bodiesCollect_marked hsound hfree hmarked l body hl).resolve_right ?_
          rintro rfl
          unfold Value.step? at hstep
          rw [hopened] at hstep
          cases hstep
        refine ⟨(opened_isAgain hsound).resolve_left fun hnone => ?_, body, hbody, ?_⟩
        · have hself : (Node.again l).opened document.loops = .again l := by
            simp [Node.opened, hnone]
          rw [hself, h] at hbody
          cases hbody
          cases hcollection
        · have hbodyOpened : body.opened whole.loops = body := by
            cases body with
            | again k => cases hcollection
            | _ => rfl
          unfold Value.step? at hstep ⊢
          rwa [hopened, ← hbodyOpened] at hstep
  · have hagain : n.isAgain = false := by simpa using hagain
    rw [Node.opened_of_not_again hagain]
    exact ⟨hagain, w, h, hstep⟩

/-- **A step down in a document** leads to the node that the value it leads to was read from. -/
theorem sourceStep?_of_step? (hsound : ∀ loop ∈ document.loops, loop.2.isAgain = false)
    (hfree : document.MergeFree) (hmarked : document.marked = .ok whole) (hn : n ∈ document.nodes)
    (h : n.Reads document.valueOf w) (hstep : w.step? whole.loops step = some v) :
    ∃ m, (n.opened document.loops).sourceStep? document.valueOf step = some m ∧
      m.Reads document.valueOf v := by
  rcases h with hread | ⟨start, tag, key, value, k, x, rfl, -, -, rfl⟩
  · obtain ⟨loops, met, hadmitted, -⟩ := marked_eq_ok hmarked
    obtain ⟨hagain, x, hx, hstep⟩ := step?_opened hsound hfree hmarked hn hread hstep
    exact sourceStep?_of_read (valueOf_eq hadmitted) hagain (hfree.entries (opened_mem_nodes hn))
      hx hstep
  · cases hstep

theorem sourceFrom?_of_steps (hsound : ∀ loop ∈ document.loops, loop.2.isAgain = false)
    (hfree : document.MergeFree) (hmarked : document.marked = .ok whole) {path : List Value}
    (hn : n ∈ document.nodes) (h : n.Reads document.valueOf w)
    (hv : path.foldlM (Value.step? whole.loops) w = some v) :
    ∃ m, document.sourceFrom? n path = some m ∧ m.Reads document.valueOf v := by
  induction path generalizing n w with
  | nil =>
    obtain rfl := Option.some.inj hv
    exact ⟨n, rfl, h⟩
  | cons step path ih =>
    rw [List.foldlM_cons] at hv
    obtain ⟨x, hx, hv⟩ := Option.bind_eq_some_iff.1 hv
    obtain ⟨m, hsource, hreads⟩ := sourceStep?_of_step? hsound hfree hmarked hn h hx
    obtain ⟨k, hk, hkreads⟩ := ih (mem_nodes_of_sourceStep? hn hsource) hreads hv
    refine ⟨k, ?_, hkreads⟩
    rw [sourceFrom?, List.foldlM_cons, hsource]
    exact hk

theorem ofDocument_eq (document : Looped Node) :
    Value.ofDocument document = document.marked.map Looped.untied := by
  unfold Value.ofDocument marked
  cases hadmitted : admittedLoops document with
  | error e => rfl
  | ok admitted =>
    obtain ⟨loops, met⟩ := admitted
    simp only [ok_bind, valueOf_eq hadmitted]
    cases met.mapM fun l => do
        return (l, ← Value.ofNode (Value.ofLoop loops) ((Node.again l).opened loops)) with
    | error e => rfl
    | ok bodies => cases Value.ofNode (Value.ofLoop loops) document.root <;> rfl

/-- **Where values come from.**  A value inside a document was built from the node that its path
leads to in the document's text. -/
theorem builtFrom_of_at? (hsound : ∀ loop ∈ document.loops, loop.2.isAgain = false)
    (hfree : document.MergeFree) {read : Looped Value}
    (hread : Value.ofDocument document = .ok read) {path : List Value}
    (h : read.at? path = some v) :
    ∃ n, document.source? path = some n ∧ document.BuiltFrom n v := by
  rw [ofDocument_eq] at hread
  cases hmarked : document.marked with
  | error e =>
    rw [hmarked] at hread
    cases hread
  | ok whole =>
    rw [hmarked] at hread
    obtain rfl := Except.ok.inj hread
    obtain ⟨w, hw, hunfolds⟩ := at?_untied (bodiesCollect_marked hsound hfree hmarked) h
    obtain ⟨loops, met, -, hroot, -⟩ := marked_eq_ok hmarked
    obtain ⟨n, hn, hreads⟩ := sourceFrom?_of_steps hsound hfree hmarked document.root_mem_nodes
      (.inl hroot) hw
    exact ⟨n, hn, whole, w, hmarked, hreads, hunfolds⟩

end Looped

end RegisterLayout
