import RegisterLayout.Proofs.Messages
import RegisterLayout.Proofs.NodeReading
import RegisterLayout.Proofs.Sources

/-!
# Positions in messages

A message about a rejected document shows where the value at fault stands in the text.  The place
is looked up in the document's nodes by the texts of keys, of which the first that fits counts,
while the value was read from the last entry whose key is read as the text.  The place is that of
the value if these are one entry in every mapping on the way.

Principal definitions: `Looped.Told`, `Looped.KeysDistinct`, `Looped.Locates`.
Principal results: `Looped.find_of_sourceFrom?`, `locates_of_validate`,
`Looped.KeysDistinct.told`.
-/

namespace RegisterLayout

open Document Violation

namespace Document.Node

/-- The last entry of a mapping whose key is read as a text is the first whose key has it. -/
def TellsApart (read : Node → Except Failure Value) (n : Node) (step : Value) : Prop :=
  ∀ s entry, step = .str s →
    n.entries.reverse.find? (fun entry => entry.1.readsAs read s) = some entry →
    n.entries.find? (fun entry => entry.1.text? == some s) = some entry

/-- The entry under a text is the first whose key has the text. -/
theorem entryAt_str (s : Text) (entries : List (Node × Node)) :
    entryAt (.str s) entries =
      .ok ((entries.find? fun entry => entry.1.text? == some s).map Prod.snd) := by
  induction entries with
  | nil => rfl
  | cons entry entries ih =>
    obtain ⟨key, value⟩ := entry
    cases key with
    | scalar start tag text =>
      rw [entryAt, Value.written_str, ok_bind]
      by_cases ht : text = s
      · have hkey : ((scalar start tag text).text? == some s) = true := by simp [text?, ht]
        rw [List.find?_cons_of_pos (by exact hkey), if_pos (by simpa using ht)]
        rfl
      · have hkey : ¬((scalar start tag text).text? == some s) = true := by simp [text?, ht]
        rw [List.find?_cons_of_neg (by exact hkey), if_neg (by simpa using ht), ih]
    | _ => exact ih

/-- An index that counts from the front. -/
theorem itemAt_ofNat (items : List Node) (i : Nat) :
    itemAt items (.num (.int (.ofNat i))) = .ok items[i]? := by
  simp only [itemAt, Value.int?]
  split
  · next h =>
    have hi : items.length ≤ i := by simpa using h
    rw [List.getElem?_eq_none hi]
  · have hi : ¬Int.ofNat i < 0 := by simp
    rw [if_neg hi, if_neg hi]
    rfl

/-- A node that tells keys apart has its child where the value under a step was read from. -/
theorem child_eq_of_sourceStep? {read : Node → Except Failure Value} {n m : Node} {step : Value}
    (h : n.sourceStep? read step = some m) (htold : n.TellsApart read step) :
    n.child step = .ok (some m) := by
  match n, step with
  | .mapping start tag entries, .str s =>
    obtain ⟨entry, hentry, rfl⟩ := Option.map_eq_some_iff.1 h
    have hfirst : entries.find? (fun entry => entry.1.text? == some s) = some entry :=
      htold s entry rfl hentry
    rw [child, entryAt_str, hfirst, Option.map_some]
  | .sequence _ _ items, .num (.int (.ofNat i)) =>
    have hitem : items[i]? = some m := h
    rw [child, itemAt_ofNat, hitem]

end Document.Node

namespace Looped

variable {document : Looped Node} {n m : Node} {path : List Value}

/-- Every mapping on the way from a node tells the keys apart. -/
def ToldFrom (document : Looped Node) (n : Node) (path : List Value) : Prop :=
  ∀ before step after, path = before ++ step :: after →
    ∀ m, document.sourceFrom? n before = some m →
      (m.opened document.loops).TellsApart document.valueOf step

/-- Every mapping on the way tells the keys apart. -/
def Told (document : Looped Node) (path : List Value) : Prop :=
  document.ToldFrom document.root path

/-- The keys of every mapping in a document are scalars with texts of their own. -/
def KeysDistinct (document : Looped Node) : Prop :=
  ∀ n ∈ document.nodes, (∀ entry ∈ n.entries, entry.1.text?.isSome) ∧
    (n.entries.map fun entry => entry.1.text?).Nodup

/-- **The node at a path** is the one that the value there was read from, if all mappings on the way
tell the keys apart. -/
theorem find_of_sourceFrom? (h : document.sourceFrom? n path = some m)
    (htold : document.ToldFrom n path) :
    Node.findFrom document.loops (n.opened document.loops) path =
      .ok (m.opened document.loops) := by
  induction path generalizing n with
  | nil =>
    obtain rfl := Option.some.inj h
    rfl
  | cons step path ih =>
    rw [sourceFrom?, List.foldlM_cons] at h
    obtain ⟨k, hk, h⟩ := Option.bind_eq_some_iff.1 h
    have hchild := Node.child_eq_of_sourceStep? hk (htold [] step path rfl n rfl)
    rw [Node.findFrom, hchild, ok_bind]
    refine ih h fun before later after hpath i hi => ?_
    refine htold (step :: before) later after (hpath ▸ rfl) i ?_
    rw [sourceFrom?, List.foldlM_cons, hk]
    exact hi

/-- A scalar is read as a text only if it has that text. -/
theorem text?_of_readsAs {s : Text} (hn : n.text?.isSome = true)
    (h : n.readsAs document.valueOf s = true) : n.text? = some s := by
  cases n with
  | scalar start tag text =>
    unfold Node.readsAs at h
    split at h
    · next t hread =>
      obtain rfl : t = s := by simpa using h
      obtain ⟨admitted, -, hread⟩ := bind_eq_ok_iff.1 hread
      exact congrArg some ((Value.readScalar_eq_ok hread).2 t rfl)
    · cases h
  | _ => cases hn

theorem find?_text?_of_nodup {entries : List (Node × Node)} {entry : Node × Node} {s : Text}
    (hentries : (entries.map fun entry => entry.1.text?).Nodup) (h : entry ∈ entries)
    (hkey : entry.1.text? = some s) :
    entries.find? (fun entry => entry.1.text? == some s) = some entry := by
  induction entries with
  | nil => cases h
  | cons other entries ih =>
    obtain ⟨hother, hentries⟩ := List.nodup_cons.1 hentries
    rcases List.mem_cons.1 h with rfl | hmem
    · exact List.find?_cons_of_pos (by simp [hkey])
    · have hne : other.1.text? ≠ some s := fun heq =>
        hother (List.mem_map.2 ⟨entry, hmem, hkey.trans heq.symm⟩)
      rw [List.find?_cons_of_neg (by simpa using hne)]
      exact ih hentries hmem

/-- Keys with texts of their own are told apart. -/
theorem KeysDistinct.told (h : document.KeysDistinct) (path : List Value) :
    document.Told path := by
  rintro before step after - m hm s entry rfl hentry
  have hmem := opened_mem_nodes (mem_nodes_of_sourceFrom? document.root_mem_nodes hm)
  obtain ⟨hscalars, hnodup⟩ := h _ hmem
  have hin := List.mem_reverse.1 (List.mem_of_find?_eq_some hentry)
  have hreads := List.find?_some hentry
  exact find?_text?_of_nodup hnodup hin (text?_of_readsAs (hscalars entry hin) hreads)

end Looped

/-! ## Messages -/

/-- A message that shows a violation with the place in the text where its path leads.  A value at
the path was built from a node of the document, and that is where the path leads if all mappings on
the way tell the keys apart. -/
def Looped.Locates (document : Looped Node) (value : Looped Value) (text : Text) (x : Violation)
    (message : Text) : Prop :=
  ∃ found place node, x.best [] = .ok found ∧ pathText found.1 = .ok place ∧
    Node.find document found.1 = .ok node ∧
    message = found.2.text value.loops ++ " at " ++ place ++ positionText text node ∧
    ∀ v, value.at? found.1 = some v →
      ∃ source, document.source? found.1 = some source ∧ document.BuiltFrom source v ∧
        (document.Told found.1 → node = source.opened document.loops)

/-- **The positions that messages show.**  The messages about a rejected document without keys that
merge show where its values stand in the text: wherever a mapping on the way holds an entry whose
key has the text that a later one is read as, the place may be that of the former, and everywhere
else it is that of the node from which the value was built. -/
theorem locates_of_validate {text : Text} {document : Looped Node} {value : Looped Value}
    {ms : List Text} (hdocument : Node.ofText text = .ok (some document))
    (hvalue : Value.ofDocument document = .ok value) (hfree : document.MergeFree)
    (h : validate value (some text) = .error (.violations ms)) :
    List.Forall₂ (document.Locates value text) (Schema.violations value) ms := by
  have hread : documentOf (some text) = .ok (some document) := hdocument
  have hms := messages_of_validate ⟨_, hread⟩ h
  rw [messages_eq, hread, ok_bind] at hms
  refine (mapM_eq_ok_forall₂ hms).imp fun x m hm => ?_
  obtain ⟨found, hfound, hm⟩ := bind_eq_ok_iff.1 hm
  obtain ⟨place, hplace, hm⟩ := bind_eq_ok_iff.1 hm
  obtain ⟨position, hposition, hm⟩ := bind_eq_ok_iff.1 hm
  obtain ⟨node, hnode, hposition⟩ := bind_eq_ok_iff.1 hposition
  obtain rfl := pure_eq_ok_iff.1 hposition
  refine ⟨found, place, node, hfound, hplace, hnode, pure_eq_ok_iff.1 hm, fun v hv => ?_⟩
  obtain ⟨source, hsource, hbuilt⟩ :=
    Looped.builtFrom_of_at? (Node.isAgain_of_ofText hdocument) hfree hvalue hv
  refine ⟨source, hsource, hbuilt, fun htold => ?_⟩
  exact Except.ok.inj (hnode.symm.trans (Looped.find_of_sourceFrom? hsource htold))

instance (document : Looped Node) : Decidable document.MergeFree :=
  inferInstanceAs (Decidable (∀ n ∈ document.nodes, ∀ entry ∈ n.entries, _ ≠ _))

instance (document : Looped Node) : Decidable document.KeysDistinct :=
  inferInstanceAs (Decidable (∀ n ∈ document.nodes, _ ∧ _))

/-- A word that may be signed. -/
def doubtfulText : Text := "type: word\nbits: 8\nsigned: maybe\n"

theorem locates_of_validate_doubtfulText :
    ∃ document value ms, Node.ofText doubtfulText = .ok (some document) ∧
      Value.ofDocument document = .ok value ∧ document.MergeFree ∧ document.KeysDistinct ∧
      validate value (some doubtfulText) = .error (.violations ms) ∧
      ms = ["'maybe' is not of type 'boolean' at /signed (3:9: signed: maybe)"] ∧
      List.Forall₂ (document.Locates value doubtfulText) (Schema.violations value) ms ∧
      ∀ path, document.Told path := by
  have hread : (Node.ofText doubtfulText).toOption.any (·.any fun document =>
      decide (document.MergeFree ∧ document.KeysDistinct) &&
      (Value.ofDocument document).toOption.any fun value =>
        decide (validate value (some doubtfulText) = .error (.violations
          ["'maybe' is not of type 'boolean' at /signed (3:9: signed: maybe)"]))) = true := by
    decide +kernel
  obtain ⟨read, hdocument, hread⟩ := exists_of_any hread
  obtain ⟨document, rfl, hread⟩ := (Option.any_eq_true _ _).1 hread
  obtain ⟨hkeys, hread⟩ := Bool.and_eq_true_iff.1 hread
  obtain ⟨hfree, hdistinct⟩ := of_decide_eq_true hkeys
  obtain ⟨value, hvalue, hread⟩ := exists_of_any hread
  have hvalidate := of_decide_eq_true hread
  exact ⟨document, value, _, hdocument, hvalue, hfree, hdistinct, hvalidate, rfl,
    locates_of_validate hdocument hvalue hfree hvalidate, hdistinct.told⟩

/-- A word for which a key is given twice, of which the second one counts. -/
def repeatedKeyText : Text := "type: word\nbits: 8\nsigned: true\nsigned: maybe\n"

/-- The message about the second value of a key shows the place of the first. -/
theorem repeatedKey_mislocated :
    ∃ document value source, Node.ofText repeatedKeyText = .ok (some document) ∧
      Value.ofDocument document = .ok value ∧ document.MergeFree ∧
      value.at? [.str "signed"] = some (.str "maybe") ∧
      document.source? [.str "signed"] = some source ∧
      document.BuiltFrom source (.str "maybe") ∧
      positionText repeatedKeyText source = " (4:9: signed: maybe)" ∧
      validate value (some repeatedKeyText) = .error (.violations
        ["'maybe' is not of type 'boolean' at /signed (3:9: signed: true)"]) := by
  have hread : (Node.ofText repeatedKeyText).toOption.any (·.any fun document =>
      decide document.MergeFree &&
      (document.source? [.str "signed"]).any (fun source =>
        decide (positionText repeatedKeyText source = " (4:9: signed: maybe)")) &&
      (Value.ofDocument document).toOption.any fun value =>
        (value.at? [.str "signed"]).any (·.same (.str "maybe")) &&
        decide (validate value (some repeatedKeyText) = .error (.violations
          ["'maybe' is not of type 'boolean' at /signed (3:9: signed: true)"]))) = true := by
    decide +kernel
  obtain ⟨read, hdocument, hread⟩ := exists_of_any hread
  obtain ⟨document, rfl, hread⟩ := (Option.any_eq_true _ _).1 hread
  obtain ⟨hnodes, hread⟩ := Bool.and_eq_true_iff.1 hread
  obtain ⟨hfree, hposition⟩ := Bool.and_eq_true_iff.1 hnodes
  obtain ⟨source, hsource, hposition⟩ := (Option.any_eq_true _ _).1 hposition
  obtain ⟨value, hvalue, hread⟩ := exists_of_any hread
  obtain ⟨hat, hvalidate⟩ := Bool.and_eq_true_iff.1 hread
  obtain ⟨v, hat, hsame⟩ := (Option.any_eq_true _ _).1 hat
  obtain rfl := Value.same_str_iff.1 hsame
  have hfree := of_decide_eq_true hfree
  obtain ⟨n, hn, hbuilt⟩ :=
    Looped.builtFrom_of_at? (Node.isAgain_of_ofText hdocument) hfree hvalue hat
  obtain rfl := Option.some.inj (hn.symm.trans hsource)
  exact ⟨document, value, n, hdocument, hvalue, hfree, hat, hsource, hbuilt,
    of_decide_eq_true hposition, of_decide_eq_true hvalidate⟩

end RegisterLayout
