import RegisterLayout.Proofs.NodeReading
import RegisterLayout.Proofs.SourceLines

/-!
# Lines in messages

The position that a message shows is that of a node in the document.  Every node starts in the
text, and no text that is read holds a character which ends a line for a viewer only, so that the
line shown beside the number is the one in which the node starts.

Principal results: `Looped.find_mem_nodes`, `positionOf_of_find`.
-/

namespace RegisterLayout

open Document

namespace Document.Node

/-! ## Nodes that are found -/

theorem mem_of_itemAt {items : List Node} {step : Value} {m : Node}
    (h : itemAt items step = .ok (some m)) : m ∈ items := by
  unfold itemAt at h
  dsimp only at h
  split at h
  · cases h
  · next n _ =>
    split at h
    · cases h
    · generalize (if n < 0 then n + (items.length : Int) else n) = index at h
      split at h
      · cases h
      · exact List.mem_of_getElem? (Except.ok.inj h)

theorem exists_mem_of_entryAt {entries : List (Node × Node)} {step : Value} {m : Node}
    (h : entryAt step entries = .ok (some m)) : ∃ entry ∈ entries, m = entry.2 := by
  induction entries with
  | nil => cases h
  | cons entry entries ih =>
    have hbelow : entryAt step entries = .ok (some m) →
        ∃ e ∈ entry :: entries, m = e.2 := by
      intro h
      obtain ⟨e, he, hm⟩ := ih h
      exact ⟨e, List.mem_cons_of_mem _ he, hm⟩
    obtain ⟨key, value⟩ := entry
    cases key with
    | scalar start tag text =>
      obtain ⟨written, -, h⟩ := bind_eq_ok_iff.1 h
      split at h
      · obtain rfl := Option.some.inj (Except.ok.inj h)
        exact ⟨_, List.mem_cons_self, rfl⟩
      · exact hbelow h
    | _ => exact hbelow h

/-- A step leads to a node right below. -/
theorem child_mem_parts {n m : Node} {step : Value} (h : n.child step = .ok (some m)) :
    m ∈ n.parts := by
  cases n with
  | scalar start tag text => cases h
  | again l => cases h
  | sequence start tag items => exact mem_of_itemAt h
  | mapping start tag entries =>
    obtain ⟨entry, hentry, rfl⟩ := exists_mem_of_entryAt h
    exact value_mem_parts hentry

end Document.Node

namespace Looped

variable {document : Looped Node} {n node : Node} {path : List Value}

theorem findFrom_mem_nodes (hn : n ∈ document.nodes)
    (h : Node.findFrom document.loops n path = .ok node) : node ∈ document.nodes := by
  induction path generalizing n with
  | nil =>
    obtain rfl := Except.ok.inj h
    exact hn
  | cons step path ih =>
    obtain ⟨child, hchild, h⟩ := bind_eq_ok_iff.1 h
    cases child with
    | none =>
      obtain rfl := pure_eq_ok_iff.1 h
      exact hn
    | some m => exact ih (opened_mem_nodes (part_mem_nodes hn (Node.child_mem_parts hchild))) h

/-- A path leads to a node of the document, at whatever step it ends. -/
theorem find_mem_nodes (h : Node.find document path = .ok node) : node ∈ document.nodes :=
  findFrom_mem_nodes (opened_mem_nodes document.root_mem_nodes) h

end Looped

/-! ## Positions -/

/-- **A message shows the line in which its node starts.**  The position of the node to which a
path leads has the number of the line that holds the node's start, counted from one, and the
content of that line without the blanks around it.  Lines are those that the breaks of a document
make; behind a last break there is one without content. -/
theorem positionOf_of_find {text : Text} {document : Looped Node} {path : List Value} {node : Node}
    (hdocument : Node.ofText text = .ok (some document))
    (hnode : Node.find document path = .ok node) :
    ∃ chars above line, text = Text.ofChars chars ∧ StandsOn chars node.start above line ∧
      (∀ c ∈ line.content, Text.isDocumentBreak c = false) ∧
      positionOf text (some document) path = .ok (" (" ++ toString (above.length + 1) ++ ":"
        ++ toString ((placeAt chars node.start).column + 1) ++ ": "
        ++ Text.strip (Text.ofChars line.content) ++ ")") := by
  obtain ⟨chars, rfl, hadmitted, -, hstarts⟩ := Node.exists_chars_of_ofText hdocument
  have hstart := hstarts node (Looped.find_mem_nodes hnode)
  obtain ⟨above, line, hstands⟩ := exists_standsOn hstart
  have hline : (placeAt chars node.start).line = above.length := by
    rw [placeAt, line_placeFrom hstands]
    exact Nat.zero_add _
  have hposition : positionText (Text.ofChars chars) node = " (" ++ toString (above.length + 1)
      ++ ":" ++ toString ((placeAt chars node.start).column + 1) ++ ": "
      ++ Text.strip (Text.ofChars line.content) ++ ")" := by
    unfold positionText
    rw [Text.chars?_ofChars, Option.getD_some]
    dsimp only
    rw [hline, hstands.snippet_eq hadmitted]
  refine ⟨chars, above, line, rfl, hstands, hstands.breakless, ?_⟩
  show (Node.find document path >>= fun node => pure (positionText (Text.ofChars chars) node)) = _
  rw [hnode, ok_bind, hposition]
  rfl

/-- A word whose lines end in different breaks. -/
def mixedBreaksText : Text := "# register\u0085type: word\r\nbits: 8\u2028  \u2029signed: maybe\n"

theorem positionOf_of_find_mixedBreaks :
    ∃ document node chars above line, Node.ofText mixedBreaksText = .ok (some document) ∧
      Node.find document [.str "signed"] = .ok node ∧
      positionText mixedBreaksText node = " (5:9: signed: maybe)" ∧
      mixedBreaksText = Text.ofChars chars ∧ StandsOn chars node.start above line ∧
      (∀ c ∈ line.content, Text.isDocumentBreak c = false) ∧
      positionOf mixedBreaksText (some document) [.str "signed"] = .ok (" ("
        ++ toString (above.length + 1) ++ ":"
        ++ toString ((placeAt chars node.start).column + 1) ++ ": "
        ++ Text.strip (Text.ofChars line.content) ++ ")") := by
  have hread : (Node.ofText mixedBreaksText).toOption.any (·.any fun document =>
      (Node.find document [.str "signed"]).toOption.any fun node =>
        decide (positionText mixedBreaksText node = " (5:9: signed: maybe)")) = true := by
    decide +kernel
  obtain ⟨read, hdocument, hread⟩ := exists_of_any hread
  obtain ⟨document, rfl, hread⟩ := (Option.any_eq_true _ _).1 hread
  obtain ⟨node, hnode, hposition⟩ := exists_of_any hread
  obtain ⟨chars, above, line, hshown⟩ := positionOf_of_find hdocument hnode
  exact ⟨document, node, chars, above, line, hdocument, hnode, of_decide_eq_true hposition,
    hshown⟩

end RegisterLayout
