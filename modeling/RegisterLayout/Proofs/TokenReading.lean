import RegisterLayout.Proofs.CursorReading

/-!
# How tokens are read

The places of tokens are in the text that they are read from, those of the candidates for keys
included, since a key's tokens stand where its candidate does.  Reading stops at a fault of the text
if it stops before the end.

Principal definitions: `Token.Within`, `TokenReader.Within`.
Principal results: `TokenList.within_ofText`, `textFault_ofText`.
-/

namespace RegisterLayout.Document

/-- A token in a text of some length. -/
structure Token.Within (length : Nat) (t : Token) : Prop where
  start : t.start ≤ length
  stop : t.stop ≤ length

namespace TokenReader

variable {length : Nat} {r : TokenReader}

/-- A reader in a text of some length, with the tokens read and the candidates for keys in it. -/
structure Within (length : Nat) (r : TokenReader) : Prop where
  cursor : r.cursor.Within length
  tokens : ∀ t ∈ r.tokens, t.Within length
  candidate : ∀ k ∈ r.candidate, k.offset ≤ length
  outerCandidates : ∀ outer ∈ r.outerCandidates, ∀ k ∈ outer, k.offset ≤ length

/-- A reading that keeps the reader in the text. -/
abbrev Steps (length : Nat) (x : Except Failure TokenReader) : Prop := Reaches (Within length) x

namespace Within

variable (h : r.Within length)
include h

theorem push (kind : TokenKind) {start stop : Nat} (hstart : start ≤ length)
    (hstop : stop ≤ length) : (r.push kind start stop).Within length :=
  ⟨h.cursor, List.forall_mem_cons.2 ⟨⟨hstart, hstop⟩, h.tokens⟩, h.candidate, h.outerCandidates⟩

theorem pushMark (kind : TokenKind) : (r.pushMark kind).Within length :=
  h.push kind h.cursor.offset_le h.cursor.offset_le

theorem pushTo (kind : TokenKind) {c : Cursor} (hc : c.Within length) :
    (r.pushTo kind c).Within length := by
  have hpush := h.push kind h.cursor.offset_le hc.offset_le
  exact ⟨hc, hpush.tokens, h.candidate, h.outerCandidates⟩

theorem insert (index : Nat) (kind : TokenKind) {offset : Nat} (hoffset : offset ≤ length) :
    (r.insert index kind offset).Within length := by
  refine ⟨h.cursor, fun t ht => ?_, h.candidate, h.outerCandidates⟩
  rcases List.eq_or_mem_of_mem_insertIdx ht with rfl | ht
  · exact ⟨hoffset, hoffset⟩
  · exact h.tokens t ht

omit h in
theorem unindentFrom (column : Int) (outers : List Int) {r : TokenReader}
    (h : r.Within length) : (unindentFrom column outers r).Within length := by
  induction outers generalizing r with
  | nil => exact h
  | cons outer outers ih =>
    unfold TokenReader.unindentFrom
    split
    · have hmark := h.pushMark .blockEnd
      exact ih ⟨hmark.cursor, hmark.tokens, hmark.candidate, hmark.outerCandidates⟩
    · exact h

theorem unindent (column : Int) : (r.unindent column).Within length := by
  unfold TokenReader.unindent
  split
  · exact h
  · exact h.unindentFrom column _

theorem openBlock (column : Nat) : (r.openBlock column).Within length :=
  ⟨h.cursor, h.tokens, h.candidate, h.outerCandidates⟩

omit h in
theorem skipToToken (fuel : Nat) {r : TokenReader} (h : r.Within length) :
    (skipToToken fuel r).Within length := by
  induction fuel generalizing r with
  | zero => exact h
  | succ fuel ih =>
    have hline := (h.cursor.skip (· == ' ')).ignored
    unfold TokenReader.skipToToken
    dsimp only
    split
    · exact ⟨hline, h.tokens, h.candidate, h.outerCandidates⟩
    · next heq => exact ih ⟨hline.of_takeBreak heq, h.tokens, h.candidate, h.outerCandidates⟩

/-- Whether a key may follow says nothing of the places. -/
theorem allowing (keyAllowed : Bool) : { r with keyAllowed }.Within length :=
  ⟨h.cursor, h.tokens, h.candidate, h.outerCandidates⟩

theorem withoutCandidate : { r with candidate := none }.Within length :=
  ⟨h.cursor, h.tokens, fun _ hk => absurd hk (Option.not_mem_none _), h.outerCandidates⟩

end Within

/-! ## Candidates for keys -/

theorem steps_dropCandidate (h : r.Within length) : Steps length r.dropCandidate := by
  unfold dropCandidate
  split
  · split
    · exact reaches_malformed
    · exact .ok h.withoutCandidate
  · exact .ok h

theorem steps_saveCandidate (h : r.Within length) : Steps length r.saveCandidate := by
  unfold saveCandidate
  split
  · exact .pure h
  · refine (steps_dropCandidate h).bind fun r hr => .pure ⟨hr.cursor, hr.tokens, ?_,
      hr.outerCandidates⟩
    intro k hk
    obtain rfl := Option.some.inj hk
    exact hr.cursor.offset_le

theorem reaches_keepCandidate (c : Cursor) {candidate : Option KeyCandidate}
    (h : ∀ k ∈ candidate, k.offset ≤ length) :
    Reaches (fun kept => ∀ k ∈ kept, k.offset ≤ length) (keepCandidate c candidate) := by
  have hnone : ∀ k ∈ (none : Option KeyCandidate), k.offset ≤ length := fun k hk =>
    absurd hk (Option.not_mem_none k)
  unfold keepCandidate
  split
  · exact .ok hnone
  · split
    · split
      · exact reaches_malformed
      · exact .ok hnone
    · exact .ok h

theorem steps_dropStale (h : r.Within length) : Steps length r.dropStale :=
  (reaches_keepCandidate r.cursor h.candidate).bind fun _ hcandidate =>
    (Yields.mapM fun outer houter =>
        reaches_keepCandidate r.cursor (h.outerCandidates outer houter)).bind fun _ houters =>
      .pure ⟨h.cursor, h.tokens, hcandidate, houters⟩

/-! ## Tokens -/

theorem steps_closeBlocks (h : r.Within length) : Steps length r.closeBlocks :=
  (steps_dropCandidate (h.unindent _)).bind fun _ hr => .pure (hr.allowing _)

theorem steps_readEnd (h : r.Within length) : Steps length r.readEnd := by
  refine (steps_closeBlocks h).bind fun r hr => .pure ?_
  have hmark := hr.pushMark .endOfText
  exact ⟨hmark.cursor, hmark.tokens, hmark.candidate, hmark.outerCandidates⟩

theorem steps_readDirective (h : r.Within length) : Steps length r.readDirective :=
  (steps_closeBlocks h).bind fun _ hr => (Cursor.scans_directive hr.cursor).bind fun _ hc =>
    .pure (hr.pushTo _ hc)

theorem steps_readMarker (kind : TokenKind) (h : r.Within length) :
    Steps length (r.readMarker kind) :=
  (steps_closeBlocks h).bind fun _ hr => .pure (hr.pushTo kind (hr.cursor.advance 3))

theorem steps_readFlowStart (kind : TokenKind) (h : r.Within length) :
    Steps length (r.readFlowStart kind) := by
  refine (steps_saveCandidate h).bind fun r hr => .pure ?_
  have hpush := hr.pushTo kind hr.cursor.next
  exact ⟨hpush.cursor, hpush.tokens, hpush.withoutCandidate.candidate,
    List.forall_mem_cons.2 ⟨hr.candidate, hr.outerCandidates⟩⟩

theorem steps_readFlowEnd (kind : TokenKind) (h : r.Within length) :
    Steps length (r.readFlowEnd kind) := by
  refine (steps_dropCandidate h).bind fun r hr => ?_
  split
  · exact reaches_malformed
  · next outer outers heq =>
    have hpush := hr.pushTo kind hr.cursor.next
    obtain ⟨houter, houters⟩ := List.forall_mem_cons.1 (heq ▸ hr.outerCandidates)
    exact .pure ⟨hpush.cursor, hpush.tokens, houter, houters⟩

theorem steps_readFlowEntry (h : r.Within length) : Steps length r.readFlowEntry :=
  (steps_dropCandidate h).bind fun _ hr =>
    .pure ((hr.pushTo .flowEntry hr.cursor.next).allowing true)

theorem steps_openAt (kind : TokenKind) (h : r.Within length) : Steps length (r.openAt kind) := by
  unfold openAt
  split
  · exact .pure h
  · refine reaches_check fun _ => ?_
    split
    · exact .pure ((h.openBlock _).pushMark kind)
    · exact .pure h

theorem steps_readBlockEntry (h : r.Within length) : Steps length r.readBlockEntry :=
  (steps_openAt _ h).bind fun _ hopen => (steps_dropCandidate hopen).bind fun _ hr =>
    .pure ((hr.pushTo .blockEntry hr.cursor.next).allowing true)

theorem steps_readKey (h : r.Within length) : Steps length r.readKey :=
  (steps_openAt _ h).bind fun _ hopen => (steps_dropCandidate hopen).bind fun _ hr =>
    .pure ((hr.pushTo .key hr.cursor.next).allowing _)

theorem steps_readValue (h : r.Within length) : Steps length r.readValue := by
  unfold readValue
  split
  · next k hk =>
    have hoffset : k.offset ≤ length := h.candidate k hk
    have hkey := h.withoutCandidate.insert k.index .key hoffset
    refine .pure (Within.allowing (Within.pushTo ?_ .value ?_) false)
    · split
      · exact (hkey.openBlock _).insert _ _ hoffset
      · exact hkey
    · split
      · exact h.cursor.next
      · exact h.cursor.next
  · exact (steps_openAt _ h).bind fun _ hr =>
      .pure ((hr.pushTo .value hr.cursor.next).allowing _)

theorem steps_readKeyable {read : Cursor → Except Failure (TokenKind × Bool × Cursor)}
    (hread : ∀ c : Cursor, c.Within length → Reaches (fun r => r.2.2.Within length) (read c))
    (h : r.Within length) : Steps length (r.readKeyable read) :=
  (steps_saveCandidate h).bind fun _ hr => (hread _ hr.cursor).bind fun _ hc =>
    .pure ((hr.pushTo _ hc).allowing _)

theorem steps_readBlockScalar (folded : Bool) (h : r.Within length) :
    Steps length (r.readBlockScalar folded) :=
  (steps_dropCandidate h).bind fun _ hr =>
    (Cursor.scans_blockScalar _ _ hr.cursor).bind fun _ hc =>
      .pure ((hr.pushTo _ hc).allowing true)

theorem steps_readToken (h : r.Within length) : Steps length r.readToken := by
  have halias : Steps length r.readAlias := steps_readKeyable
    (fun _ hc => (Cursor.scans_anchorName hc).bind fun _ hc => .pure hc) h
  have hanchor : Steps length r.readAnchor := steps_readKeyable
    (fun _ hc => (Cursor.scans_anchorName hc).bind fun _ hc => .pure hc) h
  have htag : Steps length r.readTag := steps_readKeyable
    (fun _ hc => (Cursor.scans_tag hc).bind fun _ hc => .pure hc) h
  have hquoted : ∀ double, Steps length (r.readQuoted double) := fun double => steps_readKeyable
    (fun _ hc => (Cursor.scans_quotedScalar double hc).bind fun _ hc => .pure hc) h
  have hplain : Steps length r.readPlain := steps_readKeyable
    (fun _ hc => .ok (hc.plainScalar _ _)) h
  unfold readToken
  dsimp only
  refine .ite (fun _ => steps_readDirective h) fun _ => ?_
  refine .ite (fun _ => steps_readMarker _ h) fun _ => ?_
  refine .ite (fun _ => steps_readMarker _ h) fun _ => ?_
  refine .ite (fun _ => steps_readFlowStart _ h) fun _ => ?_
  refine .ite (fun _ => steps_readFlowStart _ h) fun _ => ?_
  refine .ite (fun _ => steps_readFlowEnd _ h) fun _ => ?_
  refine .ite (fun _ => steps_readFlowEnd _ h) fun _ => ?_
  refine .ite (fun _ => steps_readFlowEntry h) fun _ => ?_
  refine .ite (fun _ => steps_readBlockEntry h) fun _ => ?_
  refine .ite (fun _ => steps_readKey h) fun _ => ?_
  refine .ite (fun _ => steps_readValue h) fun _ => ?_
  refine .ite (fun _ => halias) fun _ => .ite (fun _ => hanchor) fun _ => ?_
  refine .ite (fun _ => htag) fun _ => ?_
  refine .ite (fun _ => steps_readBlockScalar _ h) fun _ => ?_
  refine .ite (fun _ => steps_readBlockScalar _ h) fun _ => ?_
  refine .ite (fun _ => hquoted _) fun _ => .ite (fun _ => hquoted _) fun _ => ?_
  exact .ite (fun _ => hplain) fun _ => reaches_malformed

theorem steps_readNext (h : r.Within length) : Steps length r.readNext := by
  refine (steps_dropStale (h.skipToToken _)).bind fun r hr => ?_
  dsimp only
  split
  · exact steps_readEnd (hr.unindent _)
  · exact steps_readToken (hr.unindent _)

/-- **The reading of all tokens stays in the text**, and stops at a fault of the text if at any. -/
theorem within_readAll (fuel : Nat) (h : r.Within length) :
    (readAll fuel r).1.Within length ∧
      ∀ count e, (readAll fuel r).2 = some (count, e) → TextFault e := by
  induction fuel generalizing r with
  | zero =>
    refine ⟨h, fun count e he => ?_⟩
    obtain ⟨-, rfl⟩ := Prod.mk.inj (Option.some.inj he)
    exact .malformed
  | succ fuel ih =>
    obtain ⟨hok, hfails⟩ := steps_readNext h
    unfold readAll
    split
    · next e' he' =>
      refine ⟨h, fun count e he => ?_⟩
      obtain ⟨-, rfl⟩ := Prod.mk.inj (Option.some.inj he)
      exact hfails e' he'
    · next r' hr' =>
      split
      · exact ⟨hok r' hr', by simp⟩
      · exact ih (hok r' hr')

end TokenReader

namespace TokenList

variable {text : List Char}

/-- The cursor at the begin of a text, behind the mark that may stand there. -/
theorem within_begin (text : List Char) :
    (if text.head? = some byteOrderMark then (⟨text, 0, {}⟩ : Cursor).next
      else ⟨text, 0, {}⟩).Within text.length := by
  have hbegin : (⟨text, 0, {}⟩ : Cursor).Within text.length := Nat.zero_add _
  split
  · exact hbegin.next
  · exact hbegin

/-- All tokens of a text, and the fault they stop at. -/
theorem reading_ofText (text : List Char) :
    (∀ t ∈ (ofText text).tokens, t.Within text.length) ∧
      ∀ count e, (ofText text).fault = some (count, e) → TextFault e := by
  unfold ofText
  split
  · refine ⟨List.forall_mem_nil _, fun count e he => ?_⟩
    obtain ⟨-, rfl⟩ := Prod.mk.inj (Option.some.inj he)
    exact .malformed
  · have hbegin : ({ cursor := _ } : TokenReader).Within text.length :=
      ⟨within_begin text, List.forall_mem_nil _, fun _ hk => absurd hk (Option.not_mem_none _),
        List.forall_mem_nil _⟩
    obtain ⟨hwithin, hfault⟩ := TokenReader.within_readAll (text.length + 1) hbegin
    exact ⟨fun t ht => hwithin.tokens t (List.mem_reverse.1 ht), hfault⟩

/-- **The tokens of a text are in the text.** -/
theorem within_ofText {t : Token} (h : t ∈ (ofText text).tokens) : t.Within text.length :=
  (reading_ofText text).1 t h

end TokenList

/-- **What the reading of tokens stops at.** -/
theorem textFault_ofText {text : List Char} {count : Nat} {e : Failure}
    (h : (TokenList.ofText text).fault = some (count, e)) : TextFault e :=
  (TokenList.reading_ofText text).2 count e h

end RegisterLayout.Document
