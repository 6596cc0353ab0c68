import RegisterLayout.Proofs.Grammar
import RegisterLayout.Proofs.Outcome
import RegisterLayout.Value.OfScalar

/-!
# What scalars are read as

The text of a scalar is read as a number, a truth value, a date, bytes or a text, and never as a
collection.  It is read as a text only if it is that text.

Principal results: `Value.readScalar_eq_ok`, `Value.readScalar_str`.
-/

namespace RegisterLayout.Value

open Document

theorem readTimestamp_eq_ok {text : Text} {v : Value} (h : readTimestamp text = .ok v) :
    (∃ d, v = .date d) ∨ ∃ d c, v = .moment d c := by
  unfold readTimestamp at h
  dsimp only at h
  split at h
  · cases h
  · split at h
    · split at h
      · cases h
      · exact .inl ⟨_, (Except.ok.inj h).symm⟩
    · split at h
      · cases h
      · exact .inr ⟨_, _, (Except.ok.inj h).symm⟩

theorem readBytes_eq_ok {text : Text} {v : Value} (h : readBytes text = .ok v) :
    ∃ data, v = .bytes data := by
  unfold readBytes at h
  split at h
  · cases h
  · split at h
    · cases h
    · split at h <;> cases h
      exact ⟨_, rfl⟩

theorem map_eq_ok_iff {α β : Type} {x : Except Failure α} {f : α → β} {b : β} :
    x.map f = .ok b ↔ ∃ a, x = .ok a ∧ f a = b := by
  cases x <;> simp [Except.map]

/-- A scalar is read as a text only if it has that text. -/
theorem readScalar_eq_ok {tag : Tag} {text : Text} {v : Value} (h : readScalar tag text = .ok v) :
    v.isScalar = true ∧ ∀ s, v = .str s → text = s := by
  unfold readScalar at h
  split at h
  · obtain rfl := Except.ok.inj h
    exact ⟨rfl, nofun⟩
  · obtain ⟨_, -, rfl⟩ := map_eq_ok_iff.1 h
    exact ⟨rfl, nofun⟩
  · obtain ⟨_, -, rfl⟩ := map_eq_ok_iff.1 h
    exact ⟨rfl, nofun⟩
  · obtain ⟨_, -, rfl⟩ := map_eq_ok_iff.1 h
    exact ⟨rfl, nofun⟩
  · obtain ⟨_, rfl⟩ | ⟨_, _, rfl⟩ := readTimestamp_eq_ok h <;> exact ⟨rfl, nofun⟩
  · obtain ⟨_, rfl⟩ := readBytes_eq_ok h
    exact ⟨rfl, nofun⟩
  · obtain rfl := Except.ok.inj h
    exact ⟨rfl, fun s hs => str.inj hs⟩
  · cases h

theorem isScalar_of_readScalar {tag : Tag} {text : Text} {v : Value}
    (h : readScalar tag text = .ok v) : v.isScalar = true := (readScalar_eq_ok h).1

theorem readScalar_str (text : Text) (e : Failure) : readScalar .str text ≠ .error e := nofun

end RegisterLayout.Value
