import RegisterLayout.Text.Line
import RegisterLayout.Text.CaseTable

/-!
# Upper and lower case

Full case mappings of a text: a character may map to several, and a capital sigma at the end of
a cased word maps to the final form.

Principal results: `upper`, `lower`, and `length_le_length_lower` — lower case never shortens.
-/

namespace RegisterLayout.Text

/-- The image of a code point under the first run that holds it. -/
def runImage? (runs : List CaseRun) (n : Nat) : Option Nat :=
  (runs.find? fun (first, last, step, _) => first ≤ n && n ≤ last && (n - first) % step == 0).map
    fun (_, _, _, delta) => (n + delta : Int).toNat

/-- The mapping given by expansions and runs; a character in neither is its own image. -/
def mapCase (expansions : List (Nat × List Nat)) (runs : List CaseRun) (c : Char) : List Char :=
  match expansions.lookup c.toNat with
  | some image => image.map Char.ofNat
  | none =>
    match runImage? runs c.toNat with
    | some n => [Char.ofNat n]
    | none => [c]

def upperChar (c : Char) : List Char := mapCase upperExpansions upperRuns c

def lowerChar (c : Char) : List Char := mapCase lowerExpansions lowerRuns c

/-- The images of the characters of a text; surrogates have no case. -/
def mapChars (f : Char → List Char) : Text → Text
  | [] => []
  | .char c :: rest => ofChars (f c) ++ mapChars f rest
  | c :: rest => c :: mapChars f rest

def upper (s : Text) : Text := mapChars upperChar s

def isCased (c : Char) : Bool := inRanges casedRanges c

def isCaseIgnorable (c : Char) : Bool := inRanges caseIgnorableRanges c

/-- The next character that is not ignorable has case. -/
def meetsCased (s : Text) : Bool :=
  ((s.dropWhile (·.holds isCaseIgnorable)).head?.map (·.holds isCased)).getD false

/-- The image of a character between two texts, the one before it reversed. -/
def lowerWithin (before after : Text) (c : Char) : List Char :=
  if c = 'Σ' then
    if meetsCased before && !meetsCased after then ['ς'] else ['σ']
  else lowerChar c

/-- Lower case of a text whose reversed beginning is `before`. -/
def lowerFrom (before : Text) : Text → Text
  | [] => []
  | .char c :: rest =>
    ofChars (lowerWithin before rest c) ++ lowerFrom (.char c :: before) rest
  | c :: rest => c :: lowerFrom (c :: before) rest

def lower (s : Text) : Text := lowerFrom [] s

/-! ## Lengths -/

theorem lowerExpansions_ne_nil : ∀ e ∈ lowerExpansions, e.2 ≠ [] := by decide

theorem length_lowerChar_pos (c : Char) : 0 < (lowerChar c).length := by
  unfold lowerChar mapCase
  split
  · rename_i image h
    obtain ⟨l₁, l₂, hl, -⟩ := List.lookup_eq_some_iff.1 h
    have hne := lowerExpansions_ne_nil (c.toNat, image) (by simp [hl])
    simpa [List.length_pos_iff] using hne
  · split <;> simp

theorem length_lowerWithin_pos (before after : Text) (c : Char) :
    0 < (lowerWithin before after c).length := by
  unfold lowerWithin
  split
  · split <;> simp
  · exact length_lowerChar_pos c

theorem length_le_length_lowerFrom (before s : Text) :
    s.length ≤ (lowerFrom before s).length := by
  induction s generalizing before with
  | nil => simp
  | cons c rest ih =>
    cases c with
    | surrogate i => simpa [lowerFrom] using ih (.surrogate i :: before)
    | char c =>
      have hc := length_lowerWithin_pos before rest c
      have := ih (.char c :: before)
      simp only [lowerFrom, ofChars, List.length_append, List.length_map, List.length_cons]
      omega

/-- Lower case never shortens a text. -/
theorem length_le_length_lower (s : Text) : s.length ≤ (lower s).length :=
  length_le_length_lowerFrom [] s

end RegisterLayout.Text
