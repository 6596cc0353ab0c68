import RegisterLayout.Schema.Violation

/-!
# Keywords of schemas

A schema is a list of keywords, each of which finds the violations of a value.  A keyword for
values of one type is silent about all others.  A keyword looks into the body of a collection that
contains itself, and what it finds is about the collection.

Principal definitions: `Check`, `Schema.typed` and the keywords.
-/

namespace RegisterLayout

/-- Finds the violations of a value, given the collections that contain themselves. -/
abbrev Check := Loops Value → Value → List Violation

namespace Schema

/-- The number that a value is; a truth value is none here. -/
def plainNumber? : Value → Option Number
  | .num n => some n
  | _ => none

/-- Equality of a value and a constant of a schema; a truth value equals no number. -/
def equals (constant v : Value) : Bool :=
  match v with
  | .bool _ => false
  | v => constant.same v

def hasType (t : ValueKind) : Check := fun loops v =>
  if t.holds (v.opened loops) then [] else [.here (.notOfType v t)]

/-- A schema that begins with a type.  Its own keywords know whether the value has the type; what
they find further down is not theirs. -/
def typed (t : ValueKind) (keywords : List Check) : Check := fun loops v =>
  (hasType t loops v ++ keywords.flatMap (· loops v)).map fun
    | .mk [] complaint _ branches => .mk [] complaint (t.holds (v.opened loops)) branches
    | violation => violation

/-- One of some constants. -/
def oneOfConstants (constants : List Value) : Check := fun _ v =>
  if constants.any (equals · v) then [] else [.here (.notAmong v constants)]

def constant (c : Value) : Check := fun _ v =>
  if equals c v then [] else [.here (.notConstant c)]

def minimum (least : Int) : Check := fun _ v =>
  match plainNumber? v with
  | some n => if n.lt (.int least) then [.here (.below v least)] else []
  | none => []

def maximum (greatest : Int) : Check := fun _ v =>
  match plainNumber? v with
  | some n => if (Number.int greatest).lt n then [.here (.above v greatest)] else []
  | none => []

/-- A text of some form, which messages show as a pattern. -/
def ofForm (form : List Char → Bool) (pattern : String) : Check := fun _ v =>
  match v with
  | .str s => if s.satisfies form then [] else [.here (.unmatched v pattern)]
  | _ => []

def nonEmpty : Check := fun loops v =>
  match v.opened loops with
  | .list [] => [.here (.empty v)]
  | _ => []

/-- A list in whose items some violations have been found. -/
def withItems (found : List Violation) : Check := fun loops v =>
  match v.opened loops with
  | .list _ => found
  | _ => []

/-- A check for every item of a list. -/
def items (check : Check) : Check := fun loops v =>
  match v.opened loops with
  | .list xs => (xs.mapIdx fun i x => (check loops x).map (.under (.int i))).flatten
  | _ => []

def required (keys : List String) : Check := fun loops v =>
  match v.opened loops with
  | .map entries =>
    (keys.filter fun key => (Value.lookup? entries (key : String)).isNone).map fun key =>
      .here (.missing key)
  | _ => []

/-- Checks for the values under some keys, in this order. -/
def properties (checks : List (String × Check)) : Check := fun loops v =>
  match v.opened loops with
  | .map entries => checks.flatMap fun (key, check) =>
      match Value.lookup? entries key with
      | some value => (check loops value).map (.under (.str key))
      | none => []
  | _ => []

/-- A check for the values under all keys. -/
def allProperties (check : Check) : Check := fun loops v =>
  match v.opened loops with
  | .map entries => entries.flatMap fun (key, value) => (check loops value).map (.under key)
  | _ => []

private def isAmong (keys : List String) : Value → Bool
  | .str s => keys.any fun key => s == Text.ofString key
  | _ => false

/-- No keys but these; the others are listed in the order of their texts. -/
def closed (keys : List String) : Check := fun loops v =>
  match v.opened loops with
  | .map entries =>
    let others := (entries.map Prod.fst).filter fun key => !isAmong keys key
    if others.isEmpty then []
    else
      [.here (.unexpected (Text.sortBy (fun a b => (a.text.compare b.text).isLE) others))]
  | _ => []

/-- The keys are among those of a schema exactly if it is silent about them. -/
theorem closed_eq_nil_iff {keys : List String} {loops : Loops Value} {v : Value}
    {entries : List (Value × Value)} (hv : v.opened loops = .map entries) :
    closed keys loops v = [] ↔
      ∀ entry ∈ entries, ∃ key ∈ keys, entry.1 = .str (Text.ofString key) := by
  have hamong : ∀ w, isAmong keys w = true ↔ ∃ key ∈ keys, w = .str (Text.ofString key) := by
    intro w
    unfold isAmong
    split
    · simp
    · rename_i hnone
      exact iff_of_false Bool.false_ne_true fun ⟨_, _, h⟩ => hnone _ h
  simp only [closed, hv]
  split
  · next hothers =>
    rw [List.isEmpty_iff, List.filter_eq_nil_iff, List.forall_mem_map] at hothers
    refine iff_of_true rfl fun entry hentry => (hamong _).1 ?_
    simpa using hothers entry hentry
  · next hothers =>
    rw [List.isEmpty_iff, List.filter_eq_nil_iff, List.forall_mem_map] at hothers
    refine iff_of_false (List.cons_ne_nil _ _) fun hall => hothers fun entry hentry => ?_
    simpa using (hamong _).2 (hall entry hentry)

/-- At least one of some schemas. -/
def choice (branches : List Check) : Check := fun loops v =>
  let found := branches.map (· loops v)
  if found.any List.isEmpty then [] else [.mk [] (.noBranch v) false found.flatten]

end Schema

end RegisterLayout
