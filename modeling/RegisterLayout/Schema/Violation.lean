import RegisterLayout.Schema.Complaint

/-!
# Violations of a schema

A violation says where a document departs from a schema, and in what.  A choice between schemas
that no branch satisfies is one violation, which keeps those of all its branches; for a message
the one that explains it best is chosen, the deepest first.

Principal definitions: `Violation`, `Violation.firstFault?`, `Violation.compare`,
`Violation.best`.
-/

namespace RegisterLayout

/-- A departure from a schema.  The path leads from the value that was checked, for the branches
of a choice from the value of the choice. -/
inductive Violation where
  /-- `ofType` tells whether the schema at fault names a type and the value has it. -/
  | mk (path : List Value) (complaint : Complaint) (ofType : Bool) (branches : List Violation)
  deriving Inhabited, Repr

namespace Violation

def path : Violation → List Value
  | mk path _ _ _ => path

def complaint : Violation → Complaint
  | mk _ complaint _ _ => complaint

def ofType : Violation → Bool
  | mk _ _ ofType _ => ofType

/-- The violations of the branches, of which there are none but for a choice. -/
def branches : Violation → List Violation
  | mk _ _ _ branches => branches

/-- A violation by the checked value itself. -/
def here (complaint : Complaint) : Violation := mk [] complaint false []

/-- A violation in the child of a value under a key or an index. -/
def under (step : Value) : Violation → Violation
  | mk path complaint ofType branches => mk (step :: path) complaint ofType branches

def isChoice (v : Violation) : Bool := !v.branches.isEmpty

/-! ## Faults of complaints -/

mutual

/-- The first complaint without a text, those of the branches before that of their choice. -/
def fault? (loops : Loops Value) : Violation → Option Failure
  | mk _ complaint _ branches => (firstFault? loops branches).or (complaint.fault? loops)
termination_by structural v => v

def firstFault? (loops : Loops Value) : List Violation → Option Failure
  | [] => none
  | v :: vs => (fault? loops v).or (firstFault? loops vs)
termination_by structural vs => vs

end

/-! ## Order of relevance -/

/-- The order of two lists of bytes, the first difference deciding. -/
private def compareBytes : List Nat → List Nat → Ordering
  | [], [] => .eq
  | [], _ :: _ => .lt
  | _ :: _, [] => .gt
  | a :: s, b :: t => (Ord.compare a b).then (compareBytes s t)

/-- The order of two steps of paths, which have to be of one kind, both numbers or both texts. -/
def compareSteps (a b : Value) : Except Failure Ordering :=
  if a.same b then .ok .eq
  else
    match a.number?, b.number? with
    | some m, some n => .ok (if m.lt n then .lt else .gt)
    | _, _ =>
      match a, b with
      | .str s, .str t => .ok (Text.compare s t)
      | .bytes s, .bytes t => .ok (compareBytes s t)
      | .date d, .date e => .ok (Ord.compare d.text e.text)
      | .moment d c, .moment e k =>
        if c.zone.isSome = k.zone.isSome then .ok (Ord.compare (instant d c) (instant e k))
        else .error .wrongType
      | _, _ => .error .wrongType

private theorem eq_of_compareBytes {a b : List Nat} (h : compareBytes a b = .eq) : a = b := by
  induction a generalizing b with
  | nil => cases b <;> simp_all [compareBytes]
  | cons x a ih =>
    cases b with
    | nil => simp [compareBytes] at h
    | cons y b =>
      rw [compareBytes, Ordering.then_eq_eq] at h
      rw [Nat.compare_eq_eq.1 h.1, ih h.2]

/-- Steps of which none is before the other are the same. -/
theorem same_of_compareSteps {a b : Value} (h : compareSteps a b = .ok .eq) :
    a.same b = true := by
  unfold compareSteps at h
  split at h
  · assumption
  · split at h
    · split at h <;> cases h
    · split at h
      · next s t _ =>
        obtain rfl := Text.eq_of_compare (Except.ok.inj h)
        simp [Value.same]
      · next s t _ =>
        obtain rfl := eq_of_compareBytes (Except.ok.inj h)
        simp [Value.same]
      · next d e _ =>
        obtain rfl := Date.text_inj (Std.LawfulEqOrd.eq_of_compare (Except.ok.inj h))
        simp [Value.same]
      · next d c e k _ =>
        split at h
        · next hzone =>
          have hinstant := Std.LawfulEqOrd.eq_of_compare (Except.ok.inj h)
          simp [Value.same, hzone, hinstant]
        · cases h
      · cases h

def comparePaths : List Value → List Value → Except Failure Ordering
  | [], [] => .ok .eq
  | [], _ :: _ => .ok .lt
  | _ :: _, [] => .ok .gt
  | a :: as, b :: bs => do
    match ← compareSteps a b with
    | .eq => comparePaths as bs
    | o => return o

/-- Relevance, the more relevant violation first: the deeper one, the one on the earlier path, a
choice, one by a value of the right type. -/
def compare (a b : Violation) : Except Failure Ordering := do
  let depth := Ord.compare b.path.length a.path.length
  if depth ≠ .eq then return depth
  let path ← comparePaths a.path b.path
  return path.then
    ((Ord.compare (!a.isChoice) (!b.isChoice)).then (Ord.compare (!a.ofType) (!b.ofType)))

/-- A violation with what is known of it once it is chosen: the path from the root of the
document and the complaint, given the path to where its own path begins. -/
abbrev Candidate := Violation × (List Value → Except Failure (List Value × Complaint))

/-- The two most relevant candidates found so far and those that follow; of two equally relevant
ones the earlier stays in front. -/
def twoBest (first second : Candidate) : List Candidate → Except Failure (Candidate × Candidate)
  | [] => .ok (first, second)
  | next :: rest => do
    if (← compare next.1 second.1) = .lt then
      if (← compare next.1 first.1) = .lt then twoBest next first rest
      else twoBest first next rest
    else twoBest first second rest

/-- What the candidates explain at a path: the most relevant one, or nothing if another is as
relevant. -/
def choose (above : List Value) :
    List Candidate → Except Failure (Option (List Value × Complaint))
  | [] => .ok none
  | [only] => do return some (← only.2 above)
  | a :: b :: rest => do
    let (first, second) :=
      if (← compare b.1 a.1) = .lt then (b, a) else (a, b)
    let (first, second) ← twoBest first second rest
    if (← compare first.1 second.1) = .eq then return none
    return some (← first.2 above)

mutual

/-- The path from the root and the complaint of the violation that explains this one best. -/
def best : Violation → List Value → Except Failure (List Value × Complaint)
  | mk path complaint _ branches => fun above => do
    let place := above ++ path
    match ← choose place (candidates branches) with
    | some found => return found
    | none => return (place, complaint)
termination_by structural v => v

def candidates : List Violation → List Candidate
  | [] => []
  | v :: vs => (v, best v) :: candidates vs
termination_by structural vs => vs

end

end Violation

end RegisterLayout
