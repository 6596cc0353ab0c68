import Mathlib.Algebra.BigOperators.Ring.List
import Mathlib.Algebra.Order.Ring.Int
import RegisterLayout.Failure

/-!
# Outcomes

When a sequence of steps that may fail comes to a value: every step does, and no check on the way
refuses.  When it fails: at the first step that does.

Principal results: `bind_eq_ok_iff`, `refuse_eq_ok_iff`, `wrapped_eq_ok_iff`,
`foldlM_eq_error_iff`.
-/

namespace RegisterLayout

variable {α β γ : Type}

theorem bind_eq_ok_iff {x : Except Failure α} {f : α → Except Failure β} {b : β} :
    (x >>= f) = .ok b ↔ ∃ a, x = .ok a ∧ f a = .ok b := by
  cases x <;> simp [bind, Except.bind]

theorem bind_eq_error_iff {x : Except Failure α} {f : α → Except Failure β} {e : Failure} :
    (x >>= f) = .error e ↔ x = .error e ∨ ∃ a, x = .ok a ∧ f a = .error e := by
  cases x <;> simp [bind, Except.bind]

theorem ok_bind {a : α} {f : α → Except Failure β} : (.ok a >>= f) = f a := rfl

theorem error_bind {e : Failure} {f : α → Except Failure β} : (.error e >>= f) = .error e := rfl

theorem pure_eq_ok_iff {a b : α} : (pure a : Except Failure α) = .ok b ↔ b = a := by
  show (Except.ok a : Except Failure α) = .ok b ↔ b = a
  rw [Except.ok.injEq, eq_comm]

theorem throw_ne_ok {e : Failure} {a : α} : (throw e : Except Failure α) ≠ .ok a := nofun

theorem throw_bind {e : Failure} {f : α → Except Failure β} :
    (throw e >>= f) = (throw e : Except Failure β) := rfl

theorem exists_of_isOk {x : Except Failure α} (h : x.isOk = true) : ∃ a, x = .ok a := by
  cases x with
  | ok a => exact ⟨a, rfl⟩
  | error e => cases h

/-- A test passed by what a step comes to. -/
theorem exists_of_any {x : Except Failure α} {p : α → Bool} (h : x.toOption.any p = true) :
    ∃ a, x = .ok a ∧ p a = true := by
  cases x with
  | ok a => exact ⟨a, rfl, h⟩
  | error e => cases h

/-- What a step fails with. -/
def failure? : Except Failure α → Option Failure
  | .ok _ => none
  | .error e => some e

theorem failure?_eq_some_iff {x : Except Failure α} {e : Failure} :
    failure? x = some e ↔ x = .error e := by
  cases x <;> simp [failure?]

@[simp] theorem failure?_ok (a : α) : failure? (.ok a) = none := rfl

@[simp] theorem failure?_error (e : Failure) :
    failure? (.error e : Except Failure α) = some e := rfl

/-- Steps fail where the first fails, and otherwise where the rest does. -/
theorem failure?_bind {x : Except Failure α} {f : α → Except Failure β} {r : Option Failure}
    (h : ∀ a, x = .ok a → failure? (f a) = r) : failure? (x >>= f) = (failure? x).or r := by
  cases x with
  | ok a => exact h a rfl
  | error e => rfl

theorem failure?_bind_pure (x : Except Failure α) (f : α → β) :
    failure? (x >>= fun a => pure (f a)) = failure? x := by
  cases x <;> rfl

/-- A failure that comes last is that of steps which are all right so far. -/
theorem failure?_bind_or {x : Except Failure α} {f : α → Except Failure β}
    {g : α → Except Failure γ} {r : Option Failure}
    (h : ∀ a, failure? (f a) = (failure? (g a)).or r) :
    failure? (x >>= f) = (failure? (x >>= g)).or r := by
  cases x with
  | ok a => exact h a
  | error e => rfl

theorem failure?_mapM (f : α → Except Failure β) (xs : List α) :
    failure? (xs.mapM f) = xs.findSome? fun a => failure? (f a) := by
  induction xs with
  | nil => rfl
  | cons a xs ih =>
    rw [List.mapM_cons, List.findSome?_cons, ← ih]
    rcases f a with e | b
    · rfl
    · exact failure?_bind_pure (xs.mapM f) (b :: ·)

theorem failure?_ne_none_iff {x : Except Failure α} :
    failure? x ≠ none ↔ ∃ e, x = .error e := by
  cases x <;> simp [failure?]

theorem failure?_eq_none_iff {x : Except Failure α} : failure? x = none ↔ ∃ a, x = .ok a := by
  cases x <;> simp [failure?]

/-- A check that has nothing to hand on. -/
theorem check_bind_eq_ok_iff {x : Except Failure Unit} {f : Unit → Except Failure β} {b : β} :
    (x >>= f) = .ok b ↔ x = .ok () ∧ f () = .ok b := by
  rw [bind_eq_ok_iff]
  exact Iff.intro (fun ⟨(), h⟩ => h) fun h => ⟨(), h⟩

/-- A check that refuses on a condition. -/
theorem refuse_eq_ok_iff {p : Prop} [Decidable p] {e : Failure} {f : α → Except Failure β}
    {x : Except Failure β} {b : β} :
    (if p then throw e >>= f else x) = .ok b ↔ ¬p ∧ x = .ok b := by
  by_cases hp : p
  · simp [hp, throw_bind, throw_ne_ok]
  · simp [hp]

/-- A step after which nothing can fail. -/
theorem error_eq_bind_ok_iff {x : Except Failure α} {f : α → β} {e : Failure} :
    (x >>= fun a => .ok (f a)) = .error e ↔ x = .error e := by
  cases x <;> simp [bind, Except.bind]

/-- A step whose one possible result is known, with that result wrapped up. -/
theorem wrapped_eq_ok_iff {x : Except Failure (α × γ)} {p : Prop} {a : α} {c : γ}
    (hx : ∀ r, x = .ok r ↔ p ∧ r = (a, c)) {wrap : α → β} {r : β × γ} :
    (x >>= fun r => pure (wrap r.1, r.2)) = .ok r ↔ p ∧ r = (wrap a, c) := by
  simp only [bind_eq_ok_iff, pure_eq_ok_iff]
  constructor
  · rintro ⟨r', hr, rfl⟩
    obtain ⟨hp, rfl⟩ := (hx r').1 hr
    exact ⟨hp, rfl⟩
  · rintro ⟨hp, rfl⟩
    exact ⟨(a, c), (hx _).2 ⟨hp, rfl⟩, rfl⟩

/-- Steps for the elements of a list that all come to a value. -/
theorem mapM_eq_ok_forall₂ {f : α → Except Failure β} {xs : List α} {ys : List β}
    (h : xs.mapM f = .ok ys) : List.Forall₂ (fun x y => f x = .ok y) xs ys := by
  induction xs generalizing ys with
  | nil =>
    obtain rfl := pure_eq_ok_iff.1 h
    exact .nil
  | cons x xs ih =>
    rw [List.mapM_cons, bind_eq_ok_iff] at h
    obtain ⟨y, hy, h⟩ := h
    obtain ⟨ys, hys, h⟩ := bind_eq_ok_iff.1 h
    obtain rfl := pure_eq_ok_iff.1 h
    exact .cons hy (ih hys)

/-- Steps for the elements of a list come to values if all of them do. -/
theorem mapM_of_forall {f : α → Except Failure β} {r : α → β → Prop} {xs : List α}
    (h : ∀ x ∈ xs, ∃ y, f x = .ok y ∧ r x y) :
    ∃ ys, xs.mapM f = .ok ys ∧ List.Forall₂ r xs ys := by
  induction xs with
  | nil => exact ⟨[], rfl, .nil⟩
  | cons x xs ih =>
    obtain ⟨hx, hxs⟩ := List.forall_mem_cons.1 h
    obtain ⟨y, hy, hr⟩ := hx
    obtain ⟨ys, hys, hrs⟩ := ih hxs
    refine ⟨y :: ys, ?_, .cons hr hrs⟩
    rw [List.mapM_cons, hy, ok_bind, hys, ok_bind]
    rfl

/-- Steps for the elements of a list, each with one possible result. -/
theorem mapM_eq_ok {f : α → Except Failure β} {g : α → β} {xs : List α} {ys : List β}
    (hf : ∀ x ∈ xs, ∀ y, f x = .ok y → y = g x) (h : xs.mapM f = .ok ys) : ys = xs.map g := by
  induction xs generalizing ys with
  | nil => exact pure_eq_ok_iff.1 h
  | cons x xs ih =>
    obtain ⟨hx, hxs⟩ := List.forall_mem_cons.1 hf
    simp only [List.mapM_cons, bind_eq_ok_iff, pure_eq_ok_iff] at h
    obtain ⟨y, hy, ys, hys, rfl⟩ := h
    rw [hx y hy, ih hxs hys, List.map_cons]

/-- Steps that fail do so at the first of them that fails. -/
theorem foldlM_eq_error_iff {f : β → α → Except Failure β} {xs : List α} {b : β}
    {e : Failure} :
    xs.foldlM f b = .error e ↔
      ∃ before x after c, xs = before ++ x :: after ∧ before.foldlM f b = .ok c ∧
        f c x = .error e := by
  induction xs generalizing b with
  | nil =>
    constructor
    · intro h
      cases h
    · rintro ⟨before, x, after, c, h, -⟩
      simp at h
  | cons y xs ih =>
    rw [List.foldlM_cons]
    constructor
    · intro h
      cases hy : f b y with
      | error e' =>
        rw [hy, error_bind, Except.error.injEq] at h
        exact ⟨[], y, xs, b, rfl, rfl, h ▸ hy⟩
      | ok b' =>
        rw [hy, ok_bind, ih] at h
        obtain ⟨before, x, after, c, rfl, hbefore, hx⟩ := h
        refine ⟨y :: before, x, after, c, rfl, ?_, hx⟩
        rw [List.foldlM_cons, hy, ok_bind, hbefore]
    · rintro ⟨before, x, after, c, heq, hbefore, hx⟩
      cases before with
      | nil =>
        obtain ⟨rfl, -⟩ := List.cons.inj heq
        obtain rfl := Except.ok.inj hbefore
        rw [hx, error_bind]
      | cons z before =>
        obtain ⟨rfl, rfl⟩ := List.cons.inj heq
        rw [List.foldlM_cons, bind_eq_ok_iff] at hbefore
        obtain ⟨b', hb', hbefore⟩ := hbefore
        rw [hb', ok_bind]
        exact ih.2 ⟨before, x, after, c, rfl, hbefore, hx⟩

/-- A step for a value that may be missing. -/
theorem optionMapM_eq_ok {f : α → Except Failure β} {g : α → β} {x : Option α} {y : Option β}
    (hf : ∀ a b, f a = .ok b → b = g a) (h : x.mapM f = .ok y) : y = x.map g := by
  cases x with
  | none => exact pure_eq_ok_iff.1 h
  | some a =>
    rw [Option.mapM_some, map_eq_pure_bind] at h
    simp only [bind_eq_ok_iff, pure_eq_ok_iff] at h
    obtain ⟨b, hb, rfl⟩ := h
    rw [hf a b hb, Option.map_some]

/-! ## What a step can fail with -/

/-- A step whose failures are all of one sort. -/
def FailsOnly (p : Failure → Prop) (x : Except Failure α) : Prop := ∀ e, x = .error e → p e

namespace FailsOnly

variable {p : Failure → Prop}

theorem ok {a : α} : FailsOnly p (.ok a) := nofun

theorem pure {a : α} : FailsOnly p (Pure.pure a : Except Failure α) := nofun

theorem error {e : Failure} (h : p e) : FailsOnly p (.error e : Except Failure α) := by
  intro e' he
  obtain rfl := Except.error.inj he
  exact h

theorem throw {e : Failure} (h : p e) : FailsOnly p (MonadExcept.throw e : Except Failure α) :=
  error h

theorem imp {q : Failure → Prop} {x : Except Failure α} (hx : FailsOnly p x)
    (h : ∀ e, p e → q e) : FailsOnly q x := fun e he => h e (hx e he)

theorem bind {x : Except Failure α} {f : α → Except Failure β} (hx : FailsOnly p x)
    (hf : ∀ a, x = .ok a → FailsOnly p (f a)) : FailsOnly p (x >>= f) := by
  intro e he
  rcases bind_eq_error_iff.1 he with he | ⟨a, ha, he⟩
  · exact hx e he
  · exact hf a ha e he

theorem ite {c : Prop} [Decidable c] {x y : Except Failure α} (hx : c → FailsOnly p x)
    (hy : ¬c → FailsOnly p y) : FailsOnly p (if c then x else y) := by
  by_cases hc : c
  · rw [if_pos hc]
    exact hx hc
  · rw [if_neg hc]
    exact hy hc

/-- A check that refuses on a condition. -/
theorem refuse {c : Prop} [Decidable c] {e : Failure} {f : α → Except Failure β}
    {x : Except Failure β} (he : c → p e) (hx : ¬c → FailsOnly p x) :
    FailsOnly p (if c then MonadExcept.throw e >>= f else x) :=
  ite (fun hc => throw (he hc)) hx

theorem mapM {f : α → Except Failure β} {xs : List α} (hf : ∀ x ∈ xs, FailsOnly p (f x)) :
    FailsOnly p (xs.mapM f) := by
  induction xs with
  | nil => exact pure
  | cons x xs ih =>
    obtain ⟨hx, hxs⟩ := List.forall_mem_cons.1 hf
    rw [List.mapM_cons]
    exact hx.bind fun _ _ => (ih hxs).bind fun _ _ => pure

end FailsOnly

/-- A step comes to a value with `post`, or it fails as `fails` says. -/
def Yields (fails : Failure → Prop) (post : α → Prop) (x : Except Failure α) : Prop :=
  (∀ a, x = .ok a → post a) ∧ FailsOnly fails x

theorem FailsOnly.yields {fails : Failure → Prop} {x : Except Failure α} (h : FailsOnly fails x) :
    Yields fails (fun _ => True) x := ⟨fun _ _ => trivial, h⟩

namespace Yields

variable {fails : Failure → Prop} {post : α → Prop} {after : β → Prop} {x : Except Failure α}

theorem pure {a : α} (h : post a) : Yields fails post (Pure.pure a) := by
  refine ⟨fun b hb => ?_, .pure⟩
  rwa [pure_eq_ok_iff.1 hb]

theorem ok {a : α} (h : post a) : Yields fails post (.ok a) := .pure h

theorem error {e : Failure} (h : fails e) : Yields fails post (.error e) :=
  ⟨fun _ => nofun, .error h⟩

theorem imp {post' : α → Prop} (hx : Yields fails post x) (h : ∀ a, post a → post' a) :
    Yields fails post' x :=
  ⟨fun a ha => h a (hx.1 a ha), hx.2⟩

theorem bind {f : α → Except Failure β} (hx : Yields fails post x)
    (hf : ∀ a, post a → Yields fails after (f a)) : Yields fails after (x >>= f) := by
  refine ⟨fun b hb => ?_, hx.2.bind fun a ha => (hf a (hx.1 a ha)).2⟩
  obtain ⟨a, ha, hb⟩ := bind_eq_ok_iff.1 hb
  exact (hf a (hx.1 a ha)).1 b hb

theorem ite {c : Prop} [Decidable c] {y : Except Failure α} (hx : c → Yields fails post x)
    (hy : ¬c → Yields fails post y) : Yields fails post (if c then x else y) := by
  by_cases hc : c
  · rw [if_pos hc]
    exact hx hc
  · rw [if_neg hc]
    exact hy hc

/-- A check that refuses on a condition. -/
theorem refuse {c : Prop} [Decidable c] {e : Failure} {f : β → Except Failure α} (he : c → fails e)
    (hx : ¬c → Yields fails post x) :
    Yields fails post (if c then MonadExcept.throw e >>= f else x) :=
  ite (fun hc => error (he hc)) hx

theorem mapM {f : β → Except Failure α} {xs : List β} (hf : ∀ x ∈ xs, Yields fails post (f x)) :
    Yields fails (fun ys => ∀ y ∈ ys, post y) (xs.mapM f) := by
  induction xs with
  | nil => exact pure (List.forall_mem_nil post)
  | cons x xs ih =>
    obtain ⟨hx, hxs⟩ := List.forall_mem_cons.1 hf
    rw [List.mapM_cons]
    refine hx.bind fun y hy => (ih hxs).bind fun ys hys => pure ?_
    exact List.forall_mem_cons.2 ⟨hy, hys⟩

end Yields

/-! ## Values that are printed -/

theorem writable_eq_ok {v r : Value} (h : v.writable = .ok r) : r = v := by
  unfold Value.writable at h
  split at h
  · exact (Except.ok.inj h).symm
  · cases h

theorem written_eq_ok {v : Value} {s : Text} (h : v.written = .ok s) : s = v.text := by
  unfold Value.written at h
  cases hv : v.writable with
  | error e =>
    rw [hv] at h
    cases h
  | ok r =>
    rw [hv, writable_eq_ok hv] at h
    exact (Except.ok.inj h).symm

end RegisterLayout
