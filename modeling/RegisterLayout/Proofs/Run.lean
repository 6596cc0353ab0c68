import RegisterLayout.Proofs.Outcome

/-!
# Runs with a state

What a computation that reads and writes a state and may fail keeps of the state.  An invariant
that every step keeps is kept by a run, with something known of each result on the way and of
the failures that can end it.

Principal definition: `Keeps`.
-/

namespace RegisterLayout

variable {σ α β : Type}

/-- From every state with the invariant a computation comes to a result with `post` in a state with
the invariant, or it fails as `fails` says. -/
def Keeps (inv : σ → Prop) (fails : Failure → Prop) (post : α → Prop)
    (x : StateT σ (Except Failure) α) : Prop :=
  ∀ s, inv s → (∀ r, x.run s = .ok r → post r.1 ∧ inv r.2) ∧ FailsOnly fails (x.run s)

namespace Keeps

variable {inv : σ → Prop} {fails : Failure → Prop} {post post' : α → Prop} {after : β → Prop}
  {x : StateT σ (Except Failure) α} {f : α → StateT σ (Except Failure) β}

theorem pure {a : α} (h : post a) :
    Keeps inv fails post (Pure.pure a : StateT σ (Except Failure) α) := by
  intro s hs
  refine ⟨fun r hr => ?_, .ok⟩
  obtain rfl := Except.ok.inj hr
  exact ⟨h, hs⟩

theorem throw {e : Failure} (h : fails e) :
    Keeps inv fails post (MonadExcept.throw e : StateT σ (Except Failure) α) := by
  intro s _
  refine ⟨fun r hr => ?_, .error h⟩
  cases hr

theorem bind (hx : Keeps inv fails post x) (hf : ∀ a, post a → Keeps inv fails after (f a)) :
    Keeps inv fails after (x >>= f) := by
  intro s hs
  rw [StateT.run_bind]
  obtain ⟨hok, herror⟩ := hx s hs
  constructor
  · intro r hr
    obtain ⟨p, hp, hr⟩ := bind_eq_ok_iff.1 hr
    obtain ⟨hpost, hinv⟩ := hok p hp
    exact (hf p.1 hpost p.2 hinv).1 r hr
  · refine herror.bind fun p hp => ?_
    obtain ⟨hpost, hinv⟩ := hok p hp
    exact (hf p.1 hpost p.2 hinv).2

theorem imp (hx : Keeps inv fails post x) (h : ∀ a, post a → post' a) :
    Keeps inv fails post' x := by
  intro s hs
  obtain ⟨hok, herror⟩ := hx s hs
  exact ⟨fun r hr => ⟨h _ (hok r hr).1, (hok r hr).2⟩, herror⟩

theorem get : Keeps inv fails inv (MonadState.get : StateT σ (Except Failure) σ) := by
  intro s hs
  refine ⟨fun r hr => ?_, .ok⟩
  obtain rfl := Except.ok.inj hr
  exact ⟨hs, hs⟩

theorem update {change : σ → σ} (h : ∀ s, inv s → inv (change s)) :
    Keeps inv fails (fun _ => True) (modify change : StateT σ (Except Failure) PUnit) := by
  intro s hs
  refine ⟨fun r hr => ?_, .ok⟩
  obtain rfl := Except.ok.inj hr
  exact ⟨trivial, h s hs⟩

/-- A step that does not touch the state. -/
theorem lift {y : Except Failure α} (hpost : ∀ a, y = .ok a → post a)
    (hfails : FailsOnly fails y) :
    Keeps inv fails post (liftM y : StateT σ (Except Failure) α) := by
  intro s hs
  cases y with
  | ok a =>
    refine ⟨fun r hr => ?_, .ok⟩
    obtain rfl := Except.ok.inj hr
    exact ⟨hpost a rfl, hs⟩
  | error e =>
    refine ⟨fun r hr => ?_, .error (hfails e rfl)⟩
    cases hr

theorem ite {c : Prop} [Decidable c] {y : StateT σ (Except Failure) α}
    (hx : c → Keeps inv fails post x) (hy : ¬c → Keeps inv fails post y) :
    Keeps inv fails post (if c then x else y) := by
  by_cases hc : c
  · rw [if_pos hc]
    exact hx hc
  · rw [if_neg hc]
    exact hy hc

theorem throw_bind {e : Failure} (h : fails e) :
    Keeps inv fails after ((MonadExcept.throw e : StateT σ (Except Failure) α) >>= f) := by
  have hthrow : Keeps inv fails (fun _ : α => False) (MonadExcept.throw e) := .throw h
  exact hthrow.bind fun _ hfalse => hfalse.elim

/-- A check that refuses on a condition. -/
theorem refuse {c : Prop} [Decidable c] {e : Failure} {y : StateT σ (Except Failure) β}
    (he : c → fails e) (hy : ¬c → Keeps inv fails after y) :
    Keeps inv fails after
      (if c then (MonadExcept.throw e : StateT σ (Except Failure) α) >>= f else y) :=
  .ite (fun hc => .throw_bind (he hc)) hy

theorem mapM {as : List β} {g : β → StateT σ (Except Failure) α}
    (h : ∀ b ∈ as, Keeps inv fails post (g b)) :
    Keeps inv fails (fun rs => ∀ r ∈ rs, post r) (as.mapM g) := by
  induction as with
  | nil => exact .pure nofun
  | cons b as ih =>
    obtain ⟨hb, has⟩ := List.forall_mem_cons.1 h
    rw [List.mapM_cons]
    refine hb.bind fun r hr => (ih has).bind fun rs hrs => .pure ?_
    exact List.forall_mem_cons.2 ⟨hr, hrs⟩

/-- What several steps come to, put together. -/
theorem flatten_mapM {as : List β} {g : β → StateT σ (Except Failure) (List α)}
    (h : ∀ b ∈ as, Keeps inv fails (fun rs => ∀ r ∈ rs, post r) (g b)) :
    Keeps inv fails (fun found => ∀ r ∈ found.flatten, post r) (as.mapM g) := by
  refine (mapM h).imp fun found hfound r hr => ?_
  obtain ⟨rs, hrs, hr⟩ := List.mem_flatten.1 hr
  exact hfound rs hrs r hr

theorem forM {as : List β} {g : β → StateT σ (Except Failure) PUnit}
    (h : ∀ b ∈ as, Keeps inv fails (fun _ => True) (g b)) :
    Keeps inv fails (fun _ => True) (as.forM g) := by
  induction as with
  | nil => exact .pure trivial
  | cons b as ih =>
    obtain ⟨hb, has⟩ := List.forall_mem_cons.1 h
    exact hb.bind fun _ _ => ih has

theorem findM? {as : List β} {g : β → StateT σ (Except Failure) Bool}
    (h : ∀ b ∈ as, Keeps inv fails (fun _ => True) (g b)) :
    Keeps inv fails (fun found => ∀ b, found = some b → b ∈ as) (as.findM? g) := by
  induction as with
  | nil => exact .pure nofun
  | cons b as ih =>
    obtain ⟨hb, has⟩ := List.forall_mem_cons.1 h
    rw [List.findM?]
    refine hb.bind fun holds _ => ?_
    cases holds with
    | true => exact .pure fun c hc => Option.some.inj hc ▸ List.mem_cons_self
    | false => exact (ih has).imp fun found hfound c hc => List.mem_cons_of_mem _ (hfound c hc)

end Keeps

end RegisterLayout
