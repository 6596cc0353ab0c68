import RegisterLayout.Proofs.Appended
import RegisterLayout.Proofs.Occupied
import RegisterLayout.Proofs.TreeFailures

/-!
# Nodes with nothing in them

Placing refuses a blob of no bytes and a union of no members, and refuses them as empty fields if
nothing before them is at fault.  It does not ask whether the members of a union have bytes: what
decides whether a union takes any is whether there is a leaf in it, and a union of empty structs
takes none.

Principal definitions: `Field.Vacant`; `Field.Fits`, a tree that is right apart from vacant nodes.
Principal results: `Field.settles_of_fits`, `Field.resolve_takesByte_iff`;
`Field.resolve_hollowUnion`, a union that is accepted and takes nothing.
-/

namespace RegisterLayout

/-- A nought of any kind is no count of bytes, and it has a text. -/
theorem Value.Counts.not_bytes {v : Value} (h : v.Counts 0) :
    v.int?.filter (1 ≤ ·) = none ∧ v.isWritable = true := by
  cases v with
  | bool b => exact ⟨rfl, rfl⟩
  | num n =>
    cases n with
    | int m =>
      obtain rfl := counts_int.1 h
      exact ⟨rfl, (Value.isWritable_num 0).trans (isWritable_of_le (by decide) (by decide))⟩
    | real x => exact ⟨rfl, rfl⟩
  | _ => cases h

/-- A step that refuses something for being empty. -/
def RefusesEmpty {α : Type} (x : Except Failure α) : Prop :=
  ∃ e, x = .error e ∧ e.HasKind .emptyField

theorem refusesEmpty_ofCause {α : Type} {fullName : Text} {cause : Cause}
    (hwritable : cause.isWritable = true) (hkind : cause.kind = .emptyField) :
    RefusesEmpty (.error (.ofCause fullName cause) : Except Failure α) :=
  ⟨_, rfl, _, atNode_eq_layout rfl hwritable, hkind⟩

/-- A step that refuses something for being empty if there is such a thing, and comes to an offset
if there is not. -/
structure Settles {α : Type} (vacancy : Prop) (stop : Number) (x : Except Failure (α × Number)) :
    Prop where
  refuses : vacancy → RefusesEmpty x
  ends : ¬vacancy → ∃ a, x = .ok (a, stop)

namespace Settles

variable {α β : Type} {p q : Prop} {there stop : Number} {x : Except Failure (α × Number)}

theorem congr (hx : Settles p stop x) (hpq : p ↔ q) : Settles q stop x :=
  ⟨fun h => hx.refuses (hpq.2 h), fun h => hx.ends fun hp => h (hpq.1 hp)⟩

theorem of_ok {a : α} (hp : ¬p) (hx : x = .ok (a, stop)) : Settles p stop x :=
  ⟨fun h => absurd h hp, fun _ => ⟨a, hx⟩⟩

theorem bind {f : α × Number → Except Failure (β × Number)} (hx : Settles p there x)
    (hf : ∀ a, x = .ok (a, there) → Settles q stop (f (a, there))) :
    Settles (p ∨ q) stop (x >>= f) := by
  by_cases hp : p
  · obtain ⟨e, he, hkind⟩ := hx.refuses hp
    rw [he, error_bind]
    exact ⟨fun _ => ⟨e, rfl, hkind⟩, fun h => absurd (.inl hp) h⟩
  · obtain ⟨a, ha⟩ := hx.ends hp
    have hrest := hf a ha
    rw [ha, ok_bind]
    exact hrest.congr (or_iff_right hp).symm

/-- A last step that cannot fail. -/
theorem andThen {f : α × Number → Except Failure (β × Number)} (hx : Settles p stop x)
    (hf : ∀ a, x = .ok (a, stop) → ∃ b, f (a, stop) = .ok (b, stop)) :
    Settles p stop (x >>= f) := by
  refine (hx.bind (q := False) fun a ha => ?_).congr (or_iff_left id)
  obtain ⟨b, hb⟩ := hf a ha
  exact .of_ok id hb

end Settles

namespace Field

/-! ## Vacant nodes -/

/-- A blob of no bytes, or a union of no members. -/
def Vacant : Field → Prop
  | blob b => b.bytes.Counts 0
  | union _ members => members = []
  | _ => False

/-- A tree with a vacant node. -/
def HasVacancy (f : Field) : Prop := ∃ g ∈ f.nodes, g.Vacant

theorem hasVacancy_struct {h : Header} {fields : List Field} :
    (struct h fields).HasVacancy ↔ ∃ f ∈ fields, f.HasVacancy :=
  exists_mem_nodes.trans (or_iff_right id)

theorem hasVacancy_union {h : Header} {members : List Field} :
    (union h members).HasVacancy ↔ members = [] ∨ ∃ f ∈ members, f.HasVacancy :=
  exists_mem_nodes

theorem hasVacancy_of_leaf {f : Field} (hf : f.children = []) : f.HasVacancy ↔ f.Vacant := by
  refine exists_mem_nodes.trans (or_iff_left ?_)
  rw [hf]
  exact fun ⟨_, hc, _⟩ => nomatch hc

/-! ## Trees that are right apart from vacant nodes -/

mutual

/-- A tree that would fill the bytes between two offsets if vacant nodes were let pass: whatever
else placing asks of it from the first offset on, it keeps. -/
def Fits (path : Path) (index : Nat) (start stop : Number) : Field → Prop
  | blob b => b.header.NameAllowed ∧ b.bytes.Counts 0 ∧ stop = start ∨
    ∃ placed, place path index start (blob b) = .ok (placed, stop)
  | struct h fields => h.NameAllowed ∧ (∃ size, sumSizes 0 fields = .ok size) ∧
    FieldsFit (h.pathUnder path index) 0 start stop fields
  | union h members => h.NameAllowed ∧ h.IsNamed ∧
    MembersFit (h.pathUnder path index) 0 start start stop members
  | f => ∃ placed, place path index start f = .ok (placed, stop)
termination_by structural f => f

/-- The fields of a struct, one behind the other. -/
def FieldsFit (path : Path) (index : Nat) (start stop : Number) : List Field → Prop
  | [] => stop = start
  | f :: fs => fieldFault? index start f = none ∧
    ∃ there, Fits path index start there f ∧ FieldsFit path (index + 1) there stop fs
termination_by structural fs => fs

/-- The members of a union, which ends behind the longest. -/
def MembersFit (path : Path) (index : Nat) (start longest stop : Number) : List Field → Prop
  | [] => stop = longest
  | f :: fs => Surrounding.union.Admits 0 f ∧
    ∃ there, Fits path index start there f ∧
      MembersFit path (index + 1) start (longest.max there) stop fs
termination_by structural fs => fs

end

section

variable {path : Path} {index : Nat} {start stop : Number}

theorem refusesEmpty_placeBlob {b : Blob} {fullName : Text} (h : b.bytes.Counts 0) :
    RefusesEmpty (placeBlob b fullName start) := by
  obtain ⟨hbytes, hwritable⟩ := h.not_bytes
  rw [placeBlob, hbytes]
  refine refusesEmpty_ofCause ?_ rfl
  rw [Cause.isWritable, Cause.values, List.all_cons, hwritable]
  rfl

theorem not_counts_of_placeBlob {b : Blob} {fullName : Text} {r : Blob × Number}
    (h : placeBlob b fullName start = .ok r) : ¬b.bytes.Counts 0 := by
  intro hcounts
  obtain ⟨e, he, -⟩ : RefusesEmpty (placeBlob b fullName start) := refusesEmpty_placeBlob hcounts
  cases h.symm.trans he

theorem settles_placeFields {parent : Text} {fields : List Field}
    (ih : ∀ f ∈ fields, ∀ {path : Path} {index : Nat} {start stop : Number},
      f.Fits path index start stop → Settles f.HasVacancy stop (place path index start f))
    (h : FieldsFit path index start stop fields) :
    Settles (∃ f ∈ fields, f.HasVacancy) stop (placeFields parent path index start fields) := by
  induction fields generalizing index start with
  | nil =>
    obtain rfl : stop = start := h
    exact .of_ok (by simp) rfl
  | cons f fs ihfs =>
    obtain ⟨hf, hfs⟩ := List.forall_mem_cons.1 ih
    obtain ⟨hfault, there, hfits, hrest⟩ := h
    simp only [placeFields, hfault]
    rw [List.exists_mem_cons_iff]
    exact (hf hfits).bind fun a _ => (ihfs hfs hrest).andThen fun as _ => ⟨a :: as, rfl⟩

theorem settles_placeMembers {parent : Text} {members : List Field} {longest : Number}
    (ih : ∀ f ∈ members, ∀ {path : Path} {index : Nat} {start stop : Number},
      f.Fits path index start stop → Settles f.HasVacancy stop (place path index start f))
    (h : MembersFit path index start longest stop members) :
    Settles (∃ f ∈ members, f.HasVacancy) stop
      (placeMembers parent path index start longest members) := by
  induction members generalizing index longest with
  | nil =>
    obtain rfl : stop = longest := h
    exact .of_ok (by simp) rfl
  | cons f fs ihfs =>
    obtain ⟨hf, hfs⟩ := List.forall_mem_cons.1 ih
    obtain ⟨hadmits, there, hfits, hrest⟩ := h
    have hfault : memberFault? parent f = none := memberFault?_eq_none_iff.2 hadmits
    simp only [placeMembers, hfault]
    rw [List.exists_mem_cons_iff]
    exact (hf hfits).bind fun a _ => (ihfs hfs hrest).andThen fun as _ => ⟨a :: as, rfl⟩

/-- **A tree that fits is refused for its vacant nodes, and placed if it has none.** -/
theorem settles_of_fits {f : Field} (h : f.Fits path index start stop) :
    Settles f.HasVacancy stop (place path index start f) := by
  induction f using inductionOn generalizing path index start stop with
  | word w =>
    obtain ⟨placed, hplaced⟩ := h
    exact .of_ok (hasVacancy_of_leaf rfl).1 hplaced
  | bitfield b =>
    obtain ⟨placed, hplaced⟩ := h
    exact .of_ok (hasVacancy_of_leaf rfl).1 hplaced
  | blob b =>
    rw [hasVacancy_of_leaf rfl]
    rcases h with ⟨hname, hcounts, rfl⟩ | ⟨placed, hplaced⟩
    · refine ⟨fun _ => ?_, fun hne => absurd hcounts hne⟩
      obtain ⟨e, he, hkind⟩ := refusesEmpty_placeBlob hcounts
      rw [place, nodeName_eq_ok_iff.2 ⟨hname, rfl⟩, ok_bind]
      simp only
      rw [he]
      exact ⟨e, rfl, hkind⟩
    · obtain ⟨-, r, hr, -⟩ := place_blob_eq_ok_iff.1 hplaced
      exact .of_ok (not_counts_of_placeBlob hr) hplaced
  | struct header fields ih =>
    obtain ⟨hname, ⟨size, hsize⟩, hfields⟩ := h
    rw [hasVacancy_struct, place, nodeName_eq_ok_iff.2 ⟨hname, rfl⟩, ok_bind]
    refine (settles_placeFields ih hfields).andThen fun placed hplaced => ?_
    simp only [sumSizes_placeFields hplaced, hsize, ok_bind]
    exact ⟨_, rfl⟩
  | union header members ih =>
    obtain ⟨hname, hnamed, hmembers⟩ := h
    have hgiven : header.givenName?.isNone = false := by
      rwa [← Option.not_isSome, Bool.not_eq_false']
    rw [hasVacancy_union, place, nodeName_eq_ok_iff.2 ⟨hname, rfl⟩, ok_bind]
    simp only [hgiven, Bool.false_eq_true, if_false]
    by_cases hempty : members = []
    · rw [hempty]
      exact ⟨fun _ => refusesEmpty_ofCause rfl rfl, fun h => absurd (.inl rfl) h⟩
    · rw [if_neg (List.isEmpty_iff.not.2 hempty), or_iff_right hempty]
      exact (settles_placeMembers ih hmembers).andThen fun placed _ => ⟨_, rfl⟩
  | stray i =>
    obtain ⟨placed, hplaced⟩ := h
    exact absurd hplaced place_stray_ne_ok

/-! ## Placed trees -/

/-- A tree with a vacant node is never placed. -/
theorem not_hasVacancy_of_place {f : Field} {r : Field × Number}
    (h : place path index start f = .ok r) : ¬f.HasVacancy := by
  induction f using inductionOn generalizing path index start r with
  | word w | bitfield b => exact (hasVacancy_of_leaf rfl).1
  | blob b =>
    obtain ⟨-, placed, hplaced, -⟩ := place_blob_eq_ok_iff.1 h
    rw [hasVacancy_of_leaf rfl]
    exact not_counts_of_placeBlob hplaced
  | struct header fields ih =>
    obtain ⟨-, placed, hplaced, -⟩ := place_struct_eq_ok_iff.1 h
    rw [hasVacancy_struct]
    rintro ⟨f, hf, hvacant⟩
    obtain ⟨_, _, _, hr⟩ := place_of_mem_fields hplaced f hf
    exact ih f hf hr hvacant
  | union header members ih =>
    obtain ⟨-, -, hne, placed, hplaced, -⟩ := place_union_eq_ok_iff.1 h
    rw [hasVacancy_union]
    rintro (hempty | ⟨f, hf, hvacant⟩)
    · exact hne hempty
    · obtain ⟨_, _, _, hr⟩ := place_of_mem_members hplaced f hf
      exact ih f hf hr hvacant
  | stray i => exact absurd h place_stray_ne_ok

end

/-! ## Whole trees -/

/-- A node that takes at least a byte. -/
def TakesByte (f : Field) : Prop := ∃ n, f.sizeBits = .ok (.num n) ∧ n.Reaches 8

theorem Sized.takesByte_iff {f : Field} (hf : f.Sized) :
    (f.TakesByte ↔ f.Occupied) ∧ (¬f.Occupied → f.sizeBits = .ok 0) := by
  obtain ⟨v, hsize, hv⟩ := hf
  refine ⟨⟨fun ⟨n, hn, hreaches⟩ => ?_, fun h => ?_⟩, fun h => hsize.trans (congrArg _ (hv.zero h))⟩
  · by_contra h
    obtain rfl := hv.zero h
    obtain rfl : 0 = n := Value.num.inj (Except.ok.inj (hsize.symm.trans hn))
    exact absurd (Number.reaches_int.1 hreaches) (by decide)
  · obtain ⟨n, rfl, hn⟩ := hv.reaches h
    exact ⟨n, hsize, hn⟩

theorem sized_of_resolve {raw root : Field} (h : raw.resolve = .ok root) :
    ¬raw.HasVacancy ∧ ∀ g ∈ root.nodes, g.Sized := by
  simp only [resolve, check_bind_eq_ok_iff, @bind_eq_ok_iff (Field × Number), pure_eq_ok_iff] at h
  obtain ⟨-, placed, hplaced, -, rfl⟩ := h
  exact ⟨not_hasVacancy_of_place hplaced, sized_of_place hplaced⟩

/-- A tree that fits is refused for its vacant nodes, and never for emptiness if it has none. -/
theorem refusesEmpty_resolve_iff {raw : Field} {stop : Number}
    (hoffset : raw.checkRootOffset = .ok ()) (h : raw.Fits [] 0 0 stop) :
    RefusesEmpty raw.resolve ↔ raw.HasVacancy := by
  have hplace := settles_of_fits h
  rw [resolve, hoffset, ok_bind]
  constructor
  · rintro ⟨e, he, hkind⟩
    by_contra hne
    obtain ⟨placed, hplaced⟩ := hplace.ends hne
    rw [hplaced, ok_bind] at he
    rcases bind_eq_error_iff.1 he with he | ⟨-, -, he⟩
    · -- What is left to refuse are names.
      rw [checkUniqueNames_eq] at he
      rcases failsOnly_checkIntroduced_duplicate _ _ e he with ⟨l, rfl, hl⟩ | ⟨rfl, -⟩
      · obtain ⟨l', hl', hkind⟩ := hkind
        obtain rfl := Failure.layout.inj hl'
        cases hl.symm.trans hkind
      · obtain ⟨l, hl, -⟩ := hkind
        cases hl
    · cases he
  · intro hvacant
    obtain ⟨e, he, hkind⟩ := hplace.refuses hvacant
    rw [he, error_bind]
    exact ⟨e, rfl, hkind⟩

/-- **Which blobs and unions take bytes.**  In an accepted tree every blob takes at least a byte,
and a union takes one exactly if there is a leaf in it; a union without a leaf takes nothing.  A
tree with a blob of no bytes or a union of no members is never accepted, and one that is right apart
from such nodes is refused for being empty exactly if there are any. -/
theorem resolve_takesByte_iff (raw : Field) :
    (∀ root, raw.resolve = .ok root →
      (∀ b, blob b ∈ root.nodes → (blob b).TakesByte) ∧
      ∀ h members, union h members ∈ root.nodes →
        ((union h members).TakesByte ↔ (union h members).Occupied) ∧
        (¬(union h members).Occupied → (union h members).sizeBits = .ok 0)) ∧
    (raw.HasVacancy → ∃ e, raw.resolve = .error e) ∧
    ∀ stop, raw.checkRootOffset = .ok () → raw.Fits [] 0 0 stop →
      (RefusesEmpty raw.resolve ↔ raw.HasVacancy) := by
  refine ⟨fun root hroot => ?_, fun hvacant => ?_, fun stop => refusesEmpty_resolve_iff⟩
  · obtain ⟨-, hsized⟩ := sized_of_resolve hroot
    exact ⟨fun b hb => (hsized _ hb).takesByte_iff.1.2 (IsLeaf.occupied trivial),
      fun h members hu => (hsized _ hu).takesByte_iff⟩
  · cases hresolve : raw.resolve with
    | error e => exact ⟨e, rfl⟩
    | ok root => exact absurd hvacant (sized_of_resolve hresolve).1

/-- A struct with a union of a struct and a byte in it, and a blob behind it. -/
def boxedRoot : Field :=
  struct { name := some (.str "r") }
    [union { name := some (.str "u") }
      [struct { name := some (.str "s") }
        [word { header := { name := some (.str "a") }, bits := 8 }]],
     blob { header := { name := some (.str "p") }, bytes := 3 }]

/-- A struct with a union of no members behind a byte. -/
def vacantRoot : Field :=
  struct { name := some (.str "r") }
    [word { header := { name := some (.str "a") }, bits := 8 },
     union { name := some (.str "u") } []]

theorem resolve_takesByte_iff_boxedRoot :
    (∃ h members, union h members ∈ (boxedRoot.located [] 0 0).nodes ∧
      (union h members).TakesByte) ∧ RefusesEmpty vacantRoot.resolve := by
  have hresolve : boxedRoot.resolve = .ok (boxedRoot.located [] 0 0) := rfl
  have hunion := ((resolve_takesByte_iff boxedRoot).1 _ hresolve).2 _ _
    (List.mem_cons_of_mem _ List.mem_cons_self)
  have hfits : vacantRoot.Fits [] 0 0 1 :=
    ⟨by decide, ⟨8, rfl⟩, rfl, 1, ⟨_, rfl⟩, rfl, 1, ⟨by decide, by decide, rfl⟩, rfl⟩
  refine ⟨⟨_, _, List.mem_cons_of_mem _ List.mem_cons_self, hunion.1.2 ?_⟩, ?_⟩
  · exact ⟨_, List.mem_cons_of_mem _ (List.mem_cons_of_mem _ List.mem_cons_self), trivial⟩
  · refine ((resolve_takesByte_iff vacantRoot).2.2 1 rfl hfits).2 ?_
    exact ⟨_, List.mem_cons_of_mem _ (List.mem_cons_of_mem _ List.mem_cons_self), rfl⟩

/-- A union whose one member is a struct of no fields. -/
def hollowUnion : Field :=
  union { name := some (.str "u") } [struct { name := some (.str "s") } []]

/-- A union can take nothing. -/
theorem resolve_hollowUnion :
    hollowUnion.resolve = .ok (hollowUnion.located [] 0 0) ∧
      hollowUnion.located [] 0 0 ∈ (hollowUnion.located [] 0 0).nodes ∧
      (hollowUnion.located [] 0 0).sizeBits = .ok 0 ∧
      ¬(hollowUnion.located [] 0 0).TakesByte := by
  refine ⟨rfl, mem_nodes_self _, rfl, ?_⟩
  rintro ⟨n, hn, hreaches⟩
  obtain rfl : 0 = n := Value.num.inj (Except.ok.inj hn)
  exact absurd (Number.reaches_int.1 hreaches) (by decide)

end Field

end RegisterLayout
