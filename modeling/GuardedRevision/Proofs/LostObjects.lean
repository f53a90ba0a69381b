import GuardedRevision.Proofs.HiddenObjects

/-!
# Lost objects

A store that has lost objects fails where a whole one answers, and that is all the difference it makes.
What it answers without a fault, that nothing was found included, has been read from objects that it
still has, so the whole store answers the same.
-/

namespace GuardedRevision

/-- What is found on the one side is found on the other as well. Nothing is said about faults. -/
def Persists {α : Type} (found other : Except Fault α) : Prop :=
  ∀ value, found = .ok value → other = .ok value

/-- What is found on a memo is found on a related one as well, and the memos stay related. -/
def Asking.Persists {α : Type} (relation : VisibilityMemo → VisibilityMemo → Prop)
    (asking other : Asking α) : Prop :=
  ∀ left right, relation left right → ∀ value after, Gives asking left value after →
    ∃ ended, Gives other right value ended ∧ relation after ended

section Sequences

variable {α β : Type} {relation : VisibilityMemo → VisibilityMemo → Prop}

theorem Persists.refl (found : Except Fault α) : Persists found found := fun _ hfound => hfound

theorem Persists.bind {first other : Except Fault α} {rest others : α → Except Fault β}
    (hfirst : Persists first other)
    (hrest : ∀ value, first = .ok value → Persists (rest value) (others value)) :
    Persists (first >>= rest) (other >>= others) := by
  intro value hvalue
  obtain ⟨found, hfound, hvalue⟩ := except_bind_eq_ok_iff.mp hvalue
  exact except_bind_eq_ok_iff.mpr ⟨found, hfirst found hfound, hrest found hfound value hvalue⟩

namespace Asking

theorem Persists.pure (value : α) : Asking.Persists relation (pure value) (pure value) := by
  intro left right hrelated found after hgives
  obtain ⟨rfl, rfl⟩ := gives_pure.mp hgives
  exact ⟨right, gives_pure.mpr ⟨rfl, rfl⟩, hrelated⟩

theorem Persists.bind {first other : Asking α} {rest others : α → Asking β}
    (hfirst : Asking.Persists relation first other)
    (hrest : ∀ value before after, Gives first before value after →
      Asking.Persists relation (rest value) (others value)) :
    Asking.Persists relation (first >>= rest) (other >>= others) := by
  intro left right hrelated value after hgives
  obtain ⟨found, middle, hfound, hvalue⟩ := gives_bind.mp hgives
  obtain ⟨halfway, hother, hmiddle⟩ := hfirst left right hrelated found middle hfound
  obtain ⟨ended, hothers, hafter⟩ :=
    hrest found left middle hfound middle halfway hmiddle value after hvalue
  exact ⟨ended, gives_bind.mpr ⟨found, halfway, hother, hothers⟩, hafter⟩

theorem Persists.liftM {found other : Except Fault α} (hfound : GuardedRevision.Persists found other) :
    Asking.Persists relation (liftM found) (liftM other) := by
  intro left right hrelated value after hgives
  obtain ⟨hvalue, rfl⟩ := gives_liftM.mp hgives
  exact ⟨right, gives_liftM.mpr ⟨hfound value hvalue, rfl⟩, hrelated⟩

theorem persists_composes : Composes fun α => @Asking.Persists α relation :=
  ⟨Persists.pure, Persists.bind⟩

end Asking

end Sequences

variable {repo larger : Repository} {policy : BrowsePolicy} {capacity : Nat} {id : ObjectId}
  {roots : List ObjectId} {query : VisibilityQuery} {left right : VisibilityMemo} {text : String}

/-! ### Objects -/

namespace Repository

section Objects

variable (grows : repo.Grows larger)
include grows

theorem Grows.object_persists (id : ObjectId) : Persists (repo.object id) (larger.object id) :=
  fun _ => grows

theorem Grows.kind_persists (id : ObjectId) : Persists (repo.kind id) (larger.kind id) :=
  fun _ => grows.kind

theorem Grows.parents_persists (id : ObjectId) : Persists (repo.parents id) (larger.parents id) :=
  (grows.object_persists id).bind fun _ _ => .refl _

theorem Grows.peel_persists (id : ObjectId) : Persists (repo.peel id) (larger.peel id) :=
  fun _ hpeel => peel_eq_ok_iff.mpr ((peel_eq_ok_iff.mp hpeel).grow grows)

theorem Grows.peelToCommit_persists (id : ObjectId) :
    Persists (repo.peelToCommit id) (larger.peelToCommit id) :=
  (grows.peel_persists id).bind fun peeled _ => (grows.object_persists peeled).bind fun _ _ => .refl _

theorem Grows.ancestor_persists (n : Nat) (id : ObjectId) :
    Persists (repo.ancestor n id) (larger.ancestor n id) := by
  induction n generalizing id with
  | zero => exact .refl _
  | succ n ih =>
      refine (grows.parents_persists id).bind fun parents _ => ?_
      cases parents with
      | nil => exact .refl _
      | cons parent rest => exact ih parent

theorem Grows.step_persists (id : ObjectId) (step : Step) :
    Persists (repo.step id step) (larger.step id step) := by
  cases step with
  | ancestor n => exact grows.ancestor_persists n id
  | parent n => exact (grows.parents_persists id).bind fun _ _ => .refl _

theorem Grows.stepAll_persists (steps : List Step) (id : ObjectId) :
    Persists (repo.stepAll steps id) (larger.stepAll steps id) := by
  induction steps generalizing id with
  | nil => exact .refl _
  | cons step rest ih =>
      refine (grows.step_persists id step).bind fun reached _ => ?_
      cases reached with
      | none => exact .refl _
      | some next => exact ih next

theorem Grows.destination_persists (base : ObjectId) (steps : List Step) :
    Persists (repo.destination base steps) (larger.destination base steps) := by
  unfold Repository.destination
  split
  · exact .refl _
  · refine (grows.peelToCommit_persists base).bind fun commit _ => ?_
    cases commit with
    | none => exact .refl _
    | some start => exact grows.stepAll_persists steps start

theorem Grows.revision_persists (name : String) (id : ObjectId) :
    Persists (repo.revision name id) (larger.revision name id) :=
  (grows.kind_persists id).bind fun _ _ => (grows.peel_persists id).bind fun peeled _ =>
    (grows.kind_persists peeled).bind fun _ _ => .refl _

end Objects

/-! ### Refs -/

section Refs

variable (same : repo.SameRefs larger) (grows : repo.Grows larger)
include same grows

theorem SameRefs.findRef_persists (name : String) :
    Persists (repo.findRef name) (larger.findRef name) := by
  unfold Repository.findRef
  rw [same.refValue]
  refine (Persists.refl _).bind fun value _ => ?_
  cases value with
  | none => exact .refl _
  | some value =>
      dsimp only
      rw [same.follow]
      split
      · exact .refl _
      · exact .refl _
      · exact .refl _
      · next target =>
          exact (Persists.refl _).bind fun _ _ =>
            Persists.bind (fun _ => grows.peelTag) fun _ _ => .refl _

theorem SameRefs.firstRef_persists (names : List String) :
    Persists (repo.firstRef names) (larger.firstRef names) := by
  induction names with
  | nil => exact .refl _
  | cons name rest ih =>
      refine (same.findRef_persists grows name).bind fun entry _ => ?_
      cases entry with
      | none => exact ih
      | some entry => exact .refl _

/-- Digits are looked for among all that is stored, so a base must not be made of digits. -/
theorem SameRefs.base_persists {base : String} (hplain : ObjectId.isHashLike base = false) :
    Persists (repo.base base) (larger.base base) := by
  have hnone : ∀ repo : Repository, repo.withDigits? base = .ok none := by
    intro repo
    unfold Repository.withDigits?
    rw [hplain, Bool.false_and, if_neg Bool.false_ne_true]
  unfold Repository.base
  rw [hnone, hnone]
  exact (same.firstRef_persists grows _).bind fun _ _ => .refl _

theorem SameRefs.entries_persists (names : List RefName) :
    Persists (repo.entries names) (larger.entries names) := by
  induction names with
  | nil => exact .refl _
  | cons name rest ih =>
      rw [Repository.entries, Repository.entries, same.listedTarget?]
      split
      · exact Persists.bind (fun _ => grows.peelTag) fun _ _ => ih.bind fun _ _ => .refl _
      · exact ih

theorem SameRefs.listRefs_persists : Persists repo.listRefs larger.listRefs := by
  unfold Repository.listRefs
  rw [same.refNames]
  exact same.entries_persists grows _

end Refs

end Repository

/-! ### Visibility -/

section Visibility

variable (same : repo.SameRefs larger) (grows : repo.Grows larger)
include same grows

theorem BrowsePolicy.answer_persists (policy : BrowsePolicy) (query : VisibilityQuery) :
    Persists (policy.answer repo query) (policy.answer larger query) := by
  intro visible hanswer
  unfold BrowsePolicy.answer at hanswer ⊢
  cases hlisted : repo.listRefs with
  | error fault => simp [hlisted] at hanswer
  | ok refs =>
      rw [hlisted] at hanswer
      rw [same.listRefs_persists grows refs hlisted]
      dsimp only at hanswer ⊢
      by_cases htip : BrowsePolicy.isTip refs query.target = true
      · rwa [if_pos htip] at hanswer ⊢
      · rw [if_neg htip] at hanswer ⊢
        cases hkind : repo.kind query.target with
        | error fault => simp [hkind] at hanswer
        | ok kind =>
            rw [hkind] at hanswer
            rw [grows.kind hkind]
            cases kind with
            | commit => exact grows.isReachableInStages (Repository.kind_eq_commit_iff.mp hkind) hanswer
            | tree => exact hanswer
            | blob => exact hanswer
            | tag => exact hanswer

end Visibility

namespace VisibilityMemo

/-- The memos of two repositories that remember the same as visible, and nothing wrong as hidden. -/
structure Twin (policy : BrowsePolicy) (repo larger : Repository) (left right : VisibilityMemo) :
    Prop where
  small : left.Honest policy repo
  large : right.Honest policy larger
  visible : ∀ target, (repo.scope, target) ∈ left.visible ↔ (larger.scope, target) ∈ right.visible

theorem twin_empty {room : Nat} :
    Twin policy repo larger (.empty policy capacity) (.empty policy room) :=
  ⟨honest_empty, honest_empty, fun _ => iff_of_false List.not_mem_nil List.not_mem_nil⟩

variable (same : repo.SameRefs larger) (grows : repo.Grows larger)
include same grows

/-- What the larger store is asked has the same answer, whether it is remembered or searched for. -/
theorem Twin.check_eq (twin : Twin policy repo larger left right) {visible : Bool}
    (hfound : (left.check repo query).1 = .ok visible) :
    (right.check larger query).1 = .ok visible := by
  have hleft := check_asks left repo query
  have hright := check_asks right larger query
  by_cases hold : (repo.scope, query.target) ∈ left.visible
  · rw [hleft.shown hold] at hfound
    rw [hright.shown ((twin.visible query.target).mp hold), hfound]
  · have hnew : (larger.scope, query.target) ∉ right.visible := fun hmem =>
      hold ((twin.visible query.target).mpr hmem)
    have hanswer : policy.answer larger query = .ok visible := by
      refine policy.answer_persists same grows query visible ?_
      by_cases hdenies : left.Denies repo query
      · rw [twin.small.hidden query hdenies, ← hleft.denied hold hdenies, hfound]
      · rw [← hfound, hleft.answered hold hdenies, twin.small.samePolicy]
    by_cases hdenies : right.Denies larger query
    · rw [hright.denied hnew hdenies, ← twin.large.hidden query hdenies, hanswer]
    · rw [hright.answered hnew hdenies, twin.large.samePolicy, hanswer]

theorem isVisible_persists (id : ObjectId) (roots : List ObjectId) :
    Asking.Persists (Twin policy repo larger) (repo.isVisible id roots) (larger.isVisible id roots) := by
  intro left right twin visible after hgives
  have hcheck : left.check repo ⟨id, roots⟩ = (.ok visible, after) := hgives
  have hfound : (left.check repo ⟨id, roots⟩).1 = .ok visible := congrArg Prod.fst hcheck
  have hsame := twin.check_eq same grows hfound
  refine ⟨(right.check larger ⟨id, roots⟩).2, Prod.ext hsame rfl, ?_⟩
  have hafter : after = (left.check repo ⟨id, roots⟩).2 := (congrArg Prod.snd hcheck).symm
  subst hafter
  refine ⟨twin.small.check _, twin.large.check _, fun target => ?_⟩
  rw [(check_asks left repo ⟨id, roots⟩).visible, (check_asks right larger ⟨id, roots⟩).visible,
    hfound, hsame, twin.visible target]
  simp only [Prod.mk.injEq, true_and]

end VisibilityMemo

/-! ### Expressions -/

namespace Repository

open VisibilityMemo

section Resolving

variable (same : repo.SameRefs larger) (grows : repo.Grows larger)
include grows

theorem Grows.matching (relation : VisibilityMemo → VisibilityMemo → Prop) :
    repo.Matches larger (fun _ => True) fun α => @Asking.Persists α relation where
  composes := Asking.persists_composes
  found := fun _ => trivial
  destination := fun steps _ => .liftM (grows.destination_persists _ steps)
  reached := fun _ _ => trivial
  revision := fun name _ _ => .liftM (grows.revision_persists name _)
  peelToCommit := fun _ => .liftM (grows.peelToCommit_persists _)
  parents := fun _ => .liftM (grows.parents_persists _)

include same

theorem SameRefs.resolve_persists (hplain : ∀ base ∈ Expression.bases text,
    ObjectId.isHashLike base = false) :
    Asking.Persists (Twin policy repo larger) (repo.resolve text) (larger.resolve text) :=
  (grows.matching _).resolve (fun roots _ id _ => isVisible_persists same grows id roots)
    fun base hmem => .liftM (same.base_persists grows (hplain base hmem))

/-- What is resolved without a fault where objects are missing is what they resolve to when nothing is
missing any more, as long as no base looks like the digits of an id. -/
theorem SameRefs.resolve_eq_of_ok (policy : BrowsePolicy) (capacity : Nat) {text : String}
    (hplain : ∀ base ∈ Expression.bases text, ObjectId.isHashLike base = false)
    {found : Option Resolution}
    (hfound : ((repo.resolve text).on (.empty policy capacity)).1 = .ok found) :
    ((larger.resolve text).on (.empty policy capacity)).1 = .ok found := by
  obtain ⟨ended, hended, _⟩ := same.resolve_persists grows hplain (.empty policy capacity)
    (.empty policy capacity) twin_empty found _ (Prod.ext hfound rfl)
  exact congrArg Prod.fst hended

end Resolving

/-! ### The first change lost -/

def lostReview : Repository := { underReview with objects := underReview.objects.take 1 }

theorem lostReview_within : lostReview.Within underReview := by
  have faithful : (Change.addObjects (underReview.objects.drop 1)).IsFaithful := .inl (by decide +kernel)
  have hwhole : lostReview.addObjects (underReview.objects.drop 1) = underReview := rfl
  exact hwhole ▸ within_addObjects faithful

theorem resolve_eq_of_ok_lostReview :
    lostReview.SameRefs underReview ∧ lostReview.Grows underReview ∧
    lostReview.object firstChange = .error (.missingObject firstChange) ∧
    (∀ base ∈ Expression.bases "refs/changes/1/README", ObjectId.isHashLike base = false) ∧
    ∃ resolution, ((lostReview.resolve "refs/changes/1/README").on (.empty ⟨[]⟩ 4)).1 =
        .ok (some resolution) ∧
      ((underReview.resolve "refs/changes/1/README").on (.empty ⟨[]⟩ 4)).1 = .ok (some resolution) := by
  have hplain : ∀ base ∈ Expression.bases "refs/changes/1/README",
      ObjectId.isHashLike base = false := by
    decide +kernel
  let revision : Revision := .ofCommit "refs/changes/1" secondChange
  have hfound : ((lostReview.resolve "refs/changes/1/README").on (.empty ⟨[]⟩ 4)).1 =
      .ok (some ⟨revision, none, "/README"⟩) := by
    decide +kernel
  have same : lostReview.SameRefs underReview := lostReview_within.sameRefs
  have grows : lostReview.Grows underReview := lostReview_within.grows
  exact ⟨same, grows, by decide +kernel, hplain, _, hfound,
    same.resolve_eq_of_ok grows ⟨[]⟩ 4 hplain hfound⟩

/-- Steps to what was lost are a fault, whether it may be shown or not. -/
example : ((lostReview.resolve "refs/changes/1^").on (.empty ⟨["refs/changes/"]⟩ 4)).1 =
      .error (.missingObject firstChange) ∧
    ((underReview.resolve "refs/changes/1^").on (.empty ⟨["refs/changes/"]⟩ 4)).1 = .ok none := by
  decide +kernel

end Repository

end GuardedRevision
