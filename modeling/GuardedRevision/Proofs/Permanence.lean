import GuardedRevision.Proofs.Service
import GuardedRevision.Proofs.Visibility

/-!
# Permanence

What is remembered as visible was exposed when it was recorded, and it stays visible. This holds of any
run, also where storage is damaged in between: nothing is assumed about what is stored.
-/

namespace GuardedRevision

/-- An event, or damage that leaves anything at all in the place of what was stored. -/
inductive Incident (ι : Type) where
  | event (event : Event ι)
  | damage (place : ι) (left : Repository)

theorem VisibilityMemo.Asks.answer_of_new {memo after : VisibilityMemo} {repo : Repository}
    {query : VisibilityQuery} (hasks : memo.Asks repo query (.ok true) after)
    (hnew : (repo.scope, query.target) ∉ memo.visible) : memo.policy.answer repo query = .ok true := by
  have hfree : ¬ memo.Denies repo query := by
    intro hdenies
    have hfalse := hasks.denied hnew hdenies
    cases hfalse
  exact (hasks.answered hnew hfree).symm

namespace Service

variable {ι : Type} [DecidableEq ι]

def suffer (service : Service ι) : Incident ι → Service ι
  | .event event => service.after event
  | .damage place left =>
      let damaged := { left with scope := (service.repo place).scope }
      { service with repo := Function.update service.repo place damaged }

def sufferAll (service : Service ι) (incidents : List (Incident ι)) : Service ι :=
  incidents.foldl suffer service

/-- The call that records a pair, and what stands behind it: a ref that points at the target, or a
path from a browsable ref or from a root of the call. -/
structure Records (policy : BrowsePolicy) (service : Service ι) (place : ι) (query : VisibilityQuery)
    (pair : String × ObjectId) : Prop where
  entry : pair = ((service.repo place).scope, query.target)
  unknown : pair ∉ service.memo.visible
  recorded : pair ∈ (service.after (.ask place query)).memo.visible
  exposed : ∃ refs, (service.repo place).listRefs = .ok refs ∧
    policy.Exposes (service.repo place) refs query.roots query.target

variable {policy : BrowsePolicy} {service : Service ι} {incident : Incident ι}
  {incidents before later : List (Incident ι)} {place : ι} {query : VisibilityQuery}
  {pair : String × ObjectId}

theorem sufferAll_append :
    service.sufferAll (before ++ later) = (service.sufferAll before).sufferAll later :=
  List.foldl_append

/-! ### One incident -/

theorem policy_suffer : (service.suffer incident).memo.policy = service.memo.policy := by
  cases incident with
  | damage place left => rfl
  | event event =>
      cases event with
      | change place made => rfl
      | ask place query =>
          exact (VisibilityMemo.check_asks service.memo (service.repo place) query).policy

theorem scope_suffer : ((service.suffer incident).repo place).scope = (service.repo place).scope := by
  cases incident with
  | event event => exact scope_after
  | damage other left =>
      unfold suffer
      dsimp only
      by_cases hplace : place = other
      · subst hplace
        rw [Function.update_self]
      · rw [Function.update_of_ne hplace]

theorem visible_suffer (hmem : pair ∈ service.memo.visible) :
    pair ∈ (service.suffer incident).memo.visible := by
  cases incident with
  | damage place left => exact hmem
  | event event =>
      cases event with
      | change place made => exact hmem
      | ask place query =>
          have hasks := VisibilityMemo.check_asks service.memo (service.repo place) query
          exact (hasks.visible pair).mpr (.inl hmem)

theorem records_of_new (hpolicy : service.memo.policy = policy) (hnew : pair ∉ service.memo.visible)
    (hmem : pair ∈ (service.suffer incident).memo.visible) :
    ∃ place query, incident = .event (.ask place query) ∧ service.Records policy place query pair := by
  cases incident with
  | damage place left => exact absurd hmem hnew
  | event event =>
      cases event with
      | change place made => exact absurd hmem hnew
      | ask place query =>
          have hasks := VisibilityMemo.check_asks service.memo (service.repo place) query
          have hsplit := (hasks.visible pair).mp hmem
          obtain ⟨hresult, rfl⟩ := hsplit.resolve_left hnew
          rw [hresult] at hasks
          have hanswer := hasks.answer_of_new hnew
          rw [hpolicy] at hanswer
          exact ⟨place, query, rfl, rfl, hnew, hmem, BrowsePolicy.exposes_of_answer hanswer⟩

theorem recorded_of_shown
    (hshown : (service.memo.check (service.repo place) query).1 = .ok true) :
    ((service.repo place).scope, query.target) ∈
      (service.suffer (.event (.ask place query))).memo.visible := by
  have hasks := VisibilityMemo.check_asks service.memo (service.repo place) query
  exact (hasks.visible _).mpr (.inr ⟨hshown, rfl⟩)

/-! ### A run -/

theorem scope_sufferAll :
    ((service.sufferAll incidents).repo place).scope = (service.repo place).scope := by
  induction incidents generalizing service with
  | nil => rfl
  | cons incident later ih =>
      calc (((service.suffer incident).sufferAll later).repo place).scope
          = ((service.suffer incident).repo place).scope := ih
        _ = (service.repo place).scope := scope_suffer

theorem visible_sufferAll (hmem : pair ∈ service.memo.visible) :
    pair ∈ (service.sufferAll incidents).memo.visible := by
  induction incidents generalizing service with
  | nil => exact hmem
  | cons incident later ih =>
      apply ih
      exact visible_suffer hmem

theorem exists_records (hpolicy : service.memo.policy = policy) (hnew : pair ∉ service.memo.visible)
    (hmem : pair ∈ (service.sufferAll incidents).memo.visible) :
    ∃ before place query later, incidents = before ++ .event (.ask place query) :: later ∧
      (service.sufferAll before).Records policy place query pair := by
  induction incidents generalizing service with
  | nil => exact absurd hmem hnew
  | cons incident rest ih =>
      by_cases hnow : pair ∈ (service.suffer incident).memo.visible
      · obtain ⟨place, query, rfl, records⟩ := records_of_new hpolicy hnew hnow
        exact ⟨[], place, query, rest, rfl, records⟩
      · obtain ⟨before, place, query, later, rfl, records⟩ := ih (policy_suffer.trans hpolicy) hnow hmem
        exact ⟨incident :: before, place, query, later, rfl, records⟩

/-- What is remembered as visible is justified, and it is permanent. Every pair was recorded by some
call of the run at which it was exposed, and once a call has been answered with yes, so is every later
one about the same target of the same repository. -/
theorem visible_justified_permanent (policy : BrowsePolicy) (capacity : Nat) (repos : ι → Repository)
    (incidents : List (Incident ι)) :
    (∀ pair ∈ ((opened policy capacity repos).sufferAll incidents).memo.visible,
      ∃ before place query later, incidents = before ++ .event (.ask place query) :: later ∧
        ((opened policy capacity repos).sufferAll before).Records policy place query pair) ∧
    ∀ before place query later, incidents = before ++ .event (.ask place query) :: later →
      ∀ earlier, (opened policy capacity repos).sufferAll before = earlier →
        (earlier.memo.check (earlier.repo place) query).1 = .ok true →
          ∀ now, (opened policy capacity repos).sufferAll incidents = now →
            ∀ roots, (now.memo.check (now.repo place) ⟨query.target, roots⟩).1 = .ok true := by
  constructor
  · intro pair hmem
    exact exists_records rfl List.not_mem_nil hmem
  · rintro before place query later rfl earlier hearlier hshown now hnow roots
    rw [sufferAll_append, hearlier] at hnow
    change (earlier.suffer (.event (.ask place query))).sufferAll later = now at hnow
    have hscope : (now.repo place).scope = (earlier.repo place).scope := by
      rw [← hnow, scope_sufferAll, scope_suffer]
    have hmem : ((now.repo place).scope, query.target) ∈ now.memo.visible := by
      rw [hscope, ← hnow]
      exact visible_sufferAll (recorded_of_shown hshown)
    exact (VisibilityMemo.check_asks now.memo (now.repo place) ⟨query.target, roots⟩).shown hmem

open Repository (underReview firstChange secondChange)

def lossOfReview : List (Incident Unit) :=
  [.event (.ask () ⟨secondChange, []⟩), .event (.change () (.deleteRef "refs/changes/1")),
    .damage () ⟨"", [], [], []⟩]

theorem visible_justified_permanent_lossOfReview :
    ∃ earlier now : Service Unit,
      (opened ⟨["refs/changes/"]⟩ 1 fun _ => underReview).sufferAll [] = earlier ∧
      (earlier.memo.check (earlier.repo ()) ⟨secondChange, []⟩).1 = .ok true ∧
      (opened ⟨["refs/changes/"]⟩ 1 fun _ => underReview).sufferAll lossOfReview = now ∧
      (now.repo ()).object secondChange = .error (.missingObject secondChange) ∧
      (now.memo.check (now.repo ()) ⟨secondChange, [firstChange]⟩).1 = .ok true := by
  have hshown : ((opened ⟨["refs/changes/"]⟩ 1 fun _ : Unit => underReview).memo.check underReview
      ⟨secondChange, []⟩).1 = .ok true := by decide +kernel
  have hpermanent := (visible_justified_permanent ⟨["refs/changes/"]⟩ 1 (fun _ => underReview)
    lossOfReview).2 [] () ⟨secondChange, []⟩ _ rfl _ rfl hshown _ rfl
  exact ⟨_, _, rfl, hshown, rfl, by decide +kernel, hpermanent [firstChange]⟩

end Service

end GuardedRevision
