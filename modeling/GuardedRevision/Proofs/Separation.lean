import GuardedRevision.Proofs.Freshness

/-!
# Separation

Repositories that share a memo do not influence each other's answers. What happens at the others can
make a service forget that an object is hidden, but then the search is made again, and it comes to the
same end.
-/

namespace GuardedRevision

variable {ι : Type} [DecidableEq ι]

def Event.place : Event ι → ι
  | .ask place _ => place
  | .change place _ => place

namespace Service

def answerAt? (service : Service ι) (place : ι) : Event ι → Option (Except Fault Bool)
  | .ask other query =>
      if other = place then some (service.memo.check (service.repo other) query).1 else none
  | .change _ _ => none

/-- The answers that one of the repositories is given, in their order. -/
def answersAt (service : Service ι) (place : ι) : List (Event ι) → List (Except Fault Bool)
  | [] => []
  | event :: later => (service.answerAt? place event).toList ++ (service.after event).answersAt place later

/-- Two services with the same state of one repository, and the same objects of it known to be
visible. What else they remember may differ. -/
structure AgreesAt (place : ι) (left right : Service ι) : Prop where
  repo : left.repo place = right.repo place
  visible : ∀ target, ((left.repo place).scope, target) ∈ left.memo.visible ↔
    ((left.repo place).scope, target) ∈ right.memo.visible

variable {policy : BrowsePolicy} {texts : List String} {service left right : Service ι}
  {event : Event ι} {events : List (Event ι)} {place : ι} {query : VisibilityQuery}

omit [DecidableEq ι] in
theorem AgreesAt.refl : AgreesAt place service service := ⟨rfl, fun _ => Iff.rfl⟩

theorem answerAt?_ask : service.answerAt? place (.ask place query) =
    some (service.memo.check (service.repo place) query).1 :=
  if_pos rfl

theorem answerAt?_of_elsewhere (helse : event.place ≠ place) :
    service.answerAt? place event = none := by
  cases event with
  | ask other query => exact if_neg helse
  | change other made => rfl

theorem repo_after_of_elsewhere (helse : event.place ≠ place) :
    (service.after event).repo place = service.repo place := by
  cases event with
  | ask other query => rfl
  | change other made => exact Function.update_of_ne helse.symm _ _

theorem visible_after_of_elsewhere (hscopes : service.IsScoped) (helse : event.place ≠ place)
    (target : ObjectId) :
    ((service.repo place).scope, target) ∈ (service.after event).memo.visible ↔
      ((service.repo place).scope, target) ∈ service.memo.visible := by
  cases event with
  | change other made => exact Iff.rfl
  | ask other query =>
      have hasks := VisibilityMemo.check_asks service.memo (service.repo other) query
      refine (hasks.visible _).trans (or_iff_left ?_)
      rintro ⟨_, hpair⟩
      apply helse
      apply hscopes
      exact (congrArg Prod.fst hpair).symm

namespace AgreesAt

variable (agrees : AgreesAt place left right)
include agrees

theorem after_elsewhere (hscopes : left.IsScoped) (helse : event.place ≠ place) :
    AgreesAt place (left.after event) right := by
  have hrepo : (left.after event).repo place = left.repo place := repo_after_of_elsewhere helse
  refine ⟨hrepo.trans agrees.repo, fun target => ?_⟩
  rw [hrepo, visible_after_of_elsewhere hscopes helse]
  exact agrees.visible target

theorem change (made : Change) :
    AgreesAt place (left.after (.change place made)) (right.after (.change place made)) := by
  refine ⟨?_, fun target => ?_⟩
  · unfold after
    dsimp only
    rw [Function.update_self, Function.update_self, agrees.repo]
  · rw [scope_after]
    exact agrees.visible target

omit [DecidableEq ι] in
theorem hashedText?_eq (hpolicy : left.memo.policy = right.memo.policy) :
    left.memo.hashedText? (left.repo place) query =
      right.memo.hashedText? (right.repo place) query := by
  have hcontains : left.memo.visible.contains ((left.repo place).scope, query.target) =
      right.memo.visible.contains ((left.repo place).scope, query.target) := by
    rw [Bool.eq_iff_iff, List.contains_iff_mem, List.contains_iff_mem]
    exact agrees.visible query.target
  unfold VisibilityMemo.hashedText?
  rw [hcontains, hpolicy, agrees.repo]

omit [DecidableEq ι] in
/-- Services that agree, and remember nothing hidden without a search behind it, give one answer. -/
theorem check_eq (apart : Sha256.TellsApart texts) (hleft : left.Backed policy texts)
    (hright : right.Backed policy texts)
    (hhashed : ∀ text ∈ left.memo.hashedText? (left.repo place) query, text ∈ texts) :
    (left.memo.check (left.repo place) query).1 = (right.memo.check (right.repo place) query).1 := by
  by_cases hold : ((left.repo place).scope, query.target) ∈ left.memo.visible
  · have hother : ((right.repo place).scope, query.target) ∈ right.memo.visible := by
      rw [← agrees.repo]
      exact (agrees.visible _).mp hold
    have hasks := VisibilityMemo.check_asks left.memo (left.repo place) query
    have hasksOther := VisibilityMemo.check_asks right.memo (right.repo place) query
    rw [hasks.shown hold, hasksOther.shown hother]
  · have hnew : ((right.repo place).scope, query.target) ∉ right.memo.visible := by
      rw [← agrees.repo]
      exact fun h => hold ((agrees.visible _).mpr h)
    have hpolicy : left.memo.policy = right.memo.policy :=
      hleft.samePolicy.trans hright.samePolicy.symm
    have hhashedOther : ∀ text ∈ right.memo.hashedText? (right.repo place) query, text ∈ texts := by
      rw [← agrees.hashedText?_eq hpolicy]
      exact hhashed
    calc (left.memo.check (left.repo place) query).1
        = policy.answer (left.repo place) query := hleft.check apart hhashed hold
      _ = policy.answer (right.repo place) query := by rw [agrees.repo]
      _ = (right.memo.check (right.repo place) query).1 :=
          (hright.check apart hhashedOther hnew).symm

theorem ask (hanswer : (left.memo.check (left.repo place) query).1 =
      (right.memo.check (right.repo place) query).1) :
    AgreesAt place (left.after (.ask place query)) (right.after (.ask place query)) := by
  have hasks := VisibilityMemo.check_asks left.memo (left.repo place) query
  have hasksOther := VisibilityMemo.check_asks right.memo (right.repo place) query
  refine ⟨agrees.repo, fun target => ?_⟩
  refine (hasks.visible _).trans (Iff.trans ?_ (hasksOther.visible _).symm)
  rw [hanswer, ← agrees.repo]
  exact or_congr (agrees.visible target) Iff.rfl

theorem after_here (apart : Sha256.TellsApart texts) (hleft : left.Backed policy texts)
    (hright : right.Backed policy texts) (hscopes : right.IsScoped) (faithful : event.IsFaithful)
    (hhashed : left.hashedTexts [event] ⊆ texts) (hplace : event.place = place) :
    left.answerAt? place event = right.answerAt? place event ∧
      AgreesAt place (left.after event) (right.after event) ∧
      (right.after event).Backed policy texts := by
  cases event with
  | change other made =>
      cases hplace
      exact ⟨rfl, agrees.change made, hright.change faithful⟩
  | ask other query =>
      cases hplace
      have hpolicy : left.memo.policy = right.memo.policy :=
        hleft.samePolicy.trans hright.samePolicy.symm
      have htexts : ∀ text ∈ left.memo.hashedText? (left.repo other) query, text ∈ texts := by
        intro text htext
        apply hhashed
        exact List.mem_append_left _ (Option.mem_toList.mpr htext)
      have hanswer : (left.memo.check (left.repo other) query).1 =
          (right.memo.check (right.repo other) query).1 := agrees.check_eq apart hleft hright htexts
      refine ⟨?_, agrees.ask hanswer, hright.ask hscopes ?_⟩
      · exact answerAt?_ask.trans ((congrArg some hanswer).trans answerAt?_ask.symm)
      · intro text htext
        apply htexts
        exact (agrees.hashedText?_eq hpolicy).symm ▸ htext

/-- The simulation. The right service leaves out what happens elsewhere; both remember as hidden only
what some search has found so. -/
theorem answersAt_eq (apart : Sha256.TellsApart texts) (hleft : left.Backed policy texts)
    (hright : right.Backed policy texts) (hscopes : left.IsScoped) (hscopesOther : right.IsScoped)
    (faithful : ∀ event ∈ events, event.IsFaithful) (hhashed : left.hashedTexts events ⊆ texts) :
    left.answersAt place events =
      right.answersAt place (events.filter fun event => event.place = place) := by
  induction events generalizing left right with
  | nil => rfl
  | cons event later ih =>
      obtain ⟨hevent, hlater⟩ := List.forall_mem_cons.mp faithful
      rw [← List.singleton_append, hashedTexts_append] at hhashed
      obtain ⟨hnow, hrest⟩ := List.append_subset.mp hhashed
      have hbacked : (left.after event).Backed policy texts :=
        hleft.run hscopes (List.forall_mem_singleton.mpr hevent) hnow
      by_cases hplace : event.place = place
      · obtain ⟨hanswer, hafter, hbackedOther⟩ :=
          agrees.after_here apart hleft hright hscopesOther hevent hnow hplace
        rw [List.filter_cons_of_pos (by simpa using hplace), answersAt, answersAt, hanswer]
        congr 1
        exact ih hafter hbacked hbackedOther hscopes.after hscopesOther.after hlater hrest
      · rw [List.filter_cons_of_neg (by simpa using hplace)]
        calc left.answersAt place (event :: later)
            = (left.after event).answersAt place later := by
              rw [answersAt, answerAt?_of_elsewhere hplace]
              rfl
          _ = right.answersAt place (later.filter fun event => event.place = place) :=
              ih (agrees.after_elsewhere hscopes hplace) hbacked hright hscopes.after hscopesOther
                hlater hrest

end AgreesAt

/-- Separation. However questions, changes of refs and additions of objects at several repositories
follow each other, each repository is given the answers that it would be given alone. Whatever the
capacity, the search for a hidden object that the others made the memo forget comes out as before. -/
theorem answersAt_eq_alone {capacity : Nat} {repos : ι → Repository}
    (hscopes : (opened policy capacity repos).IsScoped)
    (faithful : ∀ event ∈ events, event.IsFaithful)
    (apart : Sha256.TellsApart ((opened policy capacity repos).hashedTexts events)) (place : ι) :
    (opened policy capacity repos).answersAt place events =
      (opened policy capacity repos).answersAt place
        (events.filter fun event => event.place = place) := by
  have hbacked : (opened policy capacity repos).Backed policy
      ((opened policy capacity repos).hashedTexts events) := backed_opened capacity repos
  exact AgreesAt.refl.answersAt_eq apart hbacked hbacked hscopes hscopes faithful
    (List.Subset.refl _)

/-- Three questions, with room to remember one hidden change: the second makes the memo forget the
first, and the third has to search again. -/
def crowdedEvents : List (Event Bool) :=
  [.ask false ⟨Repository.firstChange, []⟩, .ask true ⟨Repository.firstChange, []⟩,
    .change true (.deleteRef "refs/changes/1"), .ask false ⟨Repository.firstChange, []⟩]

theorem answersAt_eq_alone_crowded :
    (opened ⟨["refs/changes/"]⟩ 1 reviews).IsScoped ∧ (∀ event ∈ crowdedEvents, event.IsFaithful) ∧
    Sha256.TellsApart ((opened ⟨["refs/changes/"]⟩ 1 reviews).hashedTexts crowdedEvents) ∧
    (opened ⟨["refs/changes/"]⟩ 1 reviews).answersAt false crowdedEvents =
      (opened ⟨["refs/changes/"]⟩ 1 reviews).answersAt false
        (crowdedEvents.filter fun event => event.place = false) := by
  have hscopes : (opened ⟨["refs/changes/"]⟩ 1 reviews).IsScoped := by
    intro left right
    revert left right
    decide +kernel
  have faithful : ∀ event ∈ crowdedEvents, event.IsFaithful := by
    simp [crowdedEvents, Event.IsFaithful, Change.IsFaithful]
  have apart : Sha256.TellsApart
      ((opened ⟨["refs/changes/"]⟩ 1 reviews).hashedTexts crowdedEvents) := by decide +kernel
  exact ⟨hscopes, faithful, apart, answersAt_eq_alone hscopes faithful apart false⟩

end Service

end GuardedRevision
