import GuardedRevision.Proofs.Growth
import GuardedRevision.Proofs.Service
import GuardedRevision.Proofs.Visibility

/-!
# Freshness

That an object is hidden is remembered together with the generation of the browsable refs. Behind each
such key stands a search of an earlier state of the repository. Where the generation is still the same,
so are the tips, and the search comes to the same end in everything that was added since.
-/

namespace GuardedRevision

/-- The search of an earlier state of a repository that a remembered key goes back to. -/
structure HiddenKey.Evidence (policy : BrowsePolicy) (texts : List String)
    (repo earlier : Repository) (refs : List RefEntry) (key : HiddenKey) : Prop where
  grows : earlier.Grows repo
  listed : earlier.listRefs = .ok refs
  commit : earlier.isCommit key.target = true
  hashed : policy.generationText refs ∈ texts
  generation : key.generation.digest = Sha256.hexDigest (policy.generationText refs)
  unreached : earlier.isReachableInStages key.target (policy.stages refs []) [] = .ok false

/-- Every key that is remembered for one of the repositories has such a search behind it. -/
structure Service.Backed {ι : Type} (policy : BrowsePolicy) (texts : List String)
    (service : Service ι) : Prop where
  samePolicy : service.memo.policy = policy
  hidden : ∀ key ∈ service.memo.hidden, ∀ place, key.scope = (service.repo place).scope →
    ∃ earlier refs, key.Evidence policy texts (service.repo place) earlier refs

variable {policy : BrowsePolicy} {texts : List String} {repo earlier larger : Repository}
  {refs later : List RefEntry} {roots : List ObjectId} {key : HiddenKey} {query : VisibilityQuery}

theorem BrowsePolicy.stages_congr (heq : policy.browsable refs = policy.browsable later) :
    policy.stages refs roots = policy.stages later roots := by
  unfold stages tips
  rw [heq]

namespace HiddenKey.Evidence

theorem grow (evidence : key.Evidence policy texts repo earlier refs) (grows : repo.Grows larger) :
    key.Evidence policy texts larger earlier refs :=
  { evidence with grows := Repository.Grows.trans evidence.grows grows }

/-- Under the same generation a search would find the same. -/
theorem still_unreached (evidence : key.Evidence policy texts repo earlier refs)
    (apart : Sha256.TellsApart texts) (hlisted : repo.listRefs = .ok later)
    (hhashed : policy.generationText later ∈ texts)
    (hgeneration : key.generation.digest = Sha256.hexDigest (policy.generationText later)) :
    repo.isReachableInStages key.target (policy.stages later []) [] = .ok false := by
  have hgrows : earlier.Grows repo := evidence.grows
  have htext : policy.generationText refs = policy.generationText later := by
    apply apart _ evidence.hashed _ hhashed
    rw [← evidence.generation, hgeneration]
  have hbrowsable : policy.browsable refs = policy.browsable later :=
    BrowsePolicy.browsable_eq_of_generationText hgrows evidence.listed hlisted htext
  rw [← BrowsePolicy.stages_congr hbrowsable]
  exact hgrows.isReachableInStages evidence.commit evidence.unreached

end HiddenKey.Evidence

namespace Service

variable {ι : Type} [DecidableEq ι] {service : Service ι} {event : Event ι} {events : List (Event ι)}
  {place : ι}

omit [DecidableEq ι] in
theorem backed_opened (capacity : Nat) (repos : ι → Repository) :
    (opened policy capacity repos).Backed policy texts :=
  ⟨rfl, fun _ hmem => absurd hmem List.not_mem_nil⟩

theorem Backed.ask (backed : service.Backed policy texts) (hscopes : service.IsScoped)
    (hhashed : ∀ text ∈ service.memo.hashedText? (service.repo place) query, text ∈ texts) :
    (service.after (.ask place query)).Backed policy texts := by
  have hasks := VisibilityMemo.check_asks service.memo (service.repo place) query
  refine ⟨hasks.policy.trans backed.samePolicy, fun key hkey other hscope => ?_⟩
  rcases hasks.hidden key hkey with hold | ⟨hnew, hrootless, hanswer, refs, searches, rfl⟩
  · exact backed.hidden key hold other hscope
  · have hsame : place = other := hscopes hscope
    subst hsame
    rw [backed.samePolicy] at hanswer
    have htext := VisibilityMemo.hashedText?_of_searches searches hnew
    rw [backed.samePolicy] at htext
    rw [searches.answer, hrootless] at hanswer
    refine ⟨service.repo place, refs, Repository.Grows.refl _, searches.listed, searches.commit,
      hhashed _ htext, ?_, hanswer⟩
    rw [backed.samePolicy]
    rfl

theorem Backed.change {made : Change} (backed : service.Backed policy texts)
    (faithful : made.IsFaithful) : (service.after (.change place made)).Backed policy texts := by
  refine ⟨backed.samePolicy, fun key hkey other hscope => ?_⟩
  have hfaithful : (Event.change place made).IsFaithful := faithful
  have hgrows : (service.repo other).Grows ((service.after (.change place made)).repo other) :=
    grows_after hfaithful
  rw [scope_after] at hscope
  obtain ⟨earlier, refs, evidence⟩ := backed.hidden key hkey other hscope
  exact ⟨earlier, refs, evidence.grow hgrows⟩

theorem Backed.run (backed : service.Backed policy texts) (hscopes : service.IsScoped)
    (faithful : ∀ event ∈ events, event.IsFaithful) (hhashed : service.hashedTexts events ⊆ texts) :
    (service.run events).Backed policy texts := by
  induction events generalizing service with
  | nil => exact backed
  | cons event later ih =>
      obtain ⟨hevent, hlater⟩ := List.forall_mem_cons.mp faithful
      cases event with
      | ask place query =>
          obtain ⟨hasked, hrest⟩ := List.append_subset.mp hhashed
          refine ih (backed.ask hscopes fun text htext => hasked ?_) hscopes.after hlater hrest
          exact Option.mem_toList.mpr htext
      | change place made => exact ih (backed.change hevent) hscopes.after hlater hhashed

omit [DecidableEq ι] in
/-- A question asked of a backed memo gets the answer of a search, or is known to be visible. -/
theorem Backed.check (backed : service.Backed policy texts) (apart : Sha256.TellsApart texts)
    (hhashed : ∀ text ∈ service.memo.hashedText? (service.repo place) query, text ∈ texts)
    (hnew : ((service.repo place).scope, query.target) ∉ service.memo.visible) :
    (service.memo.check (service.repo place) query).1 = policy.answer (service.repo place) query := by
  have hasks := VisibilityMemo.check_asks service.memo (service.repo place) query
  by_cases hdenies : service.memo.Denies (service.repo place) query
  · rw [hasks.denied hnew hdenies]
    obtain ⟨hrootless, refs, searches, hkey⟩ := hdenies
    have htext := VisibilityMemo.hashedText?_of_searches searches hnew
    rw [backed.samePolicy] at hkey htext
    obtain ⟨earlier, before, evidence⟩ := backed.hidden _ hkey place rfl
    have hunreached := evidence.still_unreached apart searches.listed (hhashed _ htext) rfl
    rw [searches.answer, hrootless]
    exact hunreached.symm
  · rw [hasks.answered hnew hdenies, backed.samePolicy]

/-- Freshness. Whatever has been asked, moved, deleted and added at any of the repositories, the next
question gets the answer that a memo would give that remembers nothing, unless its target is remembered
as visible. -/
theorem check_eq_fresh {capacity : Nat} {repos : ι → Repository}
    (hscopes : (opened policy capacity repos).IsScoped)
    (faithful : ∀ event ∈ events, event.IsFaithful)
    (apart : Sha256.TellsApart
      ((opened policy capacity repos).hashedTexts (events ++ [.ask place query])))
    (hrun : (opened policy capacity repos).run events = service) :
    (service.memo.check (service.repo place) query).1 =
      if ((service.repo place).scope, query.target) ∈ service.memo.visible then .ok true
      else ((VisibilityMemo.empty policy capacity).check (service.repo place) query).1 := by
  rw [hashedTexts_append, hrun] at apart
  by_cases hold : ((service.repo place).scope, query.target) ∈ service.memo.visible
  · rw [if_pos hold]
    exact (VisibilityMemo.check_asks service.memo (service.repo place) query).shown hold
  · rw [if_neg hold, VisibilityMemo.check_empty]
    have backed := (backed_opened capacity repos).run hscopes faithful
      (List.subset_append_left _ (service.hashedTexts [.ask place query]))
    rw [hrun] at backed
    refine backed.check apart (fun text htext => ?_) hold
    apply List.mem_append_right
    exact List.mem_append_left _ (Option.mem_toList.mpr htext)

open Repository (underReview firstChange secondChange)

def reviews : Bool → Repository
  | false => { underReview with scope := "first" }
  | true => { underReview with scope := "second" }

/-- The first change is asked about, then the second becomes a branch, and objects are added elsewhere. -/
def reviewEvents : List (Event Bool) :=
  [.ask false ⟨firstChange, []⟩, .change false (.setRef "refs/heads/main" (.id secondChange)),
    .ask true ⟨firstChange, []⟩, .change true (.addObjects [(.zero, .readable .blob)])]

theorem check_eq_fresh_reviews :
    (opened ⟨["refs/changes/"]⟩ 1 reviews).IsScoped ∧ (∀ event ∈ reviewEvents, event.IsFaithful) ∧
    Sha256.TellsApart ((opened ⟨["refs/changes/"]⟩ 1 reviews).hashedTexts
      (reviewEvents ++ [.ask false ⟨firstChange, []⟩])) ∧
    ∃ service, (opened ⟨["refs/changes/"]⟩ 1 reviews).run reviewEvents = service ∧
      (service.memo.check (service.repo false) ⟨firstChange, []⟩).1 =
        if ((service.repo false).scope, firstChange) ∈ service.memo.visible then .ok true
        else ((VisibilityMemo.empty ⟨["refs/changes/"]⟩ 1).check (service.repo false)
          ⟨firstChange, []⟩).1 := by
  have hscopes : (opened ⟨["refs/changes/"]⟩ 1 reviews).IsScoped := by
    intro left right
    revert left right
    decide +kernel
  have hnew : ObjectId.emptyTree ≠ ObjectId.zero := by decide
  have faithful : ∀ event ∈ reviewEvents, event.IsFaithful := by
    simp [reviewEvents, Event.IsFaithful, Change.IsFaithful, hnew]
  have apart : Sha256.TellsApart ((opened ⟨["refs/changes/"]⟩ 1 reviews).hashedTexts
      (reviewEvents ++ [.ask false ⟨firstChange, []⟩])) := by decide +kernel
  exact ⟨hscopes, faithful, apart, _, rfl, check_eq_fresh hscopes faithful apart rfl⟩

end Service

end GuardedRevision
