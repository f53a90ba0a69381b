import GuardedRevision.Proofs.Answers
import GuardedRevision.Proofs.Reachability

/-!
# Visibility

What is shown is exposed by the policy, in any repository. In a complete one every question has an
answer, and what is exposed is shown.
-/

namespace GuardedRevision

variable {policy : BrowsePolicy} {repo : Repository} {refs : List RefEntry}
  {roots : List ObjectId} {query : VisibilityQuery} {id target : ObjectId}

theorem VisibilityMemo.mem_sortedRoots : id ∈ VisibilityMemo.sortedRoots roots ↔ id ∈ roots := by
  unfold sortedRoots
  rw [(Sorting.sortBy_perm _ _).mem_iff, List.mem_eraseDups]

theorem VisibilityMemo.check_empty (policy : BrowsePolicy) (capacity : Nat) (repo : Repository)
    (query : VisibilityQuery) :
    ((VisibilityMemo.empty policy capacity).check repo query).1 = policy.answer repo query := by
  have hasks := check_asks (empty policy capacity) repo query
  refine hasks.answered List.not_mem_nil ?_
  rintro ⟨_, _, _, hmem⟩
  exact List.not_mem_nil hmem

namespace BrowsePolicy

theorem mem_browsable {entry : RefEntry} :
    entry ∈ policy.browsable refs ↔ entry ∈ refs ∧ policy.isBrowsable entry.name = true :=
  List.mem_filter

theorem mem_groups {heads tags other : List ObjectId} :
    (id ∈ heads.eraseDups ∨ id ∈ (tags.filter fun id => !heads.contains id).eraseDups ∨
      id ∈ (other.filter fun id => !heads.contains id && !tags.contains id).eraseDups) ↔
      id ∈ heads ∨ id ∈ tags ∨ id ∈ other := by
  by_cases hheads : id ∈ heads
  · simp [hheads]
  · by_cases htags : id ∈ tags
    · simp [hheads, htags]
    · simp [hheads, htags]

theorem exists_mem_tips : (∃ stage ∈ (policy.tips refs).stages, id ∈ stage) ↔
    ∃ entry ∈ refs, policy.isBrowsable entry.name = true ∧ entry.tip = id := by
  have hstages : (∃ stage ∈ (policy.tips refs).stages, id ∈ stage) ↔
      id ∈ (policy.tips refs).heads ∨ id ∈ (policy.tips refs).tags ∨ id ∈ (policy.tips refs).other := by
    simp [Tips.stages]
  rw [hstages]
  unfold tips
  simp only [mem_groups, List.mem_map, List.mem_filter, mem_browsable]
  constructor
  · rintro (⟨entry, ⟨⟨hentry, hbrowse⟩, _⟩, htip⟩ | ⟨entry, ⟨⟨hentry, hbrowse⟩, _⟩, htip⟩ |
      ⟨entry, ⟨⟨hentry, hbrowse⟩, _⟩, htip⟩)
    · exact ⟨entry, hentry, hbrowse, htip⟩
    · exact ⟨entry, hentry, hbrowse, htip⟩
    · exact ⟨entry, hentry, hbrowse, htip⟩
  · rintro ⟨entry, hentry, hbrowse, htip⟩
    by_cases hbranch : entry.name.isBranch = true
    · exact .inl ⟨entry, ⟨⟨hentry, hbrowse⟩, hbranch⟩, htip⟩
    · by_cases htag : entry.name.isTag = true
      · exact .inr (.inl ⟨entry, ⟨⟨hentry, hbrowse⟩, by simp [hbranch, htag]⟩, htip⟩)
      · exact .inr (.inr ⟨entry, ⟨⟨hentry, hbrowse⟩, by simp [hbranch, htag]⟩, htip⟩)

theorem exists_reachedBy_stages : (∃ stage ∈ policy.stages refs roots, repo.ReachedBy stage target) ↔
    repo.ReachedBy roots target ∨
      ∃ entry ∈ refs, policy.isBrowsable entry.name = true ∧ repo.Reaches entry.tip target := by
  unfold stages
  rw [List.exists_mem_cons_iff]
  refine or_congr ?_ ?_
  · simp only [Repository.ReachedBy, VisibilityMemo.mem_sortedRoots]
  · constructor
    · rintro ⟨stage, hstage, tip, htip, hpath⟩
      obtain ⟨entry, hentry, hbrowse, rfl⟩ := exists_mem_tips.mp ⟨stage, hstage, htip⟩
      exact ⟨entry, hentry, hbrowse, hpath⟩
    · rintro ⟨entry, hentry, hbrowse, hpath⟩
      obtain ⟨stage, hstage, htip⟩ := exists_mem_tips.mpr ⟨entry, hentry, hbrowse, rfl⟩
      exact ⟨stage, hstage, entry.tip, htip, hpath⟩

/-- For a commit that is no tip, to be exposed is to be reached by some stage. -/
theorem Searches.exposes_iff (searches : Searches repo refs target) :
    policy.Exposes repo refs roots target ↔
      ∃ stage ∈ policy.stages refs roots, repo.ReachedBy stage target := by
  rw [exists_reachedBy_stages]
  constructor
  · rintro (⟨hlisted, hmarks⟩ | ⟨hheld, hpath⟩ | ⟨hlisted, hbrowse, hpeels, hpath⟩)
    · have htip := (Repository.isTip_iff searches.listed).mpr ⟨_, hlisted, hmarks⟩
      rw [searches.noTip] at htip
      cases htip
    · exact .inl ⟨_, hheld, hpath⟩
    · have htip := (Repository.peelsTo_tip searches.listed hlisted).unique hpeels
      exact .inr ⟨_, hlisted, hbrowse, htip ▸ hpath⟩
  · rintro (⟨root, hroot, hpath⟩ | ⟨entry, hentry, hbrowse, hpath⟩)
    · exact .root hroot hpath
    · exact .ref hentry hbrowse (Repository.peelsTo_tip searches.listed hentry) hpath

theorem exposes_of_answer (hanswer : policy.answer repo query = .ok true) :
    ∃ refs, repo.listRefs = .ok refs ∧ policy.Exposes repo refs query.roots query.target := by
  unfold answer at hanswer
  split at hanswer
  · cases hanswer
  · next refs hlisted =>
      refine ⟨refs, hlisted, ?_⟩
      split at hanswer
      · next htip =>
          obtain ⟨entry, hentry, hmarks⟩ := (Repository.isTip_iff hlisted).mp htip
          exact .tip hentry hmarks
      · next htip =>
          split at hanswer
          · cases hanswer
          · next hkind =>
              have hcommit := Repository.kind_eq_commit_iff.mp hkind
              have searches : Searches repo refs query.target := ⟨hlisted, by simpa using htip, hcommit⟩
              exact searches.exposes_iff.mpr
                (Repository.reachedBy_of_isReachableInStages hcommit hanswer)
          · cases hanswer

theorem exposes_of_listed (hlisted : repo.listRefs = .ok refs)
    (hexposes : ∃ refs, repo.listRefs = .ok refs ∧ policy.Exposes repo refs roots target) :
    policy.Exposes repo refs roots target := by
  obtain ⟨refs', hlisted', exposes⟩ := hexposes
  rw [hlisted] at hlisted'
  cases hlisted'
  exact exposes

theorem not_exposes_of_isCommit (hlisted : repo.listRefs = .ok refs)
    (htip : isTip refs target = false) (hcommit : repo.isCommit target = false) :
    ¬ policy.Exposes repo refs roots target := by
  rintro (⟨hentry, hmarks⟩ | ⟨_, hpath⟩ | ⟨_, _, _, hpath⟩)
  · rw [(Repository.isTip_iff hlisted).mpr ⟨_, hentry, hmarks⟩] at htip
    cases htip
  · rw [hpath.isCommit_right] at hcommit
    cases hcommit
  · rw [hpath.isCommit_right] at hcommit
    cases hcommit

end BrowsePolicy

namespace Repository

theorem holds_of_mem_stages (hlisted : repo.listRefs = .ok refs)
    (hroots : ∀ root ∈ roots, repo.Holds root) :
    ∀ stage ∈ policy.stages refs roots, ∀ id ∈ stage, repo.Holds id := by
  intro stage hstage id hid
  rcases List.mem_cons.mp hstage with rfl | htips
  · exact hroots id (VisibilityMemo.mem_sortedRoots.mp hid)
  · obtain ⟨entry, hentry, _, rfl⟩ := BrowsePolicy.exists_mem_tips.mp ⟨stage, htips, hid⟩
    exact holds_tip hlisted hentry

namespace Complete

variable (complete : repo.Complete)
include complete

/-- Every question about a stored object has an answer, which is whether the object is exposed. -/
theorem answer (hroots : ∀ root ∈ query.roots, repo.Holds root) (htarget : repo.Holds query.target) :
    ∃ refs visible, repo.listRefs = .ok refs ∧ policy.answer repo query = .ok visible ∧
      (visible = true ↔ policy.Exposes repo refs query.roots query.target) := by
  obtain ⟨refs, hlisted⟩ := complete.exists_listRefs
  by_cases htip : BrowsePolicy.isTip refs query.target = true
  · obtain ⟨entry, hentry, hmarks⟩ := (isTip_iff hlisted).mp htip
    refine ⟨refs, true, hlisted, ?_, ⟨fun _ => .tip hentry hmarks, fun _ => rfl⟩⟩
    simp only [BrowsePolicy.answer, hlisted, htip, if_true]
  · have hnoTip : BrowsePolicy.isTip refs query.target = false := by simpa using htip
    by_cases hcommit : repo.isCommit query.target = true
    · have searches : BrowsePolicy.Searches repo refs query.target := ⟨hlisted, hnoTip, hcommit⟩
      obtain ⟨visible, hrun, hvisible⟩ := complete.isReachableInStages hcommit
        (holds_of_mem_stages hlisted hroots) (List.forall_mem_nil _) not_reachedBy_nil
      exact ⟨refs, visible, hlisted, searches.answer.trans hrun,
        hvisible.trans searches.exposes_iff.symm⟩
    · have hplain : repo.isCommit query.target = false := by simpa using hcommit
      obtain ⟨kind, hkind⟩ := htarget.kind
      refine ⟨refs, false, hlisted, ?_, ?_⟩
      · have hne : kind ≠ .commit := by
          rintro rfl
          exact hcommit (kind_eq_commit_iff.mp hkind)
        simp only [BrowsePolicy.answer, hlisted, hnoTip, hkind, Bool.false_eq_true, if_false]
      · simp [BrowsePolicy.not_exposes_of_isCommit hlisted hnoTip hplain]

theorem holds_of_exposes (hlisted : repo.listRefs = .ok refs)
    (exposes : policy.Exposes repo refs roots id) : repo.Holds id := by
  cases exposes with
  | tip listed marks =>
      rcases marks with rfl | peels
      · exact complete.holds_of_points (points_of_mem_listRefs hlisted listed)
      · exact peels.holds_right
  | root held path => exact holds_of_isCommit path.isCommit_right
  | ref listed browsable peels path => exact holds_of_isCommit path.isCommit_right

theorem answer_of_exposes (hroots : ∀ root ∈ query.roots, repo.Holds root)
    (hlisted : repo.listRefs = .ok refs)
    (exposes : policy.Exposes repo refs query.roots query.target) :
    policy.answer repo query = .ok true := by
  obtain ⟨refs', visible, hlisted', hanswer, hvisible⟩ :=
    complete.answer hroots (complete.holds_of_exposes hlisted exposes)
  rw [hlisted] at hlisted'
  cases hlisted'
  rw [hanswer, hvisible.mpr exposes]

/-- Exact visibility. A memo that remembers nothing answers every question about a stored object, and
with the truth; that it searches in stages makes no difference. -/
theorem check_empty_exact (policy : BrowsePolicy) (capacity : Nat)
    (hroots : ∀ root ∈ query.roots, repo.Holds root) (htarget : repo.Holds query.target) :
    ∃ refs visible, repo.listRefs = .ok refs ∧
      ((VisibilityMemo.empty policy capacity).check repo query).1 = .ok visible ∧
      (visible = true ↔ policy.Exposes repo refs query.roots query.target) ∧
      repo.isReachableInStages query.target
          ((VisibilityMemo.empty policy capacity).stages refs query.roots) [] =
        repo.isReachableFrom query.target
          ((VisibilityMemo.empty policy capacity).stages refs query.roots).flatten := by
  obtain ⟨refs, visible, hlisted, hanswer, hvisible⟩ := complete.answer hroots htarget
  refine ⟨refs, visible, hlisted, ?_, hvisible, ?_⟩
  · rw [VisibilityMemo.check_empty]
    exact hanswer
  · exact complete.isReachableInStages_eq_from htarget (holds_of_mem_stages hlisted hroots)

end Complete

/-- The parent of an excluded tip, for a request that holds the tip. -/
theorem check_empty_exact_underReview :
    (∀ root ∈ [secondChange], underReview.Holds root) ∧ underReview.Holds firstChange ∧
    ∃ refs visible, underReview.listRefs = .ok refs ∧
      ((VisibilityMemo.empty ⟨["refs/changes/"]⟩ 4).check underReview
        ⟨firstChange, [secondChange]⟩).1 = .ok visible ∧
      (visible = true ↔
        (⟨["refs/changes/"]⟩ : BrowsePolicy).Exposes underReview refs [secondChange] firstChange) ∧
      underReview.isReachableInStages firstChange
          ((VisibilityMemo.empty ⟨["refs/changes/"]⟩ 4).stages refs [secondChange]) [] =
        underReview.isReachableFrom firstChange
          ((VisibilityMemo.empty ⟨["refs/changes/"]⟩ 4).stages refs [secondChange]).flatten := by
  have hroots : ∀ root ∈ [secondChange], underReview.Holds root := by
    intro root hroot
    rw [List.mem_singleton.mp hroot]
    exact underReview_holds.2
  exact ⟨hroots, underReview_holds.1,
    Complete.check_empty_exact underReview_complete ⟨["refs/changes/"]⟩ 4 hroots
      underReview_holds.1⟩

end Repository

end GuardedRevision
