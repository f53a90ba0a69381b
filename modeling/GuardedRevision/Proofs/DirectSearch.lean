import GuardedRevision.Proofs.AssembledStores
import GuardedRevision.Proofs.Growth

/-!
# Direct search

What a search for a target from given starters answers. Where no part of the history below the starters is
missing it is exact, whatever else the repository lacks: the search goes the same way in a store that holds
that history and nothing more. A starter that is the target ends a search before anything is looked up, and
a target that is no commit ends it before the starters are. `keepsPromise_iff` says where this shows.
-/

namespace GuardedRevision

namespace Repository

/-- No part of the history below some starts is missing, and no commit of it is its own ancestor. -/
structure CompleteBelow (repo : Repository) (starts : List ObjectId) : Prop where
  parents : ∀ id, repo.ReachedBy starts id → ∀ parent ∈ repo.parentsOf id, repo.isCommit parent = true
  acyclic : ∀ id, repo.ReachedBy starts id → ¬ repo.LeadsTo id id

/-- What a search for a target from some starters promises. -/
structure KeepsPromise (repo : Repository) (target : ObjectId) (starters : List ObjectId) : Prop where
  /-- The first of target and starters that cannot be had is reported: as missing, if it is missing. -/
  lost : ∀ before id after fault, target :: starters = before ++ id :: after →
    (∀ other ∈ before, repo.Holds other) → repo.object id = .error fault →
    repo.isReachableFrom target starters = .error fault
  /-- What is no commit is never reached. -/
  plain : (∀ id ∈ target :: starters, repo.Holds id) → repo.isCommit target = false →
    repo.isReachableFrom target starters = .ok false
  /-- A commit is reached when it is one of the starters that are commits, or an ancestor of one. -/
  exact : (∀ id ∈ target :: starters, repo.Holds id) → repo.isCommit target = true →
    repo.CompleteBelow starters → ∃ found, repo.isReachableFrom target starters = .ok found ∧
      (found = true ↔ repo.ReachedBy starters target)

variable {repo larger : Repository} {keeps : ObjectId → Bool} {id other target : ObjectId}
  {starts starters searched ids before after commits : List ObjectId} {object : StoredObject} {fault : Fault}

theorem LeadsTo.grow (grows : repo.Grows larger) (leads : repo.LeadsTo id other) :
    larger.LeadsTo id other := by
  induction leads with
  | link stored linked => exact .link (grows stored) linked
  | trans _ _ ihfirst ihrest => exact .trans ihfirst ihrest

theorem LeadsTo.holds (leads : repo.LeadsTo id other) : repo.Holds id := by
  induction leads with
  | link stored _ => exact ⟨_, stored⟩
  | trans _ _ ihfirst _ => exact ihfirst

theorem ReachedBy.parent (reached : repo.ReachedBy starts id) (link : other ∈ repo.parentsOf id)
    (hcommit : repo.isCommit other = true) : repo.ReachedBy starts other :=
  reached.trans (.parent link (.refl hcommit))

namespace CompleteBelow

variable (complete : repo.CompleteBelow starts)
include complete

theorem filter_isCommit : repo.CompleteBelow (starts.filter repo.isCommit) :=
  ⟨fun id reached => complete.parents id (reachedBy_filter_isCommit.mp reached),
    fun id reached => complete.acyclic id (reachedBy_filter_isCommit.mp reached)⟩

/-- The history lies within the commits that are reached. -/
theorem reaches_restrict (hkeeps : ∀ id, keeps id = true ↔ repo.ReachedBy starts id)
    (reached : repo.ReachedBy starts id) (path : repo.Reaches id other) :
    (repo.restrict keeps).Reaches id other := by
  have hcommit : ∀ {id}, repo.ReachedBy starts id → (repo.restrict keeps).isCommit id = true :=
    fun hreached => isCommit_restrict.mpr ⟨(hkeeps _).mpr hreached, hreached.isCommit⟩
  induction path with
  | refl _ => exact .refl (hcommit reached)
  | @parent id parent other link _ ih =>
      have hparents : repo.parentsOf id = (repo.restrict keeps).parentsOf id :=
        grows_of_restrict.parentsOf (hcommit reached)
      exact .parent (hparents ▸ link) (ih (reached.parent link (complete.parents id reached parent link)))

theorem toList_walkBeyond (hne : starts ≠ []) (hstarts : ∀ id ∈ starts, repo.isCommit id = true) :
    ∃ commits, (repo.walkBeyond starts []).toList = .ok commits ∧
      ∀ id, id ∈ commits ↔ repo.ReachedBy starts id := by
  classical
  obtain ⟨keeps, hkeeps⟩ : ∃ keeps : ObjectId → Bool, ∀ id, keeps id = true ↔ repo.ReachedBy starts id :=
    ⟨fun id => decide (repo.ReachedBy starts id), fun id => decide_eq_true_iff⟩
  let small := repo.restrict keeps
  have hgrows : small.Grows repo := grows_of_restrict
  have hcommit : ∀ {id}, small.isCommit id = true ↔ repo.ReachedBy starts id := by
    intro id
    rw [isCommit_restrict, hkeeps, and_iff_left_iff_imp]
    exact ReachedBy.isCommit
  have hroots : ∀ id ∈ starts, small.isCommit id = true := fun id hid =>
    hcommit.mpr (reachedBy_of_mem hid (hstarts id hid))
  have hparents : ∀ id, ∀ parent ∈ small.parentsOf id, small.isCommit parent = true := by
    intro id parent link
    have hsmall : small.isCommit id = true := isCommit_of_mem_parentsOf link
    rw [← hgrows.parentsOf hsmall] at link
    have hreached := hcommit.mp hsmall
    exact hcommit.mpr (hreached.parent link (complete.parents id hreached parent link))
  have hacyclic : ∀ id, ¬ small.LeadsTo id id := by
    intro id leads
    obtain ⟨object, hobject⟩ := leads.holds
    exact complete.acyclic id ((hkeeps id).mp (object_restrict_eq_ok_iff.mp hobject).1) (leads.grow hgrows)
  obtain ⟨fixed, hfixed⟩ := walkBeyond_ready.exists_started hparents hroots (List.forall_mem_nil _)
  obtain ⟨hlist, history⟩ := walkBeyond_lists hne (List.forall_mem_nil _) hfixed
  have hlarge : (repo.walkBeyond starts []).toList = .ok fixed.upcoming :=
    hgrows.toList_walkBeyond hne (List.forall_mem_nil _) hlist
  refine ⟨fixed.upcoming, hlarge, fun id => ⟨fun hid => ?_, fun reached => ?_⟩⟩
  · have hhistory := Repository.toList_walkBeyond hne (List.forall_mem_nil _) hlarge
    exact followedBy_false_iff.mp (hhistory.followed id hid)
  · obtain ⟨start, hstart, path⟩ := reached
    apply history.covers hacyclic id _ not_reachedBy_nil
    rw [followedBy_false_iff]
    exact ⟨start, hstart, complete.reaches_restrict hkeeps (reachedBy_of_mem hstart (hstarts start hstart)) path⟩

/-- Where nothing of the history below the starters is missing, a search for a commit is exact. -/
theorem isReachableFrom (hcommit : repo.isCommit target = true) (hstarts : ∀ id ∈ starts, repo.Holds id) :
    ∃ found, repo.isReachableFrom target starts = .ok found ∧
      (found = true ↔ repo.ReachedBy starts target) := by
  by_cases hmem : target ∈ starts
  · exact ⟨true, isReachableBeyond_of_mem hmem, fun _ => reachedBy_of_mem hmem hcommit, fun _ => rfl⟩
  · by_cases hne : starts = []
    · subst hne
      exact ⟨false, isReachableBeyond_nil, nofun, fun reached => absurd reached not_reachedBy_nil⟩
    · by_cases hpushed : starts.filter repo.isCommit = []
      · refine ⟨false, (isReachableBeyond_eq_ok_iff hne hmem hcommit).mpr ⟨hstarts, ?_⟩, nofun, ?_⟩
        · rw [if_pos hpushed]
        · rw [← reachedBy_filter_isCommit, hpushed]
          exact fun reached => absurd reached not_reachedBy_nil
      · obtain ⟨commits, hlist, hcommits⟩ :=
          complete.filter_isCommit.toList_walkBeyond hpushed fun _ => isCommit_of_mem_filter
        refine ⟨commits.contains target, (isReachableBeyond_eq_ok_iff hne hmem hcommit).mpr ⟨hstarts, ?_⟩, ?_⟩
        · rw [if_neg hpushed]
          exact ⟨List.forall_mem_nil _, commits, hlist, rfl⟩
        · rw [List.contains_iff_mem, hcommits, reachedBy_filter_isCommit]

end CompleteBelow

/-! ### Faults -/

theorem commitsOf_of_fault (hbefore : ∀ other ∈ before, repo.Holds other)
    (hobject : repo.object id = .error fault) : repo.commitsOf (before ++ id :: after) = .error fault := by
  induction before with
  | nil =>
      have hkind : repo.kind id = .error fault := by rw [Repository.kind, hobject]; rfl
      rw [List.nil_append, commitsOf, hkind]
      rfl
  | cons first rest ih =>
      obtain ⟨hfirst, hrest⟩ := List.forall_mem_cons.mp hbefore
      obtain ⟨kind, hkind⟩ := hfirst.kind
      rw [List.cons_append, commitsOf, hkind, ih hrest]
      rfl

theorem isReachableFrom_of_target_fault (hne : starters ≠ []) (hmem : target ∉ starters)
    (hobject : repo.object target = .error fault) : repo.isReachableFrom target starters = .error fault := by
  have hkind : repo.kind target = .error fault := by rw [Repository.kind, hobject]; rfl
  simp [Repository.isReachableFrom, isReachableBeyond, hne, hmem, hkind, bind, Except.bind]

theorem isReachableFrom_of_starter_fault (hmem : target ∉ before ++ id :: after)
    (hcommit : repo.isCommit target = true) (hbefore : ∀ other ∈ before, repo.Holds other)
    (hobject : repo.object id = .error fault) :
    repo.isReachableFrom target (before ++ id :: after) = .error fault := by
  have hkind : repo.kind target = .ok .commit := kind_eq_commit_iff.mpr hcommit
  have hne : (before ++ id :: after).isEmpty = false := by simp
  simp only [Repository.isReachableFrom, isReachableBeyond, hne, Bool.false_eq_true, if_false,
    List.contains_eq_mem, hmem, decide_false, hkind, commitsOf_of_fault hbefore hobject, bind, Except.bind,
    ne_eq, not_true_eq_false]

theorem isReachableFrom_of_plain (hmem : target ∉ starters) (holds : repo.Holds target)
    (hplain : repo.isCommit target = false) : repo.isReachableFrom target starters = .ok false := by
  obtain ⟨kind, hkind⟩ := holds.kind
  have hne : kind ≠ .commit := by
    rintro rfl
    rw [kind_eq_commit_iff.mp hkind] at hplain
    cases hplain
  rw [Repository.isReachableFrom, isReachableBeyond_of_plain hkind hne, decide_eq_false hmem]

theorem exists_first_fault (hlost : ∃ id ∈ ids, ¬ repo.Holds id) :
    ∃ before id after fault, ids = before ++ id :: after ∧ (∀ other ∈ before, repo.Holds other) ∧
      repo.object id = .error fault := by
  induction ids with
  | nil =>
      obtain ⟨id, hid, _⟩ := hlost
      cases hid
  | cons first rest ih =>
      cases hobject : repo.object first with
      | error fault => exact ⟨[], first, rest, fault, rfl, List.forall_mem_nil _, hobject⟩
      | ok object =>
          have hlater : ∃ id ∈ rest, ¬ repo.Holds id := by
            obtain ⟨id, hid, hnot⟩ := hlost
            rcases List.mem_cons.mp hid with rfl | hrest
            · exact absurd ⟨object, hobject⟩ hnot
            · exact ⟨id, hrest, hnot⟩
          obtain ⟨before, id, after, fault, rfl, hbefore, hid⟩ := ih hlater
          exact ⟨first :: before, id, after, fault, rfl, List.forall_mem_cons.mpr ⟨⟨object, hobject⟩, hbefore⟩, hid⟩

/-! ### The promise -/

/-- The promise is kept, but for two cases: a target among the starters is said to be reached, though it is
no commit or something is missing; and one that is no commit is said not to be, though a starter is
missing. -/
theorem keepsPromise_iff (hne : starters ≠ []) : repo.KeepsPromise target starters ↔
    (target ∈ starters → repo.isCommit target = true ∧ ∀ id ∈ starters, repo.Holds id) ∧
      (target ∉ starters → repo.Holds target → repo.isCommit target = false →
        ∀ id ∈ starters, repo.Holds id) := by
  constructor
  · intro promise
    have holds : ∀ found, repo.isReachableFrom target starters = .ok found →
        ∀ id ∈ target :: starters, repo.Holds id := by
      intro found hfound
      by_contra hlost
      simp only [not_forall, exists_prop] at hlost
      obtain ⟨before, id, after, fault, hsplit, hbefore, hobject⟩ := exists_first_fault hlost
      cases hfound.symm.trans (promise.lost before id after fault hsplit hbefore hobject)
    refine ⟨fun hmem => ?_, fun hmem htarget hplain => ?_⟩
    · have hfound : repo.isReachableFrom target starters = .ok true := isReachableBeyond_of_mem hmem
      refine ⟨?_, (List.forall_mem_cons.mp (holds true hfound)).2⟩
      by_contra hplain
      cases hfound.symm.trans (promise.plain (holds true hfound) (Bool.eq_false_iff.mpr hplain))
    · exact (List.forall_mem_cons.mp (holds false (isReachableFrom_of_plain hmem htarget hplain))).2
  · rintro ⟨hlisted, hunlisted⟩
    refine ⟨fun before id after fault hsplit hbefore hobject => ?_, fun holds hplain => ?_,
      fun holds hcommit complete => complete.isReachableFrom hcommit (List.forall_mem_cons.mp holds).2⟩
    · have hlost : ¬ repo.Holds id := by
        rintro ⟨object, hfound⟩
        cases hobject.symm.trans hfound
      have hmem : target ∉ starters := by
        intro hmem
        obtain ⟨hcommit, hstarters⟩ := hlisted hmem
        have hall : ∀ other ∈ target :: starters, repo.Holds other :=
          List.forall_mem_cons.mpr ⟨holds_of_isCommit hcommit, hstarters⟩
        exact hlost (hall id (hsplit ▸ List.mem_append_right _ List.mem_cons_self))
      cases before with
      | nil =>
          obtain ⟨rfl, rfl⟩ := List.cons.inj hsplit
          exact isReachableFrom_of_target_fault hne hmem hobject
      | cons first before =>
          obtain ⟨rfl, rfl⟩ := List.cons.inj hsplit
          obtain ⟨htarget, hbefore⟩ := List.forall_mem_cons.mp hbefore
          have hcommit : repo.isCommit target = true := by
            by_contra hplain
            exact hlost (hunlisted hmem htarget (Bool.eq_false_iff.mpr hplain) id
              (List.mem_append_right _ List.mem_cons_self))
          exact isReachableFrom_of_starter_fault hmem hcommit hbefore hobject
    · have hmem : target ∉ starters := by
        intro hmem
        rw [(hlisted hmem).1] at hplain
        cases hplain
      exact isReachableFrom_of_plain hmem (holds target List.mem_cons_self) hplain

theorem keepsPromise_iff_underReview :
    [secondChange, .emptyTree] ≠ [] ∧ underReview.KeepsPromise firstChange [secondChange, .emptyTree] ∧
      underReview.isReachableFrom firstChange [secondChange, .emptyTree] = .ok true := by
  have hne : [secondChange, .emptyTree] ≠ [] := List.cons_ne_nil _ _
  have hmem : firstChange ∉ [secondChange, .emptyTree] := by decide
  have hcommit : underReview.isCommit firstChange = true := by decide +kernel
  refine ⟨hne, (keepsPromise_iff hne).mpr ⟨fun h => absurd h hmem, fun _ _ hplain => ?_⟩, by decide +kernel⟩
  rw [hcommit] at hplain
  cases hplain

/-- The tree without entries is said to be reached from itself, what is missing likewise, and the tree is
said not to be reached from what is missing. -/
theorem promise_broken_underReview :
    ¬ underReview.KeepsPromise .emptyTree [.emptyTree] ∧ ¬ underReview.KeepsPromise .zero [.zero] ∧
      ¬ underReview.KeepsPromise .emptyTree [.zero] := by
  have hplain : underReview.isCommit .emptyTree = false := by decide +kernel
  have hmissing : underReview.object .zero = .error (.missingObject .zero) := by decide +kernel
  have hstored : underReview.Holds .emptyTree := holds_iff_isOk.mpr (by decide +kernel)
  refine ⟨fun promise => ?_, fun promise => ?_, fun promise => ?_⟩
  · have hanswer := promise.plain (by simp [hstored]) hplain
    have hshown : underReview.isReachableFrom .emptyTree [.emptyTree] = .ok true := by decide +kernel
    cases hanswer.symm.trans hshown
  · have hanswer := promise.lost [] .zero [.zero] _ rfl (List.forall_mem_nil _) hmissing
    have hshown : underReview.isReachableFrom .zero [.zero] = .ok true := by decide +kernel
    cases hanswer.symm.trans hshown
  · have hanswer := promise.lost [.emptyTree] .zero [] _ rfl (List.forall_mem_singleton.mpr hstored) hmissing
    have hshown : underReview.isReachableFrom .emptyTree [.zero] = .ok false := by decide +kernel
    cases hanswer.symm.trans hshown

end Repository

end GuardedRevision
