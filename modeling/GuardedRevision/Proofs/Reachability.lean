import GuardedRevision.Proofs.Passes
import GuardedRevision.BrowsePolicy

/-!
# Reachability

A search in stages is exact in a complete repository: it finds the commits that some stage reaches,
and no others. What it finds is reached in every repository.
-/

namespace GuardedRevision

namespace Pass

variable {pass : Pass}

@[simp]
theorem firstParent_push (pass : Pass) (id : ObjectId) : (pass.push id).firstParent = pass.firstParent := by
  unfold push
  split
  · rfl
  · rfl

@[simp]
theorem firstParent_hide (pass : Pass) (id : ObjectId) : (pass.hide id).firstParent = pass.firstParent := by
  unfold hide
  split
  · rfl
  · rfl

@[simp]
theorem pushed_hide (pass : Pass) (id : ObjectId) : (pass.hide id).pushed = pass.pushed := by
  unfold hide
  split
  · rfl
  · rfl

theorem push_of_unhidden (hnone : pass.search.unwanted = []) (id : ObjectId) :
    pass.push id = { pass with seeds := id :: pass.seeds, pushed := true } := by
  unfold push
  rw [if_neg (by simp [Search.isUnwanted, hnone])]

theorem firstParent_foldl_push (ids : List ObjectId) :
    (ids.foldl push pass).firstParent = pass.firstParent := by
  induction ids generalizing pass with
  | nil => rfl
  | cons id rest ih => rw [List.foldl_cons, ih, firstParent_push]

theorem firstParent_foldl_hide (ids : List ObjectId) :
    (ids.foldl hide pass).firstParent = pass.firstParent := by
  induction ids generalizing pass with
  | nil => rfl
  | cons id rest ih => rw [List.foldl_cons, ih, firstParent_hide]

theorem pushed_foldl_hide (ids : List ObjectId) : (ids.foldl hide pass).pushed = pass.pushed := by
  induction ids generalizing pass with
  | nil => rfl
  | cons id rest ih => rw [List.foldl_cons, ih, pushed_hide]

theorem pushed_foldl_push {ids : List ObjectId} (hnone : pass.search.unwanted = [])
    (hpushed : pass.pushed = true ∨ ids ≠ []) : (ids.foldl push pass).pushed = true := by
  induction ids generalizing pass with
  | nil => exact hpushed.resolve_right fun h => h rfl
  | cons id rest ih =>
      rw [List.foldl_cons, push_of_unhidden hnone]
      exact ih hnone (.inl rfl)

end Pass

namespace Repository

/-- The walk over the history of some starts, without the history of others. -/
def walkBeyond (repo : Repository) (starts hidden : List ObjectId) : HistoryWalk :=
  hidden.foldl HistoryWalk.hideCommit (starts.foldl HistoryWalk.pushCommit (.new repo))

variable {repo : Repository} {starts hidden ids commits : List ObjectId} {id target : ObjectId}

theorem foldl_pushCommit (walk : HistoryWalk) :
    (starts.foldl HistoryWalk.pushCommit walk).repo = walk.repo ∧
      (starts.foldl HistoryWalk.pushCommit walk).pass = starts.foldl Pass.push walk.pass := by
  induction starts generalizing walk with
  | nil => exact ⟨rfl, rfl⟩
  | cons id rest ih => exact ih (walk.pushCommit id)

theorem foldl_hideCommit (walk : HistoryWalk) :
    (hidden.foldl HistoryWalk.hideCommit walk).repo = walk.repo ∧
      (hidden.foldl HistoryWalk.hideCommit walk).pass = hidden.foldl Pass.hide walk.pass := by
  induction hidden generalizing walk with
  | nil => exact ⟨rfl, rfl⟩
  | cons id rest ih => exact ih (walk.hideCommit id)

theorem foldl_eq_walkBeyond (starts hidden : List ObjectId) :
    hidden.foldl HistoryWalk.hideCommit (starts.foldl HistoryWalk.pushCommit (.new repo)) =
      repo.walkBeyond starts hidden := rfl

theorem walkBeyond_repo : (repo.walkBeyond starts hidden).repo = repo :=
  (foldl_hideCommit _).1.trans (foldl_pushCommit _).1

theorem walkBeyond_pass : (repo.walkBeyond starts hidden).pass =
    hidden.foldl Pass.hide (starts.foldl Pass.push (.fresh [])) :=
  (foldl_hideCommit _).2.trans (congrArg (hidden.foldl Pass.hide) (foldl_pushCommit _).2)

theorem walkBeyond_ready : (repo.walkBeyond starts hidden).pass.Ready repo starts hidden := by
  rw [walkBeyond_pass]
  have hfresh : (Pass.fresh []).Ready repo [] [] := Pass.ready_fresh (by simp)
  simpa using (hfresh.foldl_push starts).foldl_hide hidden

theorem walkBeyond_pushed (hstarts : starts ≠ []) :
    (repo.walkBeyond starts hidden).pass.pushed = true := by
  rw [walkBeyond_pass, Pass.pushed_foldl_hide]
  exact Pass.pushed_foldl_push rfl (.inr hstarts)

theorem walkBeyond_firstParent : (repo.walkBeyond starts hidden).pass.firstParent = false := by
  rw [walkBeyond_pass, Pass.firstParent_foldl_hide, Pass.firstParent_foldl_push]
  rfl

theorem IsHistory.isCommit {firstParent : Bool} (history : repo.IsHistory firstParent starts hidden commits)
    (hid : id ∈ commits) : repo.isCommit id = true := by
  obtain ⟨start, _, follows⟩ := history.followed id hid
  exact follows.reaches.isCommit_right

theorem IsHistory.length_le {firstParent : Bool}
    (history : repo.IsHistory firstParent starts hidden commits) :
    commits.length ≤ repo.commitIds.length :=
  (List.subperm_of_subset history.nodup fun _ hid => mem_commitIds.mpr (history.isCommit hid)).length_le

theorem walkBeyond_lists {fixed : Pass} (hstarts : starts ≠ [])
    (hhidden : ∀ id ∈ hidden, repo.isCommit id = true)
    (hfixed : (repo.walkBeyond starts hidden).pass.started repo = (.ok (), fixed)) :
    (repo.walkBeyond starts hidden).toList = .ok fixed.upcoming ∧
      repo.IsHistory false starts hidden fixed.upcoming := by
  obtain ⟨gathered, history⟩ := walkBeyond_ready.started_gives hhidden hfixed
  rw [walkBeyond_firstParent] at history
  refine ⟨?_, history⟩
  apply HistoryWalk.toList_of_started (walkBeyond_pushed hstarts) _ gathered
  · rw [walkBeyond_repo]
    exact history.length_le
  · rw [walkBeyond_repo]
    exact hfixed

theorem exists_started_of_toList (hstarts : starts ≠ [])
    (hlist : (repo.walkBeyond starts hidden).toList = .ok commits) :
    ∃ fixed, (repo.walkBeyond starts hidden).pass.started repo = (.ok (), fixed) := by
  rcases hstarted : (repo.walkBeyond starts hidden).pass.started repo with ⟨result, fixed⟩
  cases result with
  | error fault =>
      have hfault : (repo.walkBeyond starts hidden).toList = .error fault := by
        apply HistoryWalk.toList_of_fault (walkBeyond_pushed hstarts)
        rw [walkBeyond_repo]
        exact hstarted
      rw [hfault] at hlist
      cases hlist
  | ok found => exact ⟨fixed, rfl⟩

theorem toList_walkBeyond (hstarts : starts ≠ []) (hhidden : ∀ id ∈ hidden, repo.isCommit id = true)
    (hlist : (repo.walkBeyond starts hidden).toList = .ok commits) :
    repo.IsHistory false starts hidden commits := by
  obtain ⟨fixed, hstarted⟩ := exists_started_of_toList hstarts hlist
  obtain ⟨hfixed, history⟩ := walkBeyond_lists hstarts hhidden hstarted
  rw [hfixed] at hlist
  cases hlist
  exact history

theorem Complete.exists_toList_walkBeyond (complete : repo.Complete) (hne : starts ≠ [])
    (hstarts : ∀ id ∈ starts, repo.isCommit id = true)
    (hhidden : ∀ id ∈ hidden, repo.isCommit id = true) :
    ∃ commits, (repo.walkBeyond starts hidden).toList = .ok commits := by
  have hparents : ∀ id, ∀ parent ∈ repo.parentsOf id, repo.isCommit parent = true :=
    fun _ _ => complete.parents
  obtain ⟨fixed, hfixed⟩ := walkBeyond_ready.exists_started hparents hstarts hhidden
  exact ⟨_, (walkBeyond_lists hne hhidden hfixed).1⟩

/-! ### Stages -/

variable {stages : List (List ObjectId)} {stage starters searched : List ObjectId} {found : Bool}

theorem commitsOf_eq_ok_iff :
    repo.commitsOf ids = .ok commits ↔
      (∀ id ∈ ids, repo.Holds id) ∧ commits = ids.filter repo.isCommit := by
  induction ids generalizing commits with
  | nil => simp [commitsOf, eq_comm]
  | cons id rest ih =>
      rw [commitsOf]
      cases hkind : repo.kind id with
      | error fault =>
          have hmissing : ¬ repo.Holds id := by
            intro holds
            obtain ⟨kind, heq⟩ := holds.kind
            rw [hkind] at heq
            cases heq
          simp [bind, Except.bind, hmissing]
      | ok kind =>
          have hcommit : repo.isCommit id = true ↔ kind = .commit := by
            rw [← kind_eq_commit_iff, hkind, Except.ok.injEq]
          cases hrest : repo.commitsOf rest with
          | error fault =>
              have hmissing : ¬ ∀ id ∈ rest, repo.Holds id := by
                intro hall
                rw [ih.mpr ⟨hall, rfl⟩] at hrest
                cases hrest
              simp [bind, Except.bind, hmissing]
          | ok later =>
              obtain ⟨hall, rfl⟩ := ih.mp hrest
              have hboth : ∀ other ∈ id :: rest, repo.Holds other :=
                List.forall_mem_cons.mpr ⟨holds_of_kind hkind, hall⟩
              rw [and_iff_right hboth]
              by_cases heq : kind = .commit
              · rw [List.filter_cons_of_pos (hcommit.mpr heq)]
                simp [bind, Except.bind, pure, Except.pure, heq, eq_comm]
              · rw [List.filter_cons_of_neg fun h => heq (hcommit.mp h)]
                simp [bind, Except.bind, pure, Except.pure, heq, eq_comm]

theorem reachedBy_filter_isCommit :
    repo.ReachedBy (ids.filter repo.isCommit) target ↔ repo.ReachedBy ids target := by
  constructor
  · rintro ⟨root, hroot, hpath⟩
    exact ⟨root, List.mem_of_mem_filter hroot, hpath⟩
  · rintro ⟨root, hroot, hpath⟩
    exact ⟨root, List.mem_filter.mpr ⟨hroot, hpath.isCommit_left⟩, hpath⟩

theorem followedBy_false_iff : repo.FollowedBy false ids target ↔ repo.ReachedBy ids target := by
  unfold FollowedBy ReachedBy
  simp only [follows_false_iff]

theorem commitsOf_eq_ok (holds : ∀ id ∈ ids, repo.Holds id) :
    repo.commitsOf ids = .ok (ids.filter repo.isCommit) :=
  commitsOf_eq_ok_iff.mpr ⟨holds, rfl⟩

theorem isReachableBeyond_nil : repo.isReachableBeyond target [] searched = .ok false := rfl

theorem isReachableBeyond_of_mem (hmem : target ∈ starters) :
    repo.isReachableBeyond target starters searched = .ok true := by
  have hne : starters.isEmpty = false := List.isEmpty_eq_false_iff.mpr (List.ne_nil_of_mem hmem)
  simp [isReachableBeyond, hne, hmem, pure, Except.pure]

/-- A search for a commit that is no starter is a search in a walk, if any starter is a commit. -/
theorem isReachableBeyond_eq_ok_iff (hne : starters ≠ []) (hmem : target ∉ starters)
    (hcommit : repo.isCommit target = true) :
    repo.isReachableBeyond target starters searched = .ok found ↔
      (∀ id ∈ starters, repo.Holds id) ∧
      if starters.filter repo.isCommit = [] then found = false
      else (∀ id ∈ searched, repo.Holds id) ∧
        ∃ commits, (repo.walkBeyond (starters.filter repo.isCommit)
            (searched.filter repo.isCommit)).toList = .ok commits ∧
          found = commits.contains target := by
  have hempty : starters.isEmpty = false := List.isEmpty_eq_false_iff.mpr hne
  have hkind : repo.kind target = .ok .commit := kind_eq_commit_iff.mpr hcommit
  simp only [isReachableBeyond, hempty, Bool.false_eq_true, if_false, List.contains_eq_mem, hmem,
    decide_false, hkind, bind, Except.bind, ne_eq, not_true_eq_false]
  cases hpushed : repo.commitsOf starters with
  | error fault =>
      have hmissing : ¬ ∀ id ∈ starters, repo.Holds id := fun hall => by
        rw [commitsOf_eq_ok hall] at hpushed
        cases hpushed
      simp [hmissing]
  | ok pushed =>
      obtain ⟨hall, rfl⟩ := commitsOf_eq_ok_iff.mp hpushed
      rw [and_iff_right hall]
      by_cases hnone : starters.filter repo.isCommit = []
      · simp [hnone, pure, Except.pure, eq_comm]
      · rw [if_neg hnone]
        simp only [List.isEmpty_iff, hnone, if_false]
        cases hhidden : repo.commitsOf searched with
        | error fault =>
            have hmissing : ¬ ∀ id ∈ searched, repo.Holds id := fun hall => by
              rw [commitsOf_eq_ok hall] at hhidden
              cases hhidden
            simp [hmissing]
        | ok hidden =>
            obtain ⟨hsearched, rfl⟩ := commitsOf_eq_ok_iff.mp hhidden
            rw [and_iff_right hsearched]
            simp only [foldl_eq_walkBeyond]
            cases (repo.walkBeyond (starters.filter repo.isCommit)
                (searched.filter repo.isCommit)).toList with
            | error fault => simp
            | ok commits => simp [pure, Except.pure, eq_comm]

theorem reachedBy_append {more : List ObjectId} :
    repo.ReachedBy (ids ++ more) target ↔ repo.ReachedBy ids target ∨ repo.ReachedBy more target := by
  unfold ReachedBy
  simp only [List.mem_append, or_and_right, exists_or]

theorem reachedBy_of_mem (hmem : target ∈ ids) (hcommit : repo.isCommit target = true) :
    repo.ReachedBy ids target := ⟨target, hmem, .refl hcommit⟩

theorem isCommit_of_mem_filter (hid : id ∈ ids.filter repo.isCommit) : repo.isCommit id = true :=
  (List.mem_filter.mp hid).2

theorem reachedBy_of_isReachableBeyond (hcommit : repo.isCommit target = true)
    (hfound : repo.isReachableBeyond target starters searched = .ok true) :
    repo.ReachedBy starters target := by
  by_cases hmem : target ∈ starters
  · exact reachedBy_of_mem hmem hcommit
  · have hne : starters ≠ [] := by
      rintro rfl
      rw [isReachableBeyond_nil] at hfound
      cases hfound
    obtain ⟨_, hwalk⟩ := (isReachableBeyond_eq_ok_iff hne hmem hcommit).mp hfound
    split at hwalk
    · cases hwalk
    · next hpushed =>
        obtain ⟨_, commits, hlist, hcontains⟩ := hwalk
        have history := toList_walkBeyond hpushed (fun _ => isCommit_of_mem_filter) hlist
        have hlisted : target ∈ commits := by simpa using hcontains.symm
        exact reachedBy_filter_isCommit.mp (followedBy_false_iff.mp (history.followed target hlisted))

theorem reachedBy_of_isReachableInStages (hcommit : repo.isCommit target = true)
    (hfound : repo.isReachableInStages target stages searched = .ok true) :
    ∃ stage ∈ stages, repo.ReachedBy stage target := by
  induction stages generalizing searched with
  | nil => cases hfound
  | cons stage later ih =>
      rw [isReachableInStages] at hfound
      have hlater : ∀ searched, repo.isReachableInStages target later searched = .ok true →
          ∃ stage' ∈ stage :: later, repo.ReachedBy stage' target := by
        intro searched hfound
        obtain ⟨stage', hmem, hreached⟩ := ih hfound
        exact ⟨stage', List.mem_cons_of_mem _ hmem, hreached⟩
      split at hfound
      · exact hlater searched hfound
      · split at hfound
        · cases hfound
        · next hstage =>
            exact ⟨stage, List.mem_cons_self, reachedBy_of_isReachableBeyond hcommit hstage⟩
        · exact hlater (searched ++ stage) hfound

theorem not_reachedBy_nil : ¬ repo.ReachedBy [] target := by
  rintro ⟨_, hroot, _⟩
  cases hroot

theorem reachedBy_flatten :
    repo.ReachedBy stages.flatten target ↔ ∃ stage ∈ stages, repo.ReachedBy stage target := by
  constructor
  · rintro ⟨root, hmem, hpath⟩
    obtain ⟨stage, hstage, hroot⟩ := List.mem_flatten.mp hmem
    exact ⟨stage, hstage, root, hroot, hpath⟩
  · rintro ⟨stage, hstage, root, hroot, hpath⟩
    exact ⟨root, List.mem_flatten.mpr ⟨stage, hstage, hroot⟩, hpath⟩

/-- An object that is no commit is found only among the starters. -/
theorem isReachableBeyond_of_plain {kind : ObjectKind} (hkind : repo.kind target = .ok kind)
    (hplain : kind ≠ .commit) :
    repo.isReachableBeyond target starters searched = .ok (decide (target ∈ starters)) := by
  by_cases hmem : target ∈ starters
  · rw [isReachableBeyond_of_mem hmem, decide_eq_true hmem]
  · by_cases hne : starters = []
    · rw [hne, isReachableBeyond_nil]
      simp
    · simp [isReachableBeyond, hne, hmem, hkind, hplain, bind, Except.bind, pure, Except.pure]

theorem isReachableInStages_of_plain {kind : ObjectKind} (hkind : repo.kind target = .ok kind)
    (hplain : kind ≠ .commit) :
    repo.isReachableInStages target stages searched = .ok (decide (target ∈ stages.flatten)) := by
  induction stages generalizing searched with
  | nil => rfl
  | cons stage later ih =>
      rw [isReachableInStages, isReachableBeyond_of_plain hkind hplain, List.flatten_cons]
      by_cases hempty : stage = []
      · rw [hempty]
        exact ih
      · rw [if_neg (by simpa using hempty)]
        by_cases hmem : target ∈ stage
        · simp [hmem]
        · simp only [decide_eq_false hmem, ih]
          simp [hmem]

namespace Complete

variable (complete : repo.Complete)
include complete

/-- A search beyond what was searched before ends, finds only what is reached, and misses nothing that is
reached from nowhere else. -/
theorem exists_isReachableBeyond (hcommit : repo.isCommit target = true)
    (hstarters : ∀ id ∈ starters, repo.Holds id) (hsearched : ∀ id ∈ searched, repo.Holds id) :
    ∃ found, repo.isReachableBeyond target starters searched = .ok found ∧
      (found = true → repo.ReachedBy starters target) ∧
      (repo.ReachedBy starters target → ¬ repo.ReachedBy searched target → found = true) := by
  by_cases hmem : target ∈ starters
  · exact ⟨true, isReachableBeyond_of_mem hmem, fun _ => reachedBy_of_mem hmem hcommit,
      fun _ _ => rfl⟩
  · by_cases hne : starters = []
    · subst hne
      exact ⟨false, isReachableBeyond_nil, fun h => Bool.noConfusion h,
        fun h => absurd h not_reachedBy_nil⟩
    · by_cases hpushed : starters.filter repo.isCommit = []
      · refine ⟨false, (isReachableBeyond_eq_ok_iff hne hmem hcommit).mpr ⟨hstarters, ?_⟩,
          fun h => Bool.noConfusion h, ?_⟩
        · rw [if_pos hpushed]
        · rw [← reachedBy_filter_isCommit, hpushed]
          exact fun h => absurd h not_reachedBy_nil
      · obtain ⟨commits, hlist⟩ := complete.exists_toList_walkBeyond hpushed
          (fun _ => isCommit_of_mem_filter)
          (fun _ => isCommit_of_mem_filter : ∀ id ∈ searched.filter repo.isCommit, _)
        have history := toList_walkBeyond hpushed (fun _ => isCommit_of_mem_filter) hlist
        refine ⟨commits.contains target,
          (isReachableBeyond_eq_ok_iff hne hmem hcommit).mpr ⟨hstarters, ?_⟩, ?_⟩
        · rw [if_neg hpushed]
          exact ⟨hsearched, commits, hlist, rfl⟩
        · rw [List.contains_iff_mem, ← reachedBy_filter_isCommit, ← followedBy_false_iff]
          refine ⟨history.followed target, fun hfollowed hbeyond => ?_⟩
          apply history.covers complete.acyclic target hfollowed
          rwa [reachedBy_filter_isCommit]

theorem isReachableBeyond (hcommit : repo.isCommit target = true)
    (hstarters : ∀ id ∈ starters, repo.Holds id) (hsearched : ∀ id ∈ searched, repo.Holds id)
    (hbeyond : ¬ repo.ReachedBy searched target) :
    ∃ found, repo.isReachableBeyond target starters searched = .ok found ∧
      (found = true ↔ repo.ReachedBy starters target) := by
  obtain ⟨found, hfound, hreached, hmissed⟩ :=
    complete.exists_isReachableBeyond hcommit hstarters hsearched
  exact ⟨found, hfound, hreached, fun h => hmissed h hbeyond⟩

theorem isReachableFrom (hcommit : repo.isCommit target = true)
    (hstarters : ∀ id ∈ starters, repo.Holds id) :
    ∃ found, repo.isReachableFrom target starters = .ok found ∧
      (found = true ↔ repo.ReachedBy starters target) :=
  complete.isReachableBeyond hcommit hstarters (List.forall_mem_nil _) not_reachedBy_nil

theorem not_reachedBy_of_isReachableFrom (hcommit : repo.isCommit target = true)
    (hstarters : ∀ id ∈ starters, repo.Holds id)
    (hnone : repo.isReachableFrom target starters = .ok false) : ¬ repo.ReachedBy starters target := by
  obtain ⟨found, hsearch, hiff⟩ := complete.isReachableFrom hcommit hstarters
  cases hnone.symm.trans hsearch
  exact fun reached => Bool.noConfusion (hiff.mpr reached)

/-- A search in stages finds exactly what some stage reaches. -/
theorem isReachableInStages (hcommit : repo.isCommit target = true)
    (hstages : ∀ stage ∈ stages, ∀ id ∈ stage, repo.Holds id)
    (hsearched : ∀ id ∈ searched, repo.Holds id) (hbeyond : ¬ repo.ReachedBy searched target) :
    ∃ found, repo.isReachableInStages target stages searched = .ok found ∧
      (found = true ↔ ∃ stage ∈ stages, repo.ReachedBy stage target) := by
  induction stages generalizing searched with
  | nil => exact ⟨false, rfl, by simp⟩
  | cons stage later ih =>
      obtain ⟨hstage, hlater⟩ := List.forall_mem_cons.mp hstages
      have hcons : (∃ stage' ∈ stage :: later, repo.ReachedBy stage' target) ↔
          repo.ReachedBy stage target ∨ ∃ stage' ∈ later, repo.ReachedBy stage' target := by
        simp only [List.mem_cons, exists_eq_or_imp]
      rw [Repository.isReachableInStages]
      by_cases hempty : stage = []
      · obtain ⟨found, hrun, hfound⟩ := ih hlater hsearched hbeyond
        refine ⟨found, ?_, ?_⟩
        · rw [hempty]
          exact hrun
        · have hnot : ¬ repo.ReachedBy stage target := by simp [ReachedBy, hempty]
          rw [hcons, hfound, or_iff_right hnot]
      · obtain ⟨found, hrun, hfound⟩ := complete.isReachableBeyond hcommit hstage hsearched hbeyond
        rw [if_neg (by simpa using hempty), hrun]
        cases found with
        | true => exact ⟨true, rfl, by rw [hcons]; exact ⟨fun _ => .inl (hfound.mp rfl), fun _ => rfl⟩⟩
        | false =>
            have hnot : ¬ repo.ReachedBy stage target := fun h => Bool.noConfusion (hfound.mpr h)
            have hboth : ∀ id ∈ searched ++ stage, repo.Holds id := fun id hid =>
              (List.mem_append.mp hid).elim (hsearched id) (hstage id)
            have hbeyond' : ¬ repo.ReachedBy (searched ++ stage) target := by
              rw [reachedBy_append]
              exact fun h => h.elim hbeyond hnot
            obtain ⟨found, hrest, hfound'⟩ := ih hlater hboth hbeyond'
            exact ⟨found, hrest, by rw [hcons, hfound', or_iff_right hnot]⟩

theorem isReachableInStages_eq_from (htarget : repo.Holds target)
    (hstages : ∀ stage ∈ stages, ∀ id ∈ stage, repo.Holds id) :
    repo.isReachableInStages target stages [] = repo.isReachableFrom target stages.flatten := by
  obtain ⟨kind, hkind⟩ := htarget.kind
  by_cases hcommit : kind = .commit
  · subst hcommit
    have hcommit : repo.isCommit target = true := kind_eq_commit_iff.mp hkind
    have hall : ∀ id ∈ stages.flatten, repo.Holds id := fun id hid => by
      obtain ⟨stage, hstage, hmem⟩ := List.mem_flatten.mp hid
      exact hstages stage hstage id hmem
    obtain ⟨staged, hstaged, hiff⟩ := complete.isReachableInStages hcommit hstages
      (List.forall_mem_nil _) not_reachedBy_nil
    obtain ⟨direct, hdirect, hiff'⟩ := complete.isReachableFrom hcommit hall
    rw [hstaged, hdirect, Except.ok.injEq, Bool.eq_iff_iff, hiff, hiff', reachedBy_flatten]
  · rw [isReachableInStages_of_plain hkind hcommit, Repository.isReachableFrom,
      isReachableBeyond_of_plain hkind hcommit]

end Complete

end Repository

end GuardedRevision
