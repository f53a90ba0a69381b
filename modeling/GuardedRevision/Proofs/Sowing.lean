import GuardedRevision.Proofs.YieldsOnce

/-!
# Sown walks

A walk is sown by calls that push and hide commits and choose first parents, in any order. The same calls
sow the same walk. In a complete repository each of them succeeds, and the walk that is sown comes to its
end without a fault, with children before their parents.
-/

namespace GuardedRevision

inductive Seed where
  | push (id : ObjectId)
  | hide (id : ObjectId)
  | firstParent
  deriving DecidableEq

def HistoryWalk.sow (walk : HistoryWalk) : Seed → Except Fault HistoryWalk
  | .push id => walk.push id
  | .hide id => walk.hide id
  | .firstParent => .ok walk.firstParentOnly

/-- The walk that these calls make of a new one. -/
def Repository.sown (repo : Repository) (seeds : List Seed) : Except Fault HistoryWalk :=
  seeds.foldlM HistoryWalk.sow (.new repo)

namespace HistoryWalk

variable {repo : Repository} {walk : HistoryWalk} {seeds more : List Seed} {seed : Seed} {id : ObjectId}

/-- A walk that has not begun and has these seeds. -/
structure Sown (repo : Repository) (seeds : List Seed) (walk : HistoryWalk) : Prop where
  built : walk.Built
  store : walk.repo = repo
  ready : walk.pass.Ready repo walk.starts walk.hidden
  follows : walk.pass.firstParent = walk.firstParent
  idle : walk.pass.pushed = true ∨ walk.starts ⊆ walk.hidden
  starts : ∀ id, id ∈ walk.starts ↔ Seed.push id ∈ seeds
  hidden : ∀ id, id ∈ walk.hidden ↔ Seed.hide id ∈ seeds
  firstParent : walk.firstParent = true ↔ Seed.firstParent ∈ seeds

namespace Sown

theorem new (repo : Repository) : (HistoryWalk.new repo).Sown repo [] where
  built := .new repo
  store := rfl
  ready := Pass.ready_fresh (by simp)
  follows := rfl
  idle := .inr (List.Subset.refl _)
  starts := by simp [HistoryWalk.new]
  hidden := by simp [HistoryWalk.new]
  firstParent := by simp [HistoryWalk.new]

theorem push (sown : walk.Sown repo seeds) (hpush : walk.push id = .ok (walk.pushCommit id)) :
    (walk.pushCommit id).Sown repo (seeds ++ [.push id]) where
  built := .push sown.built hpush
  store := sown.store
  ready := sown.ready.push
  follows := (Pass.firstParent_push walk.pass id).trans sown.follows
  idle := by
    by_cases hmark : id ∈ walk.hidden
    · -- What is hidden already is pushed without effect.
      have hsame : walk.pass.push id = walk.pass :=
        if_pos (Search.isUnwanted_iff.mpr ((sown.ready.unwanted id).mpr hmark))
      rcases sown.idle with hpushed | hhidden
      · exact .inl ((congrArg Pass.pushed hsame).trans hpushed)
      · refine .inr fun other hother => ?_
        rcases List.mem_append.mp hother with hold | hnew
        · exact hhidden hold
        · exact List.mem_singleton.mp hnew ▸ hmark
    · have hunhidden : ¬ walk.pass.search.isUnwanted id = true := fun h =>
        hmark ((sown.ready.unwanted id).mp (Search.isUnwanted_iff.mp h))
      exact .inl (congrArg Pass.pushed (if_neg hunhidden))
  starts := by simp [pushCommit, sown.starts]
  hidden := by simp [pushCommit, sown.hidden]
  firstParent := by simp [pushCommit, sown.firstParent]

theorem hide (sown : walk.Sown repo seeds) (hhide : walk.hide id = .ok (walk.hideCommit id)) :
    (walk.hideCommit id).Sown repo (seeds ++ [.hide id]) where
  built := .hide sown.built hhide
  store := sown.store
  ready := sown.ready.hide
  follows := (Pass.firstParent_hide walk.pass id).trans sown.follows
  idle := sown.idle.imp (fun h => (Pass.pushed_hide walk.pass id).trans h)
    fun h => List.subset_append_of_subset_left _ h
  starts := by simp [hideCommit, sown.starts]
  hidden := by simp [hideCommit, sown.hidden]
  firstParent := by simp [hideCommit, sown.firstParent]

theorem firstParentOnly (sown : walk.Sown repo seeds) :
    walk.firstParentOnly.Sown repo (seeds ++ [.firstParent]) where
  built := .firstParentOnly sown.built
  store := sown.store
  ready := { sown.ready with }
  follows := rfl
  idle := sown.idle
  starts := by simp [HistoryWalk.firstParentOnly, sown.starts]
  hidden := by simp [HistoryWalk.firstParentOnly, sown.hidden]
  firstParent := by simp [HistoryWalk.firstParentOnly]

theorem exists_sow (sown : walk.Sown repo seeds)
    (hcommit : ∀ id, seed = .push id ∨ seed = .hide id → repo.isCommit id = true) :
    ∃ after, walk.sow seed = .ok after ∧ after.Sown repo (seeds ++ [seed]) := by
  cases seed with
  | push id =>
      have hrequire : walk.requireCommit id = .ok () :=
        (requireCommit_eq_ok_iff sown.store).mpr (hcommit id (.inl rfl))
      have hpush : walk.push id = .ok (walk.pushCommit id) :=
        except_bind_eq_ok_iff.mpr ⟨(), hrequire, rfl⟩
      exact ⟨walk.pushCommit id, hpush, sown.push hpush⟩
  | hide id =>
      have hrequire : walk.requireCommit id = .ok () :=
        (requireCommit_eq_ok_iff sown.store).mpr (hcommit id (.inr rfl))
      have hhide : walk.hide id = .ok (walk.hideCommit id) :=
        except_bind_eq_ok_iff.mpr ⟨(), hrequire, rfl⟩
      exact ⟨walk.hideCommit id, hhide, sown.hide hhide⟩
  | firstParent => exact ⟨walk.firstParentOnly, rfl, sown.firstParentOnly⟩

theorem exists_foldlM (sown : walk.Sown repo seeds)
    (hcommits : ∀ id, Seed.push id ∈ more ∨ Seed.hide id ∈ more → repo.isCommit id = true) :
    ∃ after, more.foldlM sow walk = .ok after ∧ after.Sown repo (seeds ++ more) := by
  induction more generalizing walk seeds with
  | nil => exact ⟨walk, rfl, by rwa [List.append_nil]⟩
  | cons seed more ih =>
      have hfirst : ∀ id, seed = .push id ∨ seed = .hide id → repo.isCommit id = true := fun id hid =>
        hcommits id (hid.imp (fun h => List.mem_cons.mpr (.inl h.symm)) fun h =>
          List.mem_cons.mpr (.inl h.symm))
      obtain ⟨middle, hseed, hmiddle⟩ := sown.exists_sow hfirst
      obtain ⟨after, hmore, hafter⟩ := ih hmiddle fun id hid =>
        hcommits id (hid.imp (List.mem_cons_of_mem _) (List.mem_cons_of_mem _))
      refine ⟨after, ?_, by rwa [List.append_cons]⟩
      rw [List.foldlM_cons]
      exact except_bind_eq_ok_iff.mpr ⟨middle, hseed, hmore⟩

end Sown

end HistoryWalk

namespace Repository

variable {repo : Repository} {seeds : List Seed} {walk : HistoryWalk}

theorem exists_sown
    (hcommits : ∀ id, Seed.push id ∈ seeds ∨ Seed.hide id ∈ seeds → repo.isCommit id = true) :
    ∃ walk, repo.sown seeds = .ok walk ∧ walk.Sown repo seeds :=
  (HistoryWalk.Sown.new repo).exists_foldlM hcommits

end Repository

/-! ### Going through a sown walk -/

variable {repo : Repository} {pass fixed : Pass} {starts hidden : List ObjectId}

theorem Pass.Ready.started_pairwise (ready : pass.Ready repo starts hidden)
    (hhidden : ∀ id ∈ hidden, repo.isCommit id = true)
    (hstarted : pass.started repo = (.ok (), fixed)) :
    fixed.upcoming.Pairwise fun earlier later => earlier ∉ repo.parentsOf later := by
  obtain ⟨after, hprepare, rfl⟩ := (started_eq_ok_iff ready.begun).mp hstarted
  obtain ⟨_, found, _, _, _, rfl⟩ := (ready.prepare_gives_iff hhidden).mp hprepare
  exact (Repository.order_pairwise found).filter _

namespace HistoryWalk

/-- What the walk goes through: the history of its starts without the hidden ones, children first. -/
structure Lists (repo : Repository) (walk : HistoryWalk) (commits : List ObjectId) : Prop where
  history : repo.IsHistory walk.firstParent walk.starts walk.hidden commits
  ordered : commits.Pairwise fun earlier later => earlier ∉ repo.parentsOf later

variable {walk : HistoryWalk} {seeds : List Seed} {commits : List ObjectId} {id : ObjectId}

/-- Whether a walk goes through a commit that nothing hidden reaches depends on its starts alone. -/
theorem Lists.mem_iff (lists : walk.Lists repo commits) (complete : repo.Complete)
    (hfree : ¬ repo.ReachedBy walk.hidden id) :
    id ∈ commits ↔ repo.FollowedBy walk.firstParent walk.starts id :=
  ⟨lists.history.followed id, fun hfollowed => lists.history.covers complete.acyclic id hfollowed hfree⟩

theorem Sown.runs_idle (sown : walk.Sown repo seeds) (hnone : walk.pass.pushed = false) :
    walk.Runs [] walk ∧ walk.Lists repo [] := by
  have hsubset : walk.starts ⊆ walk.hidden := sown.idle.resolve_left (by simp [hnone])
  refine ⟨.ended ?_, ⟨List.nodup_nil, by simp, fun _ id hfollowed hfree => ?_⟩, List.Pairwise.nil⟩
  · have hnext : walk.pass.next walk.repo = (.ok none, walk.pass) := by
      rw [Pass.next, if_pos (by simp [sown.ready.begun, hnone])]
    simp only [next, hnext]
  · obtain ⟨start, hstart, follows⟩ := hfollowed
    exact absurd ⟨start, hsubset hstart, follows.reaches⟩ hfree

/-- The first step fixes what a walk goes through to which something was pushed. -/
theorem Sown.exists_started (sown : walk.Sown repo seeds) (complete : repo.Complete)
    (hcommits : ∀ id, Seed.push id ∈ seeds ∨ Seed.hide id ∈ seeds → repo.isCommit id = true)
    (hpushed : walk.pass.pushed = true) :
    ∃ fixed last, walk.pass.started repo = (.ok (), fixed) ∧ walk.Runs fixed.upcoming last ∧
      walk.Lists repo fixed.upcoming := by
  have hstarts : ∀ id ∈ walk.starts, repo.isCommit id = true := fun id hid =>
    hcommits id (.inl ((sown.starts id).mp hid))
  have hhidden : ∀ id ∈ walk.hidden, repo.isCommit id = true := fun id hid =>
    hcommits id (.inr ((sown.hidden id).mp hid))
  obtain ⟨fixed, hstarted⟩ := sown.ready.exists_started (fun _ _ => complete.parents) hstarts hhidden
  obtain ⟨gathered, history⟩ := sown.ready.started_gives hhidden hstarted
  have hruns : walk.Runs fixed.upcoming { walk with pass := fixed.spent } :=
    runs_of_started hpushed (sown.store.symm ▸ hstarted) gathered
  exact ⟨fixed, _, hstarted, hruns, sown.follows ▸ history,
    sown.ready.started_pairwise hhidden hstarted⟩

theorem Sown.exists_runs (sown : walk.Sown repo seeds) (complete : repo.Complete)
    (hcommits : ∀ id, Seed.push id ∈ seeds ∨ Seed.hide id ∈ seeds → repo.isCommit id = true) :
    ∃ commits last, walk.Runs commits last ∧ walk.Lists repo commits := by
  cases hpushed : walk.pass.pushed with
  | false => exact ⟨[], walk, sown.runs_idle hpushed⟩
  | true =>
      obtain ⟨fixed, last, _, hruns, lists⟩ := sown.exists_started complete hcommits hpushed
      exact ⟨fixed.upcoming, last, hruns, lists⟩

end HistoryWalk

end GuardedRevision
