import GuardedRevision.Proofs.Growth

/-!
# Runs of walks

What a walk goes through from where it stands to its end, and what it has become then. A walk that was
seeded with commits and has not begun goes through the same commits in a larger store, and once it has
come to its end it can be rewound to a seeded walk.
-/

namespace GuardedRevision

namespace HistoryWalk

/-- `Runs walk commits last`: without a fault, the walk yields these commits and then none, and it is
`last` after that. -/
inductive Runs : HistoryWalk → List ObjectId → HistoryWalk → Prop where
  | ended {walk last : HistoryWalk} (hnext : walk.next = (.ok none, last)) : Runs walk [] last
  | yields {walk after last : HistoryWalk} {id : ObjectId} {later : List ObjectId}
      (hnext : walk.next = (.ok (some id), after)) (rest : Runs after later last) :
      Runs walk (id :: later) last

/-- A walk that has not begun, to which commits of a repository were pushed, some of them to effect, and
others hidden. -/
structure Seeded (repo : Repository) (walk : HistoryWalk) : Prop where
  store : walk.repo = repo
  ready : walk.pass.Ready repo walk.starts walk.hidden
  pushed : walk.pass.pushed = true
  some : walk.starts ≠ []
  starts : ∀ id ∈ walk.starts, repo.isCommit id = true
  hidden : ∀ id ∈ walk.hidden, repo.isCommit id = true

variable {repo larger : Repository} {walk last : HistoryWalk} {pass fixed : Pass} {start id : ObjectId}
  {before later commits : List ObjectId} {steps : Nat}

theorem repo_next {found : Except Fault (Option ObjectId)} (hnext : walk.next = (found, last)) :
    last.repo = walk.repo := by
  have hlast : walk.next.2 = last := congrArg Prod.snd hnext
  rw [← hlast]
  rfl

theorem Runs.repo_eq (runs : walk.Runs commits last) : last.repo = walk.repo := by
  induction runs with
  | ended hnext => exact repo_next hnext
  | yields hnext _ ih => rw [ih, repo_next hnext]

theorem Runs.unique {other : List ObjectId} {ended : HistoryWalk} (runs : walk.Runs commits last)
    (again : walk.Runs other ended) : commits = other ∧ last = ended := by
  induction runs generalizing other with
  | ended hnext =>
      cases again with
      | ended hagain => exact ⟨rfl, congrArg Prod.snd (hnext.symm.trans hagain)⟩
      | yields hagain _ => cases hnext.symm.trans hagain
  | yields hnext _ ih =>
      cases again with
      | ended hagain => cases hnext.symm.trans hagain
      | yields hagain hrest =>
          cases hnext.symm.trans hagain
          exact (ih hrest).imp_left (congrArg _)

theorem Runs.of_take {count : Nat} (htake : (walk.take count).1 = .ok commits)
    (hshort : commits.length < count) : walk.Runs commits (walk.take count).2 := by
  induction count generalizing walk commits with
  | zero => exact absurd hshort (Nat.not_lt_zero _)
  | succ count ih =>
      rw [take] at htake ⊢
      split at htake
      · cases htake
      · next hnext =>
          cases htake
          exact .ended hnext
      · next id after hnext =>
          cases hlater : (after.take count).1 with
          | error fault => simp [hlater, Except.map] at htake
          | ok later =>
              simp only [hlater, Except.map, Except.ok.injEq] at htake
              subst htake
              exact .yields hnext (ih hlater (Nat.lt_of_succ_lt_succ hshort))

/-! ### Skipping -/

theorem Runs.skipWithin_found (runs : walk.Runs (before ++ start :: later) last)
    (hnew : start ∉ before) (henough : before.length < steps) :
    ∃ after, skipWithin start steps walk = (.ok (before, true), after) ∧ after.Runs later last := by
  induction before generalizing walk steps with
  | nil =>
      obtain ⟨steps, rfl⟩ := Nat.exists_eq_succ_of_ne_zero (by omega : steps ≠ 0)
      cases runs with
      | yields hnext rest =>
          refine ⟨_, ?_, rest⟩
          simp only [skipWithin, hnext, if_true]
  | cons id before ih =>
      obtain ⟨steps, rfl⟩ := Nat.exists_eq_succ_of_ne_zero (by omega : steps ≠ 0)
      have hne : id ≠ start := fun heq => hnew (heq ▸ List.mem_cons_self)
      have hrest : start ∉ before := fun hmem => hnew (List.mem_cons_of_mem _ hmem)
      cases runs with
      | yields hnext rest =>
          obtain ⟨after, hskip, hafter⟩ := ih rest hrest (Nat.lt_of_succ_lt_succ henough)
          refine ⟨after, ?_, hafter⟩
          simp only [skipWithin, hnext, if_neg hne, hskip, Except.map]

theorem Runs.skipWithin_missed (runs : walk.Runs commits last) (hnew : start ∉ commits)
    (henough : commits.length < steps) :
    skipWithin start steps walk = (.ok (commits, false), last) := by
  induction runs generalizing steps with
  | ended hnext =>
      obtain ⟨steps, rfl⟩ := Nat.exists_eq_succ_of_ne_zero (by omega : steps ≠ 0)
      simp only [skipWithin, hnext]
  | @yields walk after last id later hnext _ ih =>
      obtain ⟨steps, rfl⟩ := Nat.exists_eq_succ_of_ne_zero (by omega : steps ≠ 0)
      have hne : id ≠ start := fun heq => hnew (heq ▸ List.mem_cons_self)
      have hrest : start ∉ later := fun hmem => hnew (List.mem_cons_of_mem _ hmem)
      have hskip := ih hrest (Nat.lt_of_succ_lt_succ henough)
      simp only [skipWithin, hnext, if_neg hne, hskip, Except.map]

/-! ### Seeding -/

theorem requireCommit_eq_ok_iff (hstore : walk.repo = repo) :
    walk.requireCommit id = .ok () ↔ repo.isCommit id = true := by
  unfold requireCommit
  rw [hstore, ← Repository.kind_eq_commit_iff]
  cases repo.kind id with
  | error fault => simp [bind, Except.bind]
  | ok kind => cases kind <;> simp [bind, Except.bind, pure, Except.pure, throw, throwThe, MonadExceptOf.throw]

theorem seeded_push (hcommit : repo.isCommit id = true) :
    ((HistoryWalk.new repo).pushCommit id).Seeded repo where
  store := rfl
  ready := (Pass.ready_fresh (by simp)).push
  pushed := rfl
  some := by simp [pushCommit]
  starts := List.forall_mem_singleton.mpr hcommit
  hidden := List.forall_mem_nil _

theorem ready_rewind (hread : ∀ id ∈ pass.search.read, repo.isCommit id = true) :
    ({ walk with pass := pass } : HistoryWalk).rewind.pass.Ready repo walk.starts walk.hidden := by
  have hfresh : ({ Pass.fresh pass.search.read with firstParent := walk.firstParent } : Pass).Ready
      repo [] [] := { Pass.ready_fresh hread with }
  exact (hfresh.foldl_push walk.starts).foldl_hide walk.hidden

namespace Seeded

variable (seeded : walk.Seeded repo)
include seeded

theorem hide (hcommit : repo.isCommit id = true) : (walk.hideCommit id).Seeded repo where
  store := seeded.store
  ready := seeded.ready.hide
  pushed := (Pass.pushed_hide walk.pass id).trans seeded.pushed
  some := seeded.some
  starts := seeded.starts
  hidden := by
    intro other hother
    rcases List.mem_append.mp hother with hold | hnew
    · exact seeded.hidden other hold
    · exact List.mem_singleton.mp hnew ▸ hcommit

theorem firstParentOnly : walk.firstParentOnly.Seeded repo :=
  { seeded with ready := { seeded.ready with } }

theorem rewind (hread : ∀ id ∈ pass.search.read, repo.isCommit id = true) :
    ({ walk with pass := pass } : HistoryWalk).rewind.Seeded repo where
  store := seeded.store
  ready := ready_rewind hread
  pushed := (Pass.pushed_foldl_hide _).trans (Pass.pushed_foldl_push rfl (.inr seeded.some))
  some := seeded.some
  starts := seeded.starts
  hidden := seeded.hidden

end Seeded

/-! ### Going through -/

theorem runs_of_gathered (gathered : walk.pass.Gathered) :
    walk.Runs walk.pass.upcoming { walk with pass := walk.pass.spent } := by
  generalize hupcoming : walk.pass.upcoming = commits
  induction commits generalizing walk with
  | nil =>
      apply Runs.ended
      rw [next, gathered.next_nil hupcoming]
  | cons id later ih =>
      obtain ⟨after, hnext, hafter, hlater, hspent⟩ := gathered.next_cons walk.repo hupcoming
      have hrest := @ih { walk with pass := after } hafter hlater
      rw [hspent] at hrest
      refine .yields ?_ hrest
      rw [next, hnext]

theorem runs_of_started (pushed : walk.pass.pushed = true)
    (hstarted : walk.pass.started walk.repo = (.ok (), fixed)) (gathered : fixed.Gathered) :
    walk.Runs fixed.upcoming { walk with pass := fixed.spent } := by
  have hnext : walk.next = ({ walk with pass := fixed } : HistoryWalk).next := by
    simp only [next, Pass.next_of_started pushed hstarted gathered.begun]
  have hruns : ({ walk with pass := fixed } : HistoryWalk).Runs fixed.upcoming
      { walk with pass := fixed.spent } := runs_of_gathered gathered
  generalize fixed.upcoming = commits at hruns
  cases hruns with
  | ended hended => exact .ended (hnext.trans hended)
  | yields hyields rest => exact .yields (hnext.trans hyields) rest

/-- What a seeded walk goes through in a repository and in a larger one, and how it ends. -/
structure GoesThrough (repo larger : Repository) (walk : HistoryWalk) (commits : List ObjectId)
    (pass : Pass) : Prop where
  small : walk.Runs commits { walk with pass := pass.spent }
  large : ({ walk with repo := larger } : HistoryWalk).Runs commits
    { walk with repo := larger, pass := pass.spent }
  history : repo.IsHistory walk.pass.firstParent walk.starts walk.hidden commits
  historyLarger : larger.IsHistory walk.pass.firstParent walk.starts walk.hidden commits
  read : ∀ id ∈ pass.search.read, repo.isCommit id = true

theorem Seeded.exists_goesThrough (seeded : walk.Seeded repo) (complete : repo.Complete)
    (grows : repo.Grows larger) : ∃ commits pass, walk.GoesThrough repo larger commits pass := by
  obtain ⟨fixed, hstarted⟩ := seeded.ready.exists_started (fun _ _ => complete.parents) seeded.starts
    seeded.hidden
  obtain ⟨grown, hgrown, hupcoming, hsame, hread⟩ :=
    seeded.ready.started_grows grows seeded.hidden hstarted
  obtain ⟨gathered, history⟩ := seeded.ready.started_gives seeded.hidden hstarted
  obtain ⟨gatheredLarger, historyLarger⟩ := (seeded.ready.grow grows).started_gives
    (fun id hid => grows.isCommit (seeded.hidden id hid)) hgrown
  have hspent : grown.spent = fixed.spent := by
    unfold Pass.spent Search.reset
    rw [hsame]
  have hlarge : ({ walk with repo := larger } : HistoryWalk).Runs grown.upcoming
      { walk with repo := larger, pass := grown.spent } :=
    runs_of_started seeded.pushed hgrown gatheredLarger
  rw [hupcoming] at historyLarger
  rw [hupcoming, hspent] at hlarge
  exact ⟨fixed.upcoming, fixed, runs_of_started seeded.pushed (seeded.store.symm ▸ hstarted) gathered,
    hlarge, history, historyLarger, hread⟩

end HistoryWalk

end GuardedRevision
