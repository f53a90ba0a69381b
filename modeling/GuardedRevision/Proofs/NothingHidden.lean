import GuardedRevision.Proofs.Passes

/-!
# Searches that hide nothing

What a search has read before decides only how far marks go. Where nothing is hidden no mark is set, and two
searches that begin at the same commits gather the same, whatever each of them has read.
-/

namespace GuardedRevision

open Search Searching

/-- Two searches that hide nothing and differ at most in the commits that they have read. -/
structure Search.Resembles (repo : Repository) (search other : Search) : Prop where
  seen : other.seen = search.seen
  expanded : other.expanded = search.expanded
  queue : other.queue = search.queue
  unwanted : search.unwanted = []
  unwantedOther : other.unwanted = []
  read : ∀ id ∈ search.read, repo.isCommit id = true
  readOther : ∀ id ∈ other.read, repo.isCommit id = true

variable {repo : Repository} {firstParent : Bool} {search other after expanded : Search} {id : ObjectId}
  {ids starts found : List ObjectId} {latest : Int} {left : Nat}

namespace Search.Resembles

variable (resembles : search.Resembles repo other)
include resembles

theorem learn (hlearn : Gives (learn repo id) search () after) :
    ∃ ended, Gives (Searching.learn repo id) other () ended ∧ after.Resembles repo ended := by
  obtain ⟨hcommit, read, rfl, hread⟩ : repo.isCommit id = true ∧
      ∃ read, after = { search with read := read } ∧ ∀ id ∈ read, repo.isCommit id = true := by
    rcases learn_gives_iff.mp hlearn with ⟨hknown, rfl⟩ | ⟨_, hcommit, rfl⟩
    · exact ⟨resembles.read id hknown, after.read, rfl, resembles.read⟩
    · exact ⟨hcommit, _, rfl, List.forall_mem_cons.mpr ⟨hcommit, resembles.read⟩⟩
  by_cases hknown : id ∈ other.read
  · exact ⟨other, learn_gives_iff.mpr (.inl ⟨hknown, rfl⟩), { resembles with read := hread }⟩
  · exact ⟨_, learn_gives_iff.mpr (.inr ⟨hknown, hcommit, rfl⟩), { resembles with
      read := hread
      readOther := List.forall_mem_cons.mpr ⟨hcommit, resembles.readOther⟩ }⟩

theorem enqueue : (search.enqueue repo id).Resembles repo (other.enqueue repo id) :=
  { resembles with
    seen := congrArg (id :: ·) resembles.seen
    queue := congrArg (repo.insertByTime id) resembles.queue }

theorem plant : (search.plant repo id).Resembles repo (other.plant repo id) := by
  have hnone : ∀ {marked : Search}, marked.unwanted = [] → id ∉ marked.unwanted := fun h =>
    h ▸ List.not_mem_nil
  simp only [Search.plant, if_neg (hnone resembles.unwanted), if_neg (hnone resembles.unwantedOther),
    resembles.seen]
  by_cases hold : id ∈ search.seen
  · rw [if_pos hold, if_pos hold]
    exact resembles
  · rw [if_neg hold, if_neg hold]
    exact { resembles with seen := rfl, queue := congrArg (· ++ [id]) resembles.queue }

omit resembles in
theorem queueWanted (resembles : search.Resembles repo other)
    (hrun : Gives (queueWanted repo ids) search () after) :
    ∃ ended, Gives (Searching.queueWanted repo ids) other () ended ∧ after.Resembles repo ended := by
  induction ids generalizing search other with
  | nil =>
      obtain ⟨_, rfl⟩ := gives_pure.mp hrun
      exact ⟨other, gives_pure.mpr ⟨rfl, rfl⟩, resembles⟩
  | cons parent rest ih =>
      simp only [Searching.queueWanted] at hrun ⊢
      obtain ⟨_, learned, hlearn, hrest⟩ := gives_bind.mp hrun
      rw [gives_get_bind] at hrest
      obtain ⟨learned', hlearn', hlearned⟩ := resembles.learn hlearn
      split at hrest
      · next hold =>
          obtain ⟨ended, hended, hafter⟩ := ih hlearned hrest
          refine ⟨ended, gives_bind.mpr ⟨(), learned', hlearn', ?_⟩, hafter⟩
          rw [gives_get_bind, hlearned.seen, if_pos hold]
          exact hended
      · next hnew =>
          rw [gives_modify_bind] at hrest
          obtain ⟨ended, hended, hafter⟩ := ih hlearned.enqueue hrest
          refine ⟨ended, gives_bind.mpr ⟨(), learned', hlearn', ?_⟩, hafter⟩
          rw [gives_get_bind, hlearned.seen, if_neg hnew, gives_modify_bind]
          exact hended

theorem expand (hrun : Gives (expand repo firstParent id) search () after) :
    ∃ ended, Gives (Searching.expand repo firstParent id) other () ended ∧ after.Resembles repo ended := by
  have hexpanded : Resembles repo { search with expanded := id :: search.expanded }
      { other with expanded := id :: other.expanded } :=
    { resembles with expanded := congrArg (id :: ·) resembles.expanded }
  simp only [expand_gives_iff, resembles.unwanted, resembles.unwantedOther, resembles.expanded,
    List.not_mem_nil, false_and, and_false, false_or, not_false_eq_true, true_and] at hrun ⊢
  rcases hrun with ⟨hold, rfl⟩ | ⟨hnew, hqueue⟩
  · exact ⟨other, .inl ⟨hold, rfl⟩, resembles⟩
  · rw [← resembles.unwanted] at hqueue
    obtain ⟨ended, hended, hafter⟩ := hexpanded.queueWanted hqueue
    rw [resembles.expanded, resembles.unwantedOther] at hended
    exact ⟨ended, .inr ⟨hnew, hended⟩, hafter⟩

theorem opens (opens : search.Opens repo firstParent id expanded) :
    ∃ opened, other.Opens repo firstParent id opened ∧ expanded.Resembles repo opened := by
  obtain ⟨queue, hqueue, hexpand⟩ := opens
  have hpicked : Resembles repo { search with queue := queue } { other with queue := queue } :=
    { resembles with queue := rfl }
  obtain ⟨opened, hopened, hafter⟩ := hpicked.expand hexpand
  exact ⟨opened, ⟨queue, resembles.queue.trans hqueue, hopened⟩, hafter⟩

omit resembles in
theorem seedAll (resembles : search.Resembles repo other)
    (hrun : Gives (seedAll repo ids) search () after) :
    ∃ ended, Gives (Searching.seedAll repo ids) other () ended ∧ after.Resembles repo ended := by
  induction ids generalizing search other with
  | nil =>
      obtain ⟨_, rfl⟩ := gives_pure.mp hrun
      exact ⟨other, gives_pure.mpr ⟨rfl, rfl⟩, resembles⟩
  | cons id rest ih =>
      obtain ⟨learned, hlearn, hrest⟩ := seedAll_cons_gives_iff.mp hrun
      obtain ⟨learned', hlearn', hlearned⟩ := resembles.learn hlearn
      obtain ⟨ended, hended, hafter⟩ := ih hlearned.plant hrest
      exact ⟨ended, seedAll_cons_gives_iff.mpr ⟨learned', hlearn', hended⟩, hafter⟩

end Search.Resembles

/-- Without marks a run takes out and gathers one commit after the other until none is queued. -/
theorem Gathers.resembles (gathers : Gathers repo firstParent latest left search found after)
    (resembles : search.Resembles repo other) :
    ∃ ended, Gathers repo firstParent latest left other found ended ∧ after.Resembles repo ended := by
  induction gathers generalizing other with
  | drained hempty => exact ⟨other, .drained (resembles.queue.trans hempty), resembles⟩
  | ended opens hmark _ | passed opens hmark _ _ _ =>
      obtain ⟨_, _, hexpanded⟩ := resembles.opens opens
      exact absurd (hexpanded.unwanted ▸ hmark) List.not_mem_nil
  | gathered opens _ _ ih =>
      obtain ⟨opened, hopened, hexpanded⟩ := resembles.opens opens
      obtain ⟨ended, hrest, hafter⟩ := ih hexpanded
      exact ⟨ended, .gathered hopened (hexpanded.unwantedOther ▸ List.not_mem_nil) hrest, hafter⟩

namespace Pass

variable {pass again fixed : Pass}

theorem Ready.unwanted_eq_nil (ready : pass.Ready repo starts []) : pass.search.unwanted = [] :=
  List.eq_nil_iff_forall_not_mem.mpr fun id hid => List.not_mem_nil ((ready.unwanted id).mp hid)

theorem Ready.resembles (ready : pass.Ready repo starts []) (readyAgain : again.Ready repo starts []) :
    Resembles repo { pass.search with queue := [] } { again.search with queue := [] } where
  seen := readyAgain.seen.trans ready.seen.symm
  expanded := readyAgain.expanded.trans ready.expanded.symm
  queue := rfl
  unwanted := ready.unwanted_eq_nil
  unwantedOther := readyAgain.unwanted_eq_nil
  read := ready.read
  readOther := readyAgain.read

/-- The first step of a pass that hides nothing fixes the same commits for the same seeds, in the same
order. -/
theorem Ready.upcoming_eq (ready : pass.Ready repo starts []) (readyAgain : again.Ready repo starts [])
    (hseeds : again.seeds = pass.seeds) (hfollows : again.firstParent = pass.firstParent)
    (hstarted : pass.started repo = (.ok (), fixed)) :
    ∃ fixedAgain, again.started repo = (.ok (), fixedAgain) ∧ fixedAgain.upcoming = fixed.upcoming := by
  have hnone : ∀ id ∈ ([] : List ObjectId), repo.isCommit id = true := List.forall_mem_nil _
  obtain ⟨_, hprepare, rfl⟩ := (started_eq_ok_iff ready.begun).mp hstarted
  obtain ⟨_, found, last, hseed, hgather, rfl⟩ := (ready.prepare_gives_iff hnone).mp hprepare
  obtain ⟨seeded, hseed, hseeded⟩ := (ready.resembles readyAgain).seedAll hseed
  obtain ⟨ended, hgather, hlast⟩ := hgather.resembles hseeded
  rw [← hseeds] at hseed
  rw [← hfollows] at hgather
  refine ⟨_, (started_eq_ok_iff readyAgain.begun).mpr ⟨_, (readyAgain.prepare_gives_iff hnone).mpr
    ⟨seeded, found, ended, hseed, hgather, rfl⟩, rfl⟩, ?_⟩
  simp only [upcoming, isUnwanted, hlast.unwanted, hlast.unwantedOther]

end Pass

end GuardedRevision
