import GuardedRevision.Proofs.GatherRuns

/-!
# Hidden ancestors

How far the marks of a search have spread. A hidden commit that has been queued has marked its parents by
the time it is expanded, so what it reaches is either marked or reached over a marked commit that is still
queued. The queue holds the newest first. A search that follows all parents therefore gathers nothing that
is hidden, or marks it in the end, as long as times agree with ancestry on the way from what is hidden to
what is gathered.
-/

namespace GuardedRevision

namespace Repository

def NewestFirst (repo : Repository) (queue : List ObjectId) : Prop :=
  queue.Pairwise fun earlier later => repo.commitTime later ≤ repo.commitTime earlier

variable {repo : Repository} {id : ObjectId} {queue : List ObjectId}

theorem NewestFirst.le_first (newest : repo.NewestFirst queue) :
    ∀ first ∈ queue.head?, ∀ id ∈ queue, repo.commitTime id ≤ repo.commitTime first := by
  rintro first hfirst id hid
  obtain ⟨rest, rfl⟩ := List.head?_eq_some_iff.mp hfirst
  rcases List.mem_cons.mp hid with rfl | hrest
  · exact Int.le_refl _
  · exact (List.pairwise_cons.mp newest).1 id hrest

theorem NewestFirst.insertByTime (newest : repo.NewestFirst queue) (id : ObjectId) :
    repo.NewestFirst (repo.insertByTime id queue) := by
  induction queue with
  | nil => exact List.pairwise_singleton _ _
  | cons first rest ih =>
      obtain ⟨hfirst, hrest⟩ := List.pairwise_cons.mp newest
      rw [Repository.insertByTime]
      split
      · next hless =>
          refine List.pairwise_cons.mpr ⟨fun other hother => ?_, newest⟩
          rcases List.mem_cons.mp hother with rfl | hlater
          · omega
          · have hthere := hfirst other hlater
            omega
      · next hless =>
          refine List.pairwise_cons.mpr ⟨fun other hother => ?_, ih hrest⟩
          rcases List.mem_cons.mp ((repo.insertByTime_perm id rest).mem_iff.mp hother) with rfl | hlater
          · omega
          · exact hfirst other hlater

end Repository

open Search Searching

variable {repo : Repository} {before expanded after : Search} {id root old new target : ObjectId}
  {ids parents done found : List ObjectId} {latest : Int} {left : Nat}

/-! ### Marks -/

namespace Search

theorem mem_unmarked_iff :
    (id ∈ repo.commitIds.filter fun other => !before.isUnwanted other) ↔
      repo.isCommit id = true ∧ id ∉ before.unwanted := by
  rw [List.mem_filter, Repository.mem_commitIds, Bool.not_eq_true', Bool.eq_false_iff, Ne, isUnwanted_iff]

theorem mem_hideAncestors_of_parent (hcommit : repo.isCommit id = true) (link : id ∈ repo.parentsOf root) :
    id ∈ (before.hideAncestors repo root).unwanted := by
  by_cases hmark : id ∈ before.unwanted
  · exact subset_hideAncestors hmark
  · exact List.mem_append_left _
      ((mem_closure_iff id).mpr (.seed (mem_unmarked_iff.mpr ⟨hcommit, hmark⟩) link))

/-- A mark that is new goes on to the parents, once the commit has been read. -/
theorem mem_hideAncestors_of_marked {parent : ObjectId} (hcommit : repo.isCommit parent = true)
    (link : parent ∈ repo.parentsOf id) (hread : id ∈ before.read) (hfree : id ∉ before.unwanted)
    (hmark : id ∈ (before.hideAncestors repo root).unwanted) :
    parent ∈ (before.hideAncestors repo root).unwanted := by
  by_cases hold : parent ∈ before.unwanted
  · exact subset_hideAncestors hold
  · have path := (mem_closure_iff id).mp ((List.mem_append.mp hmark).resolve_right hfree)
    have hedge : parent ∈ if before.read.contains id then repo.parentsOf id else [] := by
      simpa [hread] using link
    exact List.mem_append_left _
      ((mem_closure_iff parent).mpr (path.step (mem_unmarked_iff.mpr ⟨hcommit, hold⟩) hedge))

/-- The parents of what is marked among some commits are marked. -/
def Closes (repo : Repository) (ids : List ObjectId) (search : Search) : Prop :=
  ∀ id ∈ ids, id ∈ search.unwanted → ∀ parent ∈ repo.parentsOf id, parent ∈ search.unwanted

theorem closes_hideAncestors
    (hparents : ∀ id, ∀ parent ∈ repo.parentsOf id, repo.isCommit parent = true)
    (hread : ∀ id ∈ ids, id ∈ before.read)
    (hcloses : ∀ id ∈ ids, id ≠ root → id ∈ before.unwanted →
      ∀ parent ∈ repo.parentsOf id, parent ∈ before.unwanted) :
    (before.hideAncestors repo root).Closes repo ids := by
  intro id hid hmark parent link
  by_cases hroot : id = root
  · exact mem_hideAncestors_of_parent (hparents id parent link) (hroot ▸ link)
  · by_cases hold : id ∈ before.unwanted
    · exact subset_hideAncestors (hcloses id hid hroot hold parent link)
    · exact mem_hideAncestors_of_marked (hparents id parent link) link (hread id hid) hold hmark

/-- What holds while parents are being queued: what has been seen has been read, marks are closed among
some commits, and the queue holds the newest first. -/
structure Steady (repo : Repository) (ids : List ObjectId) (search : Search) : Prop where
  read : ∀ id ∈ search.seen, id ∈ search.read
  known : ∀ id ∈ ids, id ∈ search.read
  closes : search.Closes repo ids
  newest : repo.NewestFirst search.queue

end Search

namespace Searching

theorem learn_reads (hlearn : Gives (learn repo id) before () after) :
    ∃ read, after = { before with read := read } ∧ before.read ⊆ read ∧ id ∈ read := by
  rcases learn_gives_iff.mp hlearn with ⟨hknown, rfl⟩ | ⟨_, _, rfl⟩
  · exact ⟨after.read, rfl, List.Subset.refl _, hknown⟩
  · exact ⟨_, rfl, List.subset_cons_self _ _, List.mem_cons_self⟩

end Searching

namespace Search.Steady

theorem more {read : List ObjectId} (steady : before.Steady repo ids) (hmore : before.read ⊆ read) :
    ({ before with read := read } : Search).Steady repo ids :=
  ⟨fun id h => hmore (steady.read id h), fun id h => hmore (steady.known id h), steady.closes,
    steady.newest⟩

theorem enqueue (steady : before.Steady repo ids) (hread : id ∈ before.read) :
    (before.enqueue repo id).Steady repo ids where
  read := by
    intro other hother
    rcases List.mem_cons.mp hother with rfl | hseen
    · exact hread
    · exact steady.read other hseen
  known := steady.known
  closes := steady.closes
  newest := steady.newest.insertByTime id

theorem queueUnwanted (hparents : ∀ id, ∀ parent ∈ repo.parentsOf id, repo.isCommit parent = true)
    (steady : before.Steady repo ids) (hqueue : Gives (queueUnwanted repo parents) before () after) :
    after.Steady repo ids := by
  induction parents generalizing before with
  | nil =>
      obtain ⟨_, rfl⟩ := gives_pure.mp hqueue
      exact steady
  | cons parent rest ih =>
      simp only [Searching.queueUnwanted, gives_modify_bind] at hqueue
      obtain ⟨_, _, hlearn, hrest⟩ := gives_bind.mp hqueue
      rw [gives_modify_bind] at hrest
      obtain ⟨read, rfl, hmore, hread⟩ := learn_reads hlearn
      refine ih (Steady.enqueue ?_ hread) hrest
      have hsteady := steady.more hmore
      have hcloses : (({ before.hide parent with read := read } : Search).hideAncestors repo parent).Closes
          repo ids :=
        closes_hideAncestors hparents hsteady.known fun id hid hne hmark other link =>
          List.mem_cons_of_mem _ (steady.closes id hid ((List.mem_cons.mp hmark).resolve_left hne) other link)
      exact ⟨hsteady.read, hsteady.known, hcloses, hsteady.newest⟩

theorem queueWanted (steady : before.Steady repo ids)
    (hqueue : Gives (queueWanted repo parents) before () after) : after.Steady repo ids := by
  induction parents generalizing before with
  | nil =>
      obtain ⟨_, rfl⟩ := gives_pure.mp hqueue
      exact steady
  | cons parent rest ih =>
      simp only [Searching.queueWanted] at hqueue
      obtain ⟨_, _, hlearn, hrest⟩ := gives_bind.mp hqueue
      rw [gives_get_bind] at hrest
      obtain ⟨read, rfl, hmore, hread⟩ := learn_reads hlearn
      split at hrest
      · exact ih (steady.more hmore) hrest
      · rw [gives_modify_bind] at hrest
        exact ih ((steady.more hmore).enqueue hread) hrest

end Search.Steady

/-! ### Steps -/

/-- What holds between two steps of a search that follows all parents: each commit that has been seen is
queued or its parents have been seen, and marked when it is. The queue holds the newest first, but may
begin with a hidden commit of any time. -/
structure Search.Spreads (repo : Repository) (search : Search) : Prop where
  read : ∀ id ∈ search.seen, id ∈ search.read
  queued : ∀ id ∈ search.queue, id ∈ search.seen
  settled : ∀ id ∈ search.seen, id ∈ search.queue ∨ id ∈ search.expanded
  opened : ∀ id ∈ search.expanded, id ∈ search.seen ∧ ∀ parent ∈ repo.parentsOf id, parent ∈ search.seen
  closes : search.Closes repo search.expanded
  newest : repo.NewestFirst search.queue.tail
  first : ∀ id ∈ search.queue.head?, id ∈ search.unwanted ∨
    ∀ other ∈ search.queue, repo.commitTime other ≤ repo.commitTime id

namespace Search.Spreads

theorem hideAncestors (hparents : ∀ id, ∀ parent ∈ repo.parentsOf id, repo.isCommit parent = true)
    (spreads : before.Spreads repo) : (before.hideAncestors repo root).Spreads repo :=
  { spreads with
    closes := closes_hideAncestors hparents
      (fun id hid => spreads.read id (spreads.opened id hid).1) fun id hid _ => spreads.closes id hid
    first := fun id hid => (spreads.first id hid).imp_left fun h => subset_hideAncestors h }

variable {picked : Search} {added : List ObjectId}

/-- The first of the queue has been taken out of it, and its parents have been queued. -/
theorem pick (spreads : before.Spreads repo) (picks : before.Picks picked id)
    (advances : picked.Advances repo after added) (steady : after.Steady repo before.expanded)
    (hseen : ∀ parent ∈ repo.parentsOf id, parent ∈ after.seen)
    (hmarks : id ∈ after.unwanted → ∀ parent ∈ repo.parentsOf id, parent ∈ after.unwanted) :
    after.Spreads repo := by
  have hmore : ∀ other ∈ before.seen, other ∈ after.seen := fun other hother =>
    advances.seen.mpr (.inr (picks.seen ▸ hother))
  have hid : id ∈ before.seen := spreads.queued id (picks.queue ▸ List.mem_cons_self)
  have hexpanded : ∀ other ∈ after.expanded, other = id ∨ other ∈ before.expanded := fun other hother =>
    picks.expanded.mp (advances.expanded ▸ hother)
  refine ⟨steady.read, ?_, ?_, ?_, ?_, steady.newest.tail, fun other hother => ?_⟩
  · intro other hother
    rcases (mem_queue_of_advances advances).mp hother with hadded | hrest
    · exact advances.seen.mpr (.inl hadded)
    · exact hmore other (spreads.queued other (picks.queue ▸ List.mem_cons_of_mem _ hrest))
  · intro other hother
    rw [mem_queue_of_advances advances, advances.expanded, picks.expanded]
    rcases advances.seen.mp hother with hadded | hold
    · exact .inl (.inl hadded)
    · rcases spreads.settled other (picks.seen ▸ hold) with hqueued | hopened
      · exact (List.mem_cons.mp (picks.queue ▸ hqueued)).elim (fun h => .inr (.inl h)) fun h => .inl (.inr h)
      · exact .inr (.inr hopened)
  · intro other hother
    rcases hexpanded other hother with rfl | hold
    · exact ⟨hmore other hid, hseen⟩
    · obtain ⟨hknown, hparents⟩ := spreads.opened other hold
      exact ⟨hmore other hknown, fun parent link => hmore parent (hparents parent link)⟩
  · intro other hother hmark
    rcases hexpanded other hother with rfl | hold
    · exact hmarks hmark
    · exact steady.closes other hold hmark
  · exact .inr (steady.newest.le_first other hother)

/-- One step. What is queued by it is marked, or a parent of what is wanted. -/
theorem opens (hparents : ∀ id, ∀ parent ∈ repo.parentsOf id, repo.isCommit parent = true)
    (hread : ∀ id ∈ before.read, repo.isCommit id = true) (spreads : before.Spreads repo)
    (opens : before.Opens repo false id expanded) :
    expanded.Spreads repo ∧ repo.NewestFirst expanded.queue ∧ before.seen ⊆ expanded.seen ∧
      before.unwanted ⊆ expanded.unwanted ∧ ∀ other ∈ expanded.queue,
        other ∈ before.queue ∨ other ∈ expanded.unwanted ∨
          id ∉ expanded.unwanted ∧ other ∈ repo.parentsOf id := by
  obtain ⟨queue, hqueue, hexpand⟩ := opens
  have hnewest : repo.NewestFirst queue := by
    have htail := spreads.newest
    rwa [hqueue] at htail
  have hknown : ∀ other ∈ before.expanded, other ∈ before.read := fun other hother =>
    spreads.read other (spreads.opened other hother).1
  have hsteady : ∀ opened, ({ before with queue := queue, expanded := opened } : Search).Steady repo
      before.expanded := fun _ => ⟨spreads.read, hknown, spreads.closes, hnewest⟩
  have hrest : ∀ other ∈ queue, other ∈ before.queue := fun other hother =>
    hqueue ▸ List.mem_cons_of_mem _ hother
  rcases expand_gives_iff.mp hexpand with ⟨hold, rfl⟩ | ⟨_, hmark, hrun⟩ | ⟨_, hmark, hrun⟩
  · have picks : before.Picks { before with queue := queue } id :=
      ⟨hqueue, rfl, rfl, rfl, by
        intro other
        exact ⟨.inr, by rintro (rfl | h); exacts [hold, h]⟩⟩
    exact ⟨spreads.pick picks (.refl _) (hsteady before.expanded)
      (spreads.opened id hold).2 (spreads.closes id hold), hnewest, List.Subset.refl _,
      List.Subset.refl _, fun other hother => .inl (hrest other hother)⟩
  · have picks : before.Picks { before with queue := queue, expanded := id :: before.expanded } id :=
      ⟨hqueue, rfl, rfl, rfl, List.mem_cons⟩
    obtain ⟨advances, hsubset, hmarks, _⟩ := queueUnwanted_gives (picks.read ▸ hread) hrun
    have steady : expanded.Steady repo before.expanded :=
      Steady.queueUnwanted hparents (hsteady _) hrun
    refine ⟨spreads.pick picks advances steady (fun parent link => ?_) fun _ => hmarks, steady.newest,
      fun other hother => advances.seen.mpr (.inr hother), hsubset, fun other hother => ?_⟩
    · exact advances.seen.mpr (.inl (List.mem_reverse.mpr link))
    · rcases (mem_queue_of_advances advances).mp hother with hadded | hqueued
      · exact .inr (.inl (hmarks other (List.mem_reverse.mp hadded)))
      · exact .inl (hrest other hqueued)
  · have picks : before.Picks { before with queue := queue, expanded := id :: before.expanded } id :=
      ⟨hqueue, rfl, rfl, rfl, List.mem_cons⟩
    obtain ⟨added, advances, hsame, _, hfresh, hseen, _⟩ := queueWanted_gives (picks.read ▸ hread) hrun
    have steady : expanded.Steady repo before.expanded :=
      (hsteady _).queueWanted hrun
    have hwanted : id ∉ expanded.unwanted := hsame ▸ hmark
    refine ⟨spreads.pick picks advances steady hseen fun h => absurd h hwanted, steady.newest,
      fun other hother => advances.seen.mpr (.inr hother), hsame ▸ List.Subset.refl _,
      fun other hother => ?_⟩
    rcases (mem_queue_of_advances advances).mp hother with hadded | hqueued
    · exact .inr (.inr ⟨hwanted, (hfresh other hadded).1⟩)
    · exact .inl (hrest other hqueued)

/-- What a marked commit reaches is marked, or reached over a marked commit that is still queued. -/
theorem exists_between (spreads : before.Spreads repo) (hseen : id ∈ before.seen)
    (hmark : id ∈ before.unwanted) (reaches : repo.Reaches id target) (hfree : target ∉ before.unwanted) :
    ∃ between ∈ before.queue, between ∈ before.unwanted ∧ repo.Reaches id between ∧
      repo.Reaches between target := by
  induction reaches with
  | refl _ => exact absurd hmark hfree
  | @parent id parent target link rest ih =>
      rcases spreads.settled id hseen with hqueued | hexpanded
      · exact ⟨id, hqueued, hmark, .refl (Repository.isCommit_of_mem_parentsOf link), .parent link rest⟩
      · obtain ⟨between, hbetween, hhidden, hleft, hright⟩ :=
          ih ((spreads.opened id hexpanded).2 parent link) (spreads.closes id hexpanded hmark parent link)
            hfree
        exact ⟨between, hbetween, hhidden, .parent link hleft, hright⟩

end Search.Spreads

/-! ### Times -/

namespace Repository

/-- The commit lies on a way from the old side to what the new side reaches, too. -/
structure Between (repo : Repository) (old new between common : ObjectId) : Prop where
  above : repo.Reaches old between
  below : repo.Reaches between common
  shared : repo.Reaches new common

/-- How times may run so that a search tells apart what the old side reaches. Either what lies between
the old side and a common ancestor is newer than that, or it is not older, and no parent on the new side
is newer than its child. -/
inductive HidesInTime (repo : Repository) (old new : ObjectId) : Prop where
  | strictly (newer : ∀ between common, repo.Between old new between common → between ≠ common →
      repo.commitTime common < repo.commitTime between)
  | weakly (notOlder : ∀ between common, repo.Between old new between common →
        repo.commitTime common ≤ repo.commitTime between)
      (parents : ∀ id, repo.Reaches new id → ∀ parent ∈ repo.parentsOf id,
        repo.commitTime parent ≤ repo.commitTime id)

theorem commitTime_le_of_reaches (hparents : ∀ id, ∀ parent ∈ repo.parentsOf id,
      repo.commitTime parent ≤ repo.commitTime id)
    (reaches : repo.Reaches id target) : repo.commitTime target ≤ repo.commitTime id := by
  induction reaches with
  | refl _ => exact Int.le_refl _
  | parent link _ ih => exact Int.le_trans ih (hparents _ _ link)

theorem hidesInTime_of_commitIds (htimes : ∀ id ∈ repo.commitIds, ∀ parent ∈ repo.parentsOf id,
      repo.commitTime parent ≤ repo.commitTime id) (old new : ObjectId) : repo.HidesInTime old new := by
  have hparents : ∀ id, ∀ parent ∈ repo.parentsOf id, repo.commitTime parent ≤ repo.commitTime id :=
    fun id parent link => htimes id (mem_commitIds.mpr (isCommit_of_mem_parentsOf link)) parent link
  exact .weakly (fun _ _ lies => commitTime_le_of_reaches hparents lies.below) fun id _ => hparents id

end Repository

/-! ### Runs -/

theorem Search.Sound.reaches_of_mem (sound : before.Sound repo false [new] [old] done) (hid : id ∈ done) :
    repo.Reaches new id := by
  obtain ⟨start, hstart, follows⟩ := (sound.gathered id hid).2
  obtain rfl := List.mem_singleton.mp hstart
  exact follows.reaches

theorem lt_latest_of_patienceLeft (himpatient : patienceLeft repo before latest left = 0)
    (newest : repo.NewestFirst before.queue) : ∀ id ∈ before.queue, repo.commitTime id < latest := by
  intro id hid
  cases hqueue : before.queue with
  | nil => simp [hqueue] at hid
  | cons first rest =>
      have hfirst : ¬ latest ≤ repo.commitTime first := by
        intro hle
        rw [patienceLeft, hqueue] at himpatient
        simp [hle, patience] at himpatient
      have hthere := newest.le_first first (by simp [hqueue]) id hid
      omega

theorem Search.Spreads.le_of_opens (spreads : before.Spreads repo)
    (opens : before.Opens repo false id expanded) (hwanted : id ∉ before.unwanted) :
    id ∈ before.queue ∧ ∀ other ∈ before.queue, repo.commitTime other ≤ repo.commitTime id := by
  obtain ⟨queue, hqueue, _⟩ := opens
  exact ⟨hqueue ▸ List.mem_cons_self, (spreads.first id (by simp [hqueue])).resolve_left hwanted⟩

section Hiding

variable (hparents : ∀ id, ∀ parent ∈ repo.parentsOf id, repo.isCommit parent = true)
include hparents

/-- What is gathered although the old side reaches it would be older than a commit in between that is
queued behind it. -/
theorem Gathers.hides_strictly
    (newer : ∀ between common, repo.Between old new between common → between ≠ common →
      repo.commitTime common < repo.commitTime between)
    (gathers : Gathers repo false latest left before found after)
    (sound : before.Sound repo false [new] [old] done) (spreads : before.Spreads repo)
    (hseen : old ∈ before.seen) (hmark : old ∈ before.unwanted) :
    ∀ id ∈ found, ¬ repo.Reaches old id := by
  induction gathers generalizing done with
  | drained _ => simp
  | ended _ _ _ => simp
  | passed opens unwanted _ _ ih =>
      obtain ⟨hspreads, _, hmore, hmarks, _⟩ := spreads.opens hparents sound.read opens
      exact ih ((sound.opens opens).2.1 unwanted) (hspreads.hideAncestors hparents) (hmore hseen)
        (subset_hideAncestors (hmarks hmark))
  | @gathered latest left before expanded after id found opens wanted _ ih =>
      obtain ⟨hspreads, _, hmore, hmarks, _⟩ := spreads.opens hparents sound.read opens
      have hsound := (sound.opens opens).1 wanted
      refine List.forall_mem_cons.mpr ⟨fun reaches => ?_, ih hsound hspreads (hmore hseen) (hmarks hmark)⟩
      have hfree : id ∉ before.unwanted := fun h => wanted (hmarks h)
      obtain ⟨between, hbetween, hhidden, habove, hbelow⟩ :=
        spreads.exists_between hseen hmark reaches hfree
      have hshared := hsound.reaches_of_mem (List.mem_append_right _ List.mem_cons_self)
      have hless := newer between id ⟨habove, hbelow, hshared⟩ fun heq => hfree (heq ▸ hhidden)
      have hle := (spreads.le_of_opens opens hfree).2 between hbetween
      omega

/-- Commits are gathered the newest first: the last is not newer than any, and neither is what is wanted
and still queued. -/
structure Search.Trails (repo : Repository) (latest : Int) (done : List ObjectId) (search : Search) :
    Prop where
  latest : ∀ id ∈ done, latest ≤ repo.commitTime id
  queued : ∀ id ∈ done, ∀ other ∈ search.queue,
    other ∈ search.unwanted ∨ repo.commitTime other ≤ repo.commitTime id

namespace Search.Trails

theorem pass (trails : before.Trails repo latest done) (sound : before.Sound repo false [new] [old] done)
    (spreads : before.Spreads repo) (opens : before.Opens repo false id expanded)
    (unwanted : id ∈ expanded.unwanted) :
    (expanded.hideAncestors repo id).Trails repo latest done where
  latest := trails.latest
  queued := by
    obtain ⟨_, _, _, hmarks, hfrom⟩ := spreads.opens hparents sound.read opens
    intro other hother later hlater
    rcases hfrom later hlater with hold | hhidden | ⟨hwanted, _⟩
    · exact (trails.queued other hother later hold).imp_left fun h => subset_hideAncestors (hmarks h)
    · exact .inl (subset_hideAncestors hhidden)
    · exact absurd unwanted hwanted

theorem gather (trails : before.Trails repo latest done)
    (sound : before.Sound repo false [new] [old] done) (spreads : before.Spreads repo)
    (opens : before.Opens repo false id expanded) (wanted : id ∉ expanded.unwanted)
    (hnewer : ∀ parent ∈ repo.parentsOf id, repo.commitTime parent ≤ repo.commitTime id) :
    expanded.Trails repo (repo.commitTime id) (done ++ [id]) := by
  obtain ⟨_, _, _, hmarks, hfrom⟩ := spreads.opens hparents sound.read opens
  have hfree : id ∉ before.unwanted := fun h => wanted (hmarks h)
  obtain ⟨hqueued, hfirst⟩ := spreads.le_of_opens opens hfree
  have hlatest : ∀ other ∈ done ++ [id], repo.commitTime id ≤ repo.commitTime other := by
    intro other hother
    rcases List.mem_append.mp hother with hdone | hnew
    · exact (trails.queued other hdone id hqueued).resolve_left hfree
    · exact List.mem_singleton.mp hnew ▸ Int.le_refl _
  refine ⟨hlatest, fun other hother later hlater => ?_⟩
  rcases hfrom later hlater with hold | hhidden | ⟨_, link⟩
  · exact .inr (Int.le_trans (hfirst later hold) (hlatest other hother))
  · exact .inl hhidden
  · exact .inr (Int.le_trans (hnewer later link) (hlatest other hother))

end Search.Trails

/-- What was gathered is not older than what is queued in the end. So a commit in between, which is not
older than what it leads to, is no longer queued, and the marks have come to all that it reaches. -/
theorem Gathers.hides_weakly
    (notOlder : ∀ between common, repo.Between old new between common →
      repo.commitTime common ≤ repo.commitTime between)
    (hnewer : ∀ id, repo.Reaches new id → ∀ parent ∈ repo.parentsOf id,
      repo.commitTime parent ≤ repo.commitTime id)
    (gathers : Gathers repo false latest left before found after)
    (sound : before.Sound repo false [new] [old] done) (spreads : before.Spreads repo)
    (trails : before.Trails repo latest done) (hseen : old ∈ before.seen)
    (hmark : old ∈ before.unwanted) :
    ∀ id ∈ done ++ found, repo.Reaches old id → id ∈ after.unwanted := by
  induction gathers generalizing done with
  | drained hempty =>
      intro id _ reaches
      by_contra hfree
      obtain ⟨between, hbetween, _⟩ := spreads.exists_between hseen hmark reaches hfree
      simp [hempty] at hbetween
  | @ended latest left before expanded first opens unwanted himpatient =>
      obtain ⟨hspreads, hnewest, hmore, hmarks, _⟩ := spreads.opens hparents sound.read opens
      intro id hid reaches
      rw [List.append_nil] at hid
      by_contra hfree
      obtain ⟨between, hbetween, _, habove, hbelow⟩ :=
        (hspreads.hideAncestors hparents).exists_between (hmore hseen) (subset_hideAncestors (hmarks hmark))
          reaches hfree
      have hless := lt_latest_of_patienceLeft himpatient hnewest between hbetween
      have hle := notOlder between id ⟨habove, hbelow, sound.reaches_of_mem hid⟩
      have hlatest := trails.latest id hid
      omega
  | passed opens unwanted _ _ ih =>
      obtain ⟨hspreads, _, hmore, hmarks, _⟩ := spreads.opens hparents sound.read opens
      exact ih ((sound.opens opens).2.1 unwanted) (hspreads.hideAncestors hparents)
        (trails.pass hparents sound spreads opens unwanted) (hmore hseen)
        (subset_hideAncestors (hmarks hmark))
  | @gathered latest left before expanded after id found opens wanted _ ih =>
      obtain ⟨hspreads, _, hmore, hmarks, _⟩ := spreads.opens hparents sound.read opens
      have hsound := (sound.opens opens).1 wanted
      have hreached : repo.Reaches new id :=
        hsound.reaches_of_mem (List.mem_append_right _ List.mem_cons_self)
      rw [List.append_cons]
      exact ih hsound hspreads (trails.gather hparents sound spreads opens wanted (hnewer id hreached))
        (hmore hseen) (hmarks hmark)

theorem Gathers.hides (inTime : repo.HidesInTime old new)
    (gathers : Gathers repo false latest left before found after)
    (sound : before.Sound repo false [new] [old] []) (spreads : before.Spreads repo)
    (hseen : old ∈ before.seen) (hmark : old ∈ before.unwanted) :
    ∀ id ∈ found, repo.Reaches old id → id ∈ after.unwanted := by
  cases inTime with
  | strictly newer =>
      intro id hid reaches
      exact absurd reaches (gathers.hides_strictly hparents newer sound spreads hseen hmark id hid)
  | weakly notOlder hnewer =>
      have trails : before.Trails repo latest [] := ⟨by simp, by simp⟩
      exact gathers.hides_weakly hparents notOlder hnewer sound spreads trails hseen hmark

end Hiding

end GuardedRevision
