import GuardedRevision.Proofs.Reachability

/-!
# Growth

A search that ends without a fault goes the same way in a larger store. The two searches may mark
different ids, but only ids that are no commits of the smaller store, and those are never queued.
-/

namespace GuardedRevision

open Search Searching

/-- The same search in a store and in a larger one. -/
structure Search.Tracks (repo : Repository) (small large : Search) : Prop where
  read : large.read = small.read
  seen : large.seen = small.seen
  expanded : large.expanded = small.expanded
  queue : large.queue = small.queue
  unwanted : ∀ id, repo.isCommit id = true → (id ∈ large.unwanted ↔ id ∈ small.unwanted)
  readCommits : ∀ id ∈ small.read, repo.isCommit id = true
  queueCommits : ∀ id ∈ small.queue, repo.isCommit id = true

variable {repo larger : Repository} {firstParent : Bool} {small large before after expanded : Search}
  {id target : ObjectId} {ids starts hidden commits found : List ObjectId}

namespace Repository

theorem Grows.isCommit_eq (grows : repo.Grows larger) (holds : repo.Holds id) :
    larger.isCommit id = repo.isCommit id := by
  obtain ⟨kind, hkind⟩ := holds.kind
  rw [Bool.eq_iff_iff, ← kind_eq_commit_iff, ← kind_eq_commit_iff, hkind, grows.kind hkind]

theorem Grows.holds (grows : repo.Grows larger) (holds : repo.Holds id) : larger.Holds id := by
  obtain ⟨object, hobject⟩ := holds
  exact ⟨object, grows hobject⟩

theorem Grows.followed (grows : repo.Grows larger) (hcommit : repo.isCommit id = true) :
    larger.followed firstParent id = repo.followed firstParent id := by
  unfold Repository.followed
  rw [grows.parentsOf hcommit]

theorem Grows.insertByTime (grows : repo.Grows larger) (hcommit : repo.isCommit id = true)
    (hqueue : ∀ other ∈ ids, repo.isCommit other = true) :
    larger.insertByTime id ids = repo.insertByTime id ids := by
  induction ids with
  | nil => rfl
  | cons other rest ih =>
      obtain ⟨hother, hrest⟩ := List.forall_mem_cons.mp hqueue
      rw [Repository.insertByTime, Repository.insertByTime, grows.commitTime hcommit,
        grows.commitTime hother, ih hrest]

theorem Grows.newest? (grows : repo.Grows larger) (hcommits : ∀ id ∈ ids, repo.isCommit id = true) :
    larger.newest? ids = repo.newest? ids := by
  induction ids with
  | nil => rfl
  | cons id rest ih =>
      obtain ⟨hid, hrest⟩ := List.forall_mem_cons.mp hcommits
      rw [Repository.newest?, Repository.newest?, ih hrest]
      cases hnewest : repo.newest? rest with
      | none => rfl
      | some other =>
          have hother := hrest other (mem_of_newest? hnewest)
          simp only [grows.commitTime hid, grows.commitTime hother]

theorem Grows.isReady (grows : repo.Grows larger) (hcommits : ∀ id ∈ ids, repo.isCommit id = true)
    (id : ObjectId) : larger.isReady ids id = repo.isReady ids id := by
  rw [Bool.eq_iff_iff, isReady_iff, isReady_iff]
  refine forall₂_congr fun child hchild => ?_
  rw [grows.parentsOf (hcommits child hchild)]

theorem Grows.orderWithin (grows : repo.Grows larger) (steps : Nat)
    (hcommits : ∀ id ∈ ids, repo.isCommit id = true) :
    larger.orderWithin steps ids = repo.orderWithin steps ids := by
  induction steps generalizing ids with
  | zero => rfl
  | succ steps ih =>
      have hready : ids.filter (larger.isReady ids) = ids.filter (repo.isReady ids) :=
        List.filter_congr fun id _ => grows.isReady hcommits id
      have hnewest : larger.newest? (ids.filter (repo.isReady ids)) =
          repo.newest? (ids.filter (repo.isReady ids)) :=
        grows.newest? fun id hid => hcommits id (List.mem_of_mem_filter hid)
      rw [Repository.orderWithin, Repository.orderWithin, hready, hnewest]
      cases repo.newest? (ids.filter (repo.isReady ids)) with
      | none => rfl
      | some id =>
          exact congrArg (id :: ·) (ih fun other hother => hcommits other (List.mem_of_mem_erase hother))

theorem Grows.order (grows : repo.Grows larger) (hcommits : ∀ id ∈ ids, repo.isCommit id = true) :
    larger.order ids = repo.order ids := grows.orderWithin ids.length hcommits

end Repository

/-! ### Steps of the two searches -/

namespace Search

variable {other : ObjectId}

theorem Tracks.hide (tracks : small.Tracks repo large) : (small.hide id).Tracks repo (large.hide id) :=
  { tracks with
    unwanted := by
      intro other hother
      change other ∈ id :: large.unwanted ↔ other ∈ id :: small.unwanted
      rw [List.mem_cons, List.mem_cons, tracks.unwanted other hother] }

theorem Tracks.enqueue (tracks : small.Tracks repo large) (grows : repo.Grows larger)
    (hid : repo.isCommit id = true) :
    (small.enqueue repo id).Tracks repo (large.enqueue larger id) :=
  { tracks with
    seen := congrArg (id :: ·) tracks.seen
    queue := by
      change larger.insertByTime id large.queue = repo.insertByTime id small.queue
      rw [tracks.queue, grows.insertByTime hid tracks.queueCommits]
    queueCommits := by
      intro other hother
      rcases List.mem_cons.mp ((repo.insertByTime_perm id small.queue).mem_iff.mp hother) with rfl | hold
      · exact hid
      · exact tracks.queueCommits other hold }

theorem Tracks.isUnwanted_eq (tracks : small.Tracks repo large) (hother : repo.isCommit other = true) :
    large.isUnwanted other = small.isUnwanted other := by
  rw [Bool.eq_iff_iff, isUnwanted_iff, isUnwanted_iff, tracks.unwanted other hother]

theorem Tracks.mem_unmarked (tracks : small.Tracks repo large) (grows : repo.Grows larger)
    (hother : repo.isCommit other = true) :
    other ∈ (larger.commitIds.filter fun other => !large.isUnwanted other) ↔
      other ∈ (repo.commitIds.filter fun other => !small.isUnwanted other) := by
  rw [List.mem_filter, List.mem_filter, Repository.mem_commitIds, Repository.mem_commitIds,
    tracks.isUnwanted_eq hother, iff_true_intro hother, iff_true_intro (grows.isCommit hother)]

/-- Marks go over what has been read, which is the same for both, so none is set on a commit of the
smaller store by way of an id that is none. -/
theorem Tracks.hideAncestors (tracks : small.Tracks repo large) (grows : repo.Grows larger)
    (hid : repo.isCommit id = true) :
    (small.hideAncestors repo id).Tracks repo (large.hideAncestors larger id) := by
  refine { tracks with unwanted := fun other hother => ?_ }
  have hedge : ∀ {middle next : ObjectId}, next ∈ (if large.read.contains middle = true then
      larger.parentsOf middle else []) ↔ next ∈ (if small.read.contains middle = true then
      repo.parentsOf middle else []) := by
    intro middle next
    rw [tracks.read]
    by_cases hread : middle ∈ small.read
    · simp only [List.contains_eq_mem, hread, decide_true, if_true,
        grows.parentsOf (tracks.readCommits middle hread)]
    · simp only [List.contains_eq_mem, hread, decide_false, Bool.false_eq_true, if_false]
  have hclosure : PathWithin (fun other => if large.read.contains other then larger.parentsOf other else [])
        (larger.commitIds.filter fun other => !large.isUnwanted other) (larger.parentsOf id) other ↔
      PathWithin (fun other => if small.read.contains other then repo.parentsOf other else [])
        (repo.commitIds.filter fun other => !small.isUnwanted other) (repo.parentsOf id) other := by
    rw [grows.parentsOf hid]
    constructor
    · intro path
      induction path with
      | seed inside seeded => exact .seed ((tracks.mem_unmarked grows hother).mp inside) seeded
      | @step middle next path inside edge ih =>
          have hread : middle ∈ small.read := by
            by_contra hunread
            rw [hedge] at edge
            simp [hunread] at edge
          exact .step (ih (tracks.readCommits middle hread))
            ((tracks.mem_unmarked grows hother).mp inside) (hedge.mp edge)
    · intro path
      induction path with
      | seed inside seeded => exact .seed ((tracks.mem_unmarked grows hother).mpr inside) seeded
      | step path inside edge ih =>
          have hmiddle := Repository.mem_commitIds.mp (List.mem_of_mem_filter path.mem_domain)
          exact .step (ih hmiddle) ((tracks.mem_unmarked grows hother).mpr inside) (hedge.mpr edge)
  simp only [Search.hideAncestors, List.mem_append, mem_closure_iff]
  exact or_congr hclosure (tracks.unwanted other hother)

end Search

namespace Searching

theorem learn_grows (tracks : small.Tracks repo large) (grows : repo.Grows larger)
    (hlearn : Gives (learn repo id) small () after) :
    ∃ ended, Gives (learn larger id) large () ended ∧ after.Tracks repo ended ∧
      repo.isCommit id = true := by
  rcases learn_gives_iff.mp hlearn with ⟨hknown, rfl⟩ | ⟨hnew, hcommit, rfl⟩
  · exact ⟨large, learn_gives_iff.mpr (.inl ⟨tracks.read ▸ hknown, rfl⟩), tracks,
      tracks.readCommits id hknown⟩
  · refine ⟨{ large with read := id :: large.read },
      learn_gives_iff.mpr (.inr ⟨tracks.read ▸ hnew, grows.isCommit hcommit, rfl⟩), ?_, hcommit⟩
    exact { tracks with
      read := congrArg (id :: ·) tracks.read
      readCommits := List.forall_mem_cons.mpr ⟨hcommit, tracks.readCommits⟩ }

theorem queueUnwanted_grows (tracks : small.Tracks repo large) (grows : repo.Grows larger)
    (hrun : Gives (queueUnwanted repo ids) small () after) :
    ∃ ended, Gives (queueUnwanted larger ids) large () ended ∧ after.Tracks repo ended := by
  induction ids generalizing small large with
  | nil =>
      obtain ⟨_, rfl⟩ := gives_pure.mp hrun
      exact ⟨large, gives_pure.mpr ⟨rfl, rfl⟩, tracks⟩
  | cons parent rest ih =>
      simp only [queueUnwanted, gives_modify_bind] at hrun ⊢
      obtain ⟨_, learned, hlearn, hrest⟩ := gives_bind.mp hrun
      rw [gives_modify_bind] at hrest
      obtain ⟨learned', hlearn', hlearned, hcommit⟩ := learn_grows tracks.hide grows hlearn
      obtain ⟨ended, hended, hafter⟩ :=
        ih ((hlearned.hideAncestors grows hcommit).enqueue grows hcommit) hrest
      exact ⟨ended, gives_bind.mpr ⟨(), learned', hlearn', gives_modify_bind.mpr hended⟩, hafter⟩

theorem queueWanted_grows (tracks : small.Tracks repo large) (grows : repo.Grows larger)
    (hrun : Gives (queueWanted repo ids) small () after) :
    ∃ ended, Gives (queueWanted larger ids) large () ended ∧ after.Tracks repo ended := by
  induction ids generalizing small large with
  | nil =>
      obtain ⟨_, rfl⟩ := gives_pure.mp hrun
      exact ⟨large, gives_pure.mpr ⟨rfl, rfl⟩, tracks⟩
  | cons parent rest ih =>
      simp only [queueWanted] at hrun ⊢
      obtain ⟨_, learned, hlearn, hrest⟩ := gives_bind.mp hrun
      rw [gives_get_bind] at hrest
      obtain ⟨learned', hlearn', hlearned, hcommit⟩ := learn_grows tracks grows hlearn
      split at hrest
      · next hold =>
          obtain ⟨ended, hended, hafter⟩ := ih hlearned hrest
          refine ⟨ended, gives_bind.mpr ⟨(), learned', hlearn', ?_⟩, hafter⟩
          rw [gives_get_bind, hlearned.seen, if_pos hold]
          exact hended
      · next hnew =>
          rw [gives_modify_bind] at hrest
          obtain ⟨ended, hended, hafter⟩ := ih (hlearned.enqueue grows hcommit) hrest
          refine ⟨ended, gives_bind.mpr ⟨(), learned', hlearn', ?_⟩, hafter⟩
          rw [gives_get_bind, hlearned.seen, if_neg hnew, gives_modify_bind]
          exact hended

theorem expand_grows (tracks : small.Tracks repo large) (grows : repo.Grows larger)
    (hid : repo.isCommit id = true) (hrun : Gives (expand repo firstParent id) small () after) :
    ∃ ended, Gives (expand larger firstParent id) large () ended ∧ after.Tracks repo ended := by
  have hexpanded : Tracks repo { small with expanded := id :: small.expanded }
      { large with expanded := id :: large.expanded } :=
    { tracks with expanded := congrArg (id :: ·) tracks.expanded }
  simp only [expand_gives_iff, tracks.expanded, tracks.unwanted id hid, grows.parentsOf hid,
    grows.followed hid] at hrun ⊢
  rcases hrun with ⟨hold, rfl⟩ | ⟨hnew, hmark, hqueue⟩ | ⟨hnew, hmark, hqueue⟩
  · exact ⟨large, .inl ⟨hold, rfl⟩, tracks⟩
  · obtain ⟨ended, hended, hafter⟩ := queueUnwanted_grows hexpanded grows hqueue
    rw [tracks.expanded] at hended
    exact ⟨ended, .inr (.inl ⟨hnew, hmark, hended⟩), hafter⟩
  · obtain ⟨ended, hended, hafter⟩ := queueWanted_grows hexpanded grows hqueue
    rw [tracks.expanded] at hended
    exact ⟨ended, .inr (.inr ⟨hnew, hmark, hended⟩), hafter⟩

theorem plant_grows (tracks : small.Tracks repo large) (grows : repo.Grows larger)
    (hid : repo.isCommit id = true) : (small.plant repo id).Tracks repo (large.plant larger id) := by
  have hadd : ∀ {small large : Search}, small.Tracks repo large →
      Tracks repo
        (if id ∈ small.seen then small
          else { small with seen := id :: small.seen, queue := small.queue ++ [id] })
        (if id ∈ large.seen then large
          else { large with seen := id :: large.seen, queue := large.queue ++ [id] }) := by
    intro small large tracks
    rw [tracks.seen]
    by_cases hold : id ∈ small.seen
    · rw [if_pos hold, if_pos hold]
      exact tracks
    · rw [if_neg hold, if_neg hold]
      exact { tracks with
        seen := rfl
        queue := congrArg (· ++ [id]) tracks.queue
        queueCommits := by
          intro other hother
          rcases List.mem_append.mp hother with hqueued | hnew
          · exact tracks.queueCommits other hqueued
          · exact List.mem_singleton.mp hnew ▸ hid }
  unfold Search.plant
  simp only [tracks.unwanted id hid]
  by_cases hmark : id ∈ small.unwanted
  · simp only [if_pos hmark]
    exact hadd (tracks.hideAncestors grows hid)
  · simp only [if_neg hmark]
    exact hadd tracks

theorem seedAll_grows (tracks : small.Tracks repo large) (grows : repo.Grows larger)
    (hrun : Gives (seedAll repo ids) small () after) :
    ∃ ended, Gives (seedAll larger ids) large () ended ∧ after.Tracks repo ended := by
  induction ids generalizing small large with
  | nil =>
      obtain ⟨_, rfl⟩ := gives_pure.mp hrun
      exact ⟨large, gives_pure.mpr ⟨rfl, rfl⟩, tracks⟩
  | cons id rest ih =>
      obtain ⟨learned, hlearn, hrest⟩ := seedAll_cons_gives_iff.mp hrun
      obtain ⟨learned', hlearn', hlearned, hcommit⟩ := learn_grows tracks grows hlearn
      obtain ⟨ended, hended, hafter⟩ := ih (plant_grows hlearned grows hcommit) hrest
      exact ⟨ended, seedAll_cons_gives_iff.mpr ⟨learned', hlearn', hended⟩, hafter⟩

end Searching

/-! ### Runs of the two searches -/

theorem Search.Opens.grows (tracks : small.Tracks repo large) (grows : repo.Grows larger)
    (opens : small.Opens repo firstParent id expanded) :
    ∃ opened, large.Opens larger firstParent id opened ∧ expanded.Tracks repo opened ∧
      repo.isCommit id = true := by
  obtain ⟨queue, hqueue, hexpand⟩ := opens
  have hcommits : ∀ other ∈ id :: queue, repo.isCommit other = true := hqueue ▸ tracks.queueCommits
  obtain ⟨hid, hrest⟩ := List.forall_mem_cons.mp hcommits
  have hpicked : Tracks repo { small with queue := queue } { large with queue := queue } :=
    { tracks with queue := rfl, queueCommits := hrest }
  obtain ⟨opened, hopened, hafter⟩ := expand_grows hpicked grows hid hexpand
  exact ⟨opened, ⟨queue, tracks.queue.trans hqueue, hopened⟩, hafter, hid⟩

theorem patienceLeft_grows (tracks : small.Tracks repo large) (grows : repo.Grows larger)
    (latest : Int) (left : Nat) :
    patienceLeft larger large latest left = patienceLeft repo small latest left := by
  have hany : (small.queue.any fun id => !large.isUnwanted id || latest < larger.commitTime id) =
      small.queue.any fun id => !small.isUnwanted id || latest < repo.commitTime id := by
    rw [Bool.eq_iff_iff, List.any_eq_true, List.any_eq_true]
    refine exists_congr fun id => and_congr_right fun hid => ?_
    have hcommit := tracks.queueCommits id hid
    rw [tracks.isUnwanted_eq hcommit, grows.commitTime hcommit]
  unfold patienceLeft
  rw [tracks.queue, hany]
  cases hqueue : small.queue with
  | nil => rfl
  | cons first rest =>
      have hfirst : repo.isCommit first = true := tracks.queueCommits first (hqueue ▸ List.mem_cons_self)
      simp only [grows.commitTime hfirst]

theorem Gathers.grows {latest : Int} {left : Nat} (tracks : small.Tracks repo large)
    (grows : repo.Grows larger) (gathers : Gathers repo firstParent latest left small found after) :
    ∃ ended, Gathers larger firstParent latest left large found ended ∧ after.Tracks repo ended ∧
      ∀ id ∈ found, repo.isCommit id = true := by
  induction gathers generalizing large with
  | drained hempty =>
      exact ⟨large, .drained (tracks.queue.trans hempty), tracks, List.forall_mem_nil _⟩
  | ended opens hmark himpatient =>
      obtain ⟨opened, hopened, hexpanded, hid⟩ := opens.grows tracks grows
      have hpassed := hexpanded.hideAncestors grows hid
      refine ⟨_, .ended hopened ((hexpanded.unwanted _ hid).mpr hmark) ?_, hpassed,
        List.forall_mem_nil _⟩
      rw [patienceLeft_grows hpassed grows, himpatient]
  | passed opens hmark hpatient _ ih =>
      obtain ⟨opened, hopened, hexpanded, hid⟩ := opens.grows tracks grows
      have hpassed := hexpanded.hideAncestors grows hid
      obtain ⟨ended, hrest, hafter, hcommits⟩ := ih hpassed
      refine ⟨ended, .passed hopened ((hexpanded.unwanted _ hid).mpr hmark) ?_ hrest, hafter, hcommits⟩
      rw [patienceLeft_grows hpassed grows, hpatient]
  | gathered opens hmark _ ih =>
      obtain ⟨opened, hopened, hexpanded, hid⟩ := opens.grows tracks grows
      obtain ⟨ended, hrest, hafter, hcommits⟩ := ih hexpanded
      rw [← grows.commitTime hid] at hrest
      exact ⟨ended, .gathered hopened (fun h => hmark ((hexpanded.unwanted _ hid).mp h)) hrest, hafter,
        List.forall_mem_cons.mpr ⟨hid, hcommits⟩⟩

namespace Pass

variable {pass fixed : Pass}

theorem Ready.grow (ready : pass.Ready repo starts hidden) (grows : repo.Grows larger) :
    pass.Ready larger starts hidden :=
  { ready with read := fun id hid => grows.isCommit (ready.read id hid) }

theorem Ready.tracks (ready : pass.Ready repo starts hidden) :
    Tracks repo { pass.search with queue := [] } { pass.search with queue := [] } :=
  ⟨rfl, rfl, rfl, rfl, fun _ _ => Iff.rfl, ready.read, List.forall_mem_nil _⟩

/-- The first step of a pass comes to the same history in the larger store, and reads the same. -/
theorem Ready.started_grows (ready : pass.Ready repo starts hidden) (grows : repo.Grows larger)
    (hhidden : ∀ id ∈ hidden, repo.isCommit id = true)
    (hstarted : pass.started repo = (.ok (), fixed)) :
    ∃ grown, pass.started larger = (.ok (), grown) ∧ grown.upcoming = fixed.upcoming ∧
      grown.search.read = fixed.search.read ∧ ∀ id ∈ fixed.search.read, repo.isCommit id = true := by
  obtain ⟨after, hprepare, rfl⟩ := (started_eq_ok_iff ready.begun).mp hstarted
  obtain ⟨seeded, found, last, hseed, hgather, rfl⟩ := (ready.prepare_gives_iff hhidden).mp hprepare
  obtain ⟨seeded', hseed', hseeded⟩ := seedAll_grows ready.tracks grows hseed
  obtain ⟨last', hgather', hlast, hcommits⟩ := hgather.grows hseeded grows
  refine ⟨_, (started_eq_ok_iff ready.begun).mpr ⟨_, ((ready.grow grows).prepare_gives_iff
    fun id hid => grows.isCommit (hhidden id hid)).mpr ⟨seeded', found, last', hseed', hgather', rfl⟩,
    rfl⟩, ?_, hlast.read, hlast.readCommits⟩
  change (larger.order found).filter (fun id => !last'.isUnwanted id) =
    (repo.order found).filter fun id => !last.isUnwanted id
  rw [grows.order hcommits]
  refine List.filter_congr fun id hid => ?_
  rw [hlast.isUnwanted_eq (hcommits id (Repository.mem_of_mem_order hid))]

end Pass

namespace Repository

variable {starters searched : List ObjectId} {stages : List (List ObjectId)} {visible : Bool}

theorem Grows.toList_walkBeyond (grows : repo.Grows larger) (hstarts : starts ≠ [])
    (hhidden : ∀ id ∈ hidden, repo.isCommit id = true)
    (hlist : (repo.walkBeyond starts hidden).toList = .ok commits) :
    (larger.walkBeyond starts hidden).toList = .ok commits := by
  obtain ⟨fixed, hstarted⟩ := exists_started_of_toList hstarts hlist
  obtain ⟨grown, hgrown, hupcoming, _⟩ := walkBeyond_ready.started_grows grows hhidden hstarted
  have hsame : (larger.walkBeyond starts hidden).pass = (repo.walkBeyond starts hidden).pass := by
    rw [walkBeyond_pass, walkBeyond_pass]
  rw [← hsame] at hgrown
  have hlisted := (walkBeyond_lists hstarts (fun id hid => grows.isCommit (hhidden id hid)) hgrown).1
  rw [hlisted, hupcoming, ← (walkBeyond_lists hstarts hhidden hstarted).1, hlist]

theorem Grows.filter_isCommit (grows : repo.Grows larger) (holds : ∀ id ∈ ids, repo.Holds id) :
    ids.filter larger.isCommit = ids.filter repo.isCommit :=
  List.filter_congr fun id hid => grows.isCommit_eq (holds id hid)

theorem Grows.isReachableBeyond (grows : repo.Grows larger) (hcommit : repo.isCommit target = true)
    (hfound : repo.isReachableBeyond target starters searched = .ok visible) :
    larger.isReachableBeyond target starters searched = .ok visible := by
  by_cases hne : starters = []
  · subst hne
    exact hfound
  · by_cases hmem : target ∈ starters
    · rw [isReachableBeyond_of_mem hmem] at hfound ⊢
      exact hfound
    · rw [isReachableBeyond_eq_ok_iff hne hmem hcommit] at hfound
      rw [isReachableBeyond_eq_ok_iff hne hmem (grows.isCommit hcommit)]
      obtain ⟨hstarters, hwalk⟩ := hfound
      rw [grows.filter_isCommit hstarters]
      refine ⟨fun id hid => grows.holds (hstarters id hid), ?_⟩
      split at hwalk
      · next hnone => rwa [if_pos hnone]
      · next hsome =>
          rw [if_neg hsome]
          obtain ⟨hsearched, commits, hlist, heq⟩ := hwalk
          rw [grows.filter_isCommit hsearched]
          exact ⟨fun id hid => grows.holds (hsearched id hid), commits,
            grows.toList_walkBeyond hsome (fun _ => isCommit_of_mem_filter) hlist, heq⟩

theorem Grows.isReachableInStages (grows : repo.Grows larger) (hcommit : repo.isCommit target = true)
    (hfound : repo.isReachableInStages target stages searched = .ok visible) :
    larger.isReachableInStages target stages searched = .ok visible := by
  induction stages generalizing searched with
  | nil => exact hfound
  | cons stage later ih =>
      rw [Repository.isReachableInStages] at hfound ⊢
      split at hfound
      · next hempty =>
          rw [if_pos hempty]
          exact ih hfound
      · next hfull =>
          rw [if_neg hfull]
          split at hfound
          · cases hfound
          · next hstage =>
              rw [grows.isReachableBeyond hcommit hstage]
              exact hfound
          · next hstage =>
              rw [grows.isReachableBeyond hcommit hstage]
              exact ih hfound

end Repository

end GuardedRevision
