import GuardedRevision.Proofs.OrderedHistory
import GuardedRevision.Proofs.Seeding

/-!
# Passes

A pass that gathers yields what it has gathered, in its order, without what turned out to be
unwanted. `upcoming` is what it will still yield, and each step takes the first of it.
-/

namespace GuardedRevision

open Search Searching

namespace Pass

variable {repo : Repository} {pass : Pass} {starts hidden : List ObjectId} {before : Search}
  {id : ObjectId} {steps : Nat}

/-- What a pass yields from here on. -/
def upcoming (pass : Pass) : List ObjectId :=
  pass.search.queue.filter fun id => !pass.search.isUnwanted id

/-- The queue of the pass is what it has gathered. -/
structure Gathered (pass : Pass) : Prop where
  begun : pass.begun = true
  gathers : pass.gathers = true

theorem yieldWithin_cons {queue : List ObjectId} (hgathers : pass.gathers = true)
    (hqueue : before.queue = id :: queue) {value : Option ObjectId} {after : Search} :
    Gives (pass.yieldWithin repo (steps + 1)) before value after ↔
      if before.isUnwanted id then
        Gives (pass.yieldWithin repo steps) { before with queue := queue } value after
      else value = some id ∧ after = { before with queue := queue } := by
  have hsame : ({ before with queue := queue } : Search).isUnwanted id = before.isUnwanted id := rfl
  rw [yieldWithin, (dequeue_gives_some hqueue).bind_iff]
  simp only [if_pos hgathers, gives_get_bind, hsame]
  split
  · exact Iff.rfl
  · exact gives_pure

theorem yieldWithin_gives (hgathers : pass.gathers = true) (henough : before.queue.length < steps) :
    ∃ queue, Gives (pass.yieldWithin repo steps) before
        (before.queue.filter fun id => !before.isUnwanted id).head? { before with queue := queue } ∧
      (queue.filter fun id => !before.isUnwanted id) =
        (before.queue.filter fun id => !before.isUnwanted id).tail := by
  induction steps generalizing before with
  | zero => exact absurd henough (Nat.not_lt_zero _)
  | succ steps ih =>
      cases hqueue : before.queue with
      | nil =>
          refine ⟨[], ?_, rfl⟩
          rw [yieldWithin, (dequeue_gives_none hqueue).bind_iff, gives_pure, ← hqueue]
          exact ⟨by simp [hqueue], rfl⟩
      | cons id queue =>
          rw [hqueue, List.length_cons] at henough
          by_cases hmark : before.isUnwanted id = true
          · obtain ⟨later, hrun, hrest⟩ :=
              @ih { before with queue := queue } (by simpa using Nat.lt_of_succ_lt_succ henough)
            have hfilter : ((id :: queue).filter fun id => !before.isUnwanted id) =
                queue.filter fun id => !before.isUnwanted id := by
              rw [List.filter_cons_of_neg (by simp [hmark])]
            refine ⟨later, ?_, ?_⟩
            · rw [yieldWithin_cons hgathers hqueue, if_pos hmark, hfilter]
              exact hrun
            · rw [hfilter]
              exact hrest
          · refine ⟨queue, ?_, ?_⟩
            · rw [yieldWithin_cons hgathers hqueue, if_neg hmark,
                List.filter_cons_of_pos (by simp [hmark])]
              exact ⟨rfl, rfl⟩
            · rw [List.filter_cons_of_pos (by simp [hmark])]
              rfl

theorem started_of_begun (begun : pass.begun = true) : pass.started repo = (.ok (), pass) := by
  rw [started, if_pos begun]

theorem length_lt_stepBound : before.queue.length < stepBound repo before := by
  unfold stepBound
  omega

theorem Gathered.yield_gives (gathered : pass.Gathered) :
    ∃ queue, Gives (pass.yield repo) pass.search pass.upcoming.head?
        { pass.search with queue := queue } ∧
      (queue.filter fun id => !pass.search.isUnwanted id) = pass.upcoming.tail := by
  obtain ⟨queue, hrun, hrest⟩ :=
    pass.yieldWithin_gives gathered.gathers (length_lt_stepBound : _ < stepBound repo pass.search)
  exact ⟨queue, gives_get_bind.mpr hrun, hrest⟩

theorem next_none_of_begun {after : Search} (begun : pass.begun = true)
    (hrun : Gives (pass.yield repo) pass.search none after) :
    pass.next repo = (.ok none, spent { pass with search := after }) := by
  unfold Gives at hrun
  rw [next, if_neg (by simp [begun]), started_of_begun begun]
  simp only [hrun]

theorem next_some_of_begun {after : Search} (begun : pass.begun = true)
    (hrun : Gives (pass.yield repo) pass.search (some id) after) :
    pass.next repo = (.ok (some id), { pass with search := after }) := by
  unfold Gives at hrun
  rw [next, if_neg (by simp [begun]), started_of_begun begun]
  simp only [hrun]

theorem Gathered.next_nil (gathered : pass.Gathered) (hnone : pass.upcoming = []) :
    pass.next repo = (.ok none, pass.spent) := by
  obtain ⟨queue, hrun, _⟩ := gathered.yield_gives
  rw [hnone] at hrun
  exact (next_none_of_begun gathered.begun hrun).trans rfl

theorem Gathered.next_cons {later : List ObjectId} (gathered : pass.Gathered) (repo : Repository)
    (hsome : pass.upcoming = id :: later) :
    ∃ after : Pass, pass.next repo = (.ok (some id), after) ∧ after.Gathered ∧
      after.upcoming = later ∧ after.spent = pass.spent := by
  obtain ⟨queue, hrun, hrest⟩ := gathered.yield_gives
  rw [hsome] at hrun hrest
  exact ⟨_, next_some_of_begun gathered.begun hrun, ⟨gathered.begun, gathered.gathers⟩, hrest, rfl⟩

/-! ### Passes that have not begun -/

/-- A pass that has not begun, to which some commits were pushed and others hidden. -/
structure Ready (repo : Repository) (starts hidden : List ObjectId) (pass : Pass) : Prop where
  begun : pass.begun = false
  gathers : pass.gathers = true
  ordered : pass.ordered = true
  read : ∀ id ∈ pass.search.read, repo.isCommit id = true
  unwanted : ∀ id, id ∈ pass.search.unwanted ↔ id ∈ hidden
  seen : pass.search.seen = []
  expanded : pass.search.expanded = []
  seeds : ∀ id, id ∈ pass.seeds ↔ id ∈ starts ∨ id ∈ hidden

theorem ready_fresh {read : List ObjectId} (hread : ∀ id ∈ read, repo.isCommit id = true) :
    (Pass.fresh read).Ready repo [] [] :=
  ⟨rfl, rfl, rfl, hread, fun _ => Iff.rfl, rfl, rfl, by simp [Pass.fresh]⟩

theorem Ready.push (ready : pass.Ready repo starts hidden) :
    (pass.push id).Ready repo (starts ++ [id]) hidden := by
  unfold Pass.push
  by_cases hmark : id ∈ hidden
  · rw [if_pos (isUnwanted_iff.mpr ((ready.unwanted id).mpr hmark))]
    refine { ready with seeds := fun other => ?_ }
    rw [ready.seeds, List.mem_append, List.mem_singleton]
    constructor
    · exact fun h => h.imp_left .inl
    · rintro ((hstart | rfl) | hhidden)
      · exact .inl hstart
      · exact .inr hmark
      · exact .inr hhidden
  · rw [if_neg fun h => hmark ((ready.unwanted id).mp (isUnwanted_iff.mp h))]
    refine { ready with seeds := fun other => ?_ }
    rw [List.mem_cons, ready.seeds, List.mem_append, List.mem_singleton, or_left_comm, or_assoc]

theorem Ready.hide (ready : pass.Ready repo starts hidden) :
    (pass.hide id).Ready repo starts (hidden ++ [id]) := by
  have hmem : ∀ other, other ∈ hidden ++ [id] ↔ other = id ∨ other ∈ hidden := by
    intro other
    rw [List.mem_append, List.mem_singleton, or_comm]
  unfold Pass.hide
  by_cases hmark : id ∈ hidden
  · rw [if_pos (isUnwanted_iff.mpr ((ready.unwanted id).mpr hmark))]
    have hsame : ∀ other, other ∈ hidden ++ [id] ↔ other ∈ hidden := by
      intro other
      rw [hmem]
      exact ⟨by rintro (rfl | h); exacts [hmark, h], .inr⟩
    exact { ready with
      unwanted := fun other => (ready.unwanted other).trans (hsame other).symm
      seeds := fun other => (ready.seeds other).trans (or_congr_right (hsame other).symm) }
  · rw [if_neg fun h => hmark ((ready.unwanted id).mp (isUnwanted_iff.mp h))]
    refine { ready with gathers := rfl, unwanted := fun other => ?_, seeds := fun other => ?_ }
    · change other ∈ id :: pass.search.unwanted ↔ _
      rw [hmem, List.mem_cons, ready.unwanted]
    · change other ∈ id :: pass.seeds ↔ _
      rw [hmem, List.mem_cons, ready.seeds]
      exact or_left_comm

theorem Ready.foldl_push (ready : pass.Ready repo starts hidden) (more : List ObjectId) :
    (more.foldl Pass.push pass).Ready repo (starts ++ more) hidden := by
  induction more generalizing pass starts with
  | nil => rwa [List.append_nil]
  | cons id more ih =>
      rw [List.append_cons]
      exact ih ready.push

theorem Ready.foldl_hide (ready : pass.Ready repo starts hidden) (more : List ObjectId) :
    (more.foldl Pass.hide pass).Ready repo starts (hidden ++ more) := by
  induction more generalizing pass hidden with
  | nil => rwa [List.append_nil]
  | cons id more ih =>
      rw [List.append_cons]
      exact ih ready.hide

/-! ### The first step -/

variable {after : Search}

/-- Before anything is queued, only the hidden commits are known. -/
theorem Ready.sound (ready : pass.Ready repo starts hidden)
    (hcommits : ∀ id ∈ hidden, repo.isCommit id = true) :
    ({ pass.search with queue := [] } : Search).Sound repo pass.firstParent starts hidden [] where
  read := ready.read
  marked := by
    intro id hid
    have hmem : id ∈ hidden := (ready.unwanted id).mp hid
    exact ⟨id, hmem, .refl (hcommits id hmem)⟩
  queued := by simp
  seen := by simp [ready.seen]
  expanded := by simp [ready.expanded]
  gathered := by simp
  known := by simp
  once := by simp
  nodup := List.nodup_nil

theorem Ready.seedAll_sound (ready : pass.Ready repo starts hidden)
    (hcommits : ∀ id ∈ hidden, repo.isCommit id = true)
    (hseed : Gives (seedAll repo pass.seeds) { pass.search with queue := [] } () after) :
    after.Sound repo pass.firstParent starts hidden [] ∧ starts ⊆ after.seen := by
  have hwhy : ∀ id ∈ pass.seeds, id ∈ pass.search.unwanted ∨ id ∈ starts := by
    intro id hid
    rw [ready.unwanted, or_comm]
    exact (ready.seeds id).mp hid
  obtain ⟨hsound, hseen, _⟩ := GuardedRevision.seedAll_sound (ready.sound hcommits) hwhy hseed
  exact ⟨hsound, fun id hid => hseen id ((ready.seeds id).mpr (.inl hid))⟩

theorem Ready.prepare_gives_iff (ready : pass.Ready repo starts hidden)
    (hcommits : ∀ id ∈ hidden, repo.isCommit id = true) :
    Gives (pass.prepare repo) pass.search () after ↔
      ∃ seeded found last,
        Gives (seedAll repo pass.seeds) { pass.search with queue := [] } () seeded ∧
        Gathers repo pass.firstParent latestTime patience seeded found last ∧
        after = { last with queue := repo.order found } := by
  rw [prepare, gives_modify_bind, gives_bind]
  simp only [if_pos ready.gathers, if_pos ready.ordered]
  constructor
  · rintro ⟨_, seeded, hseed, hrest⟩
    obtain ⟨found, last, hgather, hmodify⟩ := gives_bind.mp hrest
    obtain ⟨hsound, _⟩ := ready.seedAll_sound hcommits hseed
    exact ⟨seeded, found, last, hseed, (gather_gives_iff hsound).mp hgather, gives_modify.mp hmodify⟩
  · rintro ⟨seeded, found, last, hseed, hgather, hafter⟩
    obtain ⟨hsound, _⟩ := ready.seedAll_sound hcommits hseed
    exact ⟨(), seeded, hseed, gives_bind.mpr
      ⟨found, last, (gather_gives_iff hsound).mpr hgather, gives_modify.mpr hafter⟩⟩

theorem started_eq_ok_iff {fixed : Pass} (begun : pass.begun = false) :
    pass.started repo = (.ok (), fixed) ↔
      ∃ after, Gives (pass.prepare repo) pass.search () after ∧
        fixed = { pass with search := after, begun := true } := by
  rw [started, if_neg (by simp [begun])]
  unfold Gives
  obtain ⟨result, last⟩ := (pass.prepare repo).run.run pass.search
  constructor
  · intro hstarted
    cases result with
    | error fault => cases hstarted
    | ok found =>
        cases hstarted
        exact ⟨last, rfl, rfl⟩
  · rintro ⟨after, hrun, rfl⟩
    cases hrun
    rfl

theorem next_of_started {fixed : Pass} (pushed : pass.pushed = true)
    (hstarted : pass.started repo = (.ok (), fixed)) (begun : fixed.begun = true) :
    pass.next repo = fixed.next repo := by
  rw [next, if_neg (by simp [pushed]), next, if_neg (by simp [begun]), hstarted,
    started_of_begun begun]

end Pass

/-- What the history of some starts holds, without some hidden commits: commits of the history, each
once, and all that no hidden commit reaches. -/
structure Repository.IsHistory (repo : Repository) (firstParent : Bool)
    (starts hidden commits : List ObjectId) : Prop where
  nodup : commits.Nodup
  followed : ∀ id ∈ commits, repo.FollowedBy firstParent starts id
  covers : (∀ id, ¬ repo.LeadsTo id id) → ∀ id, repo.FollowedBy firstParent starts id →
    ¬ repo.ReachedBy hidden id → id ∈ commits

namespace Pass

variable {repo : Repository} {pass fixed : Pass} {starts hidden : List ObjectId}

theorem Ready.started_gives (ready : pass.Ready repo starts hidden)
    (hcommits : ∀ id ∈ hidden, repo.isCommit id = true)
    (hstarted : pass.started repo = (.ok (), fixed)) :
    fixed.Gathered ∧ repo.IsHistory pass.firstParent starts hidden fixed.upcoming := by
  obtain ⟨after, hprepare, rfl⟩ := (started_eq_ok_iff ready.begun).mp hstarted
  obtain ⟨seeded, found, last, hseed, hgather, rfl⟩ := (ready.prepare_gives_iff hcommits).mp hprepare
  obtain ⟨hseeded, hstarts⟩ := ready.seedAll_sound hcommits hseed
  obtain ⟨hsound, hover, hseen⟩ := hgather.sound hseeded
  rw [List.nil_append] at hsound
  refine ⟨⟨rfl, ready.gathers⟩, ?_, ?_, ?_⟩
  · exact (Repository.nodup_order hsound.nodup).filter _
  · intro id hid
    have hfound : id ∈ found := Repository.mem_of_mem_order (List.mem_of_mem_filter hid)
    exact (hsound.gathered id hfound).2
  · intro acyclic id hfollowed hfree
    obtain ⟨start, hstart, follows⟩ := hfollowed
    have hfound : id ∈ found := hsound.covers hover (hseen (hstarts hstart)) follows hfree
    have hwanted : id ∉ last.unwanted := fun hmark => hfree (hsound.marked id hmark)
    refine List.mem_filter.mpr ⟨(Repository.mem_order acyclic).mpr hfound, ?_⟩
    rw [Bool.not_eq_true', Bool.eq_false_iff]
    exact fun h => hwanted (isUnwanted_iff.mp h)

theorem Ready.exists_started (ready : pass.Ready repo starts hidden)
    (hparents : ∀ id, ∀ parent ∈ repo.parentsOf id, repo.isCommit parent = true)
    (hstarts : ∀ id ∈ starts, repo.isCommit id = true)
    (hcommits : ∀ id ∈ hidden, repo.isCommit id = true) :
    ∃ fixed, pass.started repo = (.ok (), fixed) := by
  have hseeds : ∀ id ∈ pass.seeds, repo.isCommit id = true := fun id hid =>
    ((ready.seeds id).mp hid).elim (hstarts id) (hcommits id)
  obtain ⟨seeded, hseed⟩ := exists_seedAll_gives hseeds
  obtain ⟨hseeded, _⟩ := ready.seedAll_sound hcommits hseed
  obtain ⟨found, last, hgather⟩ := exists_gathers hparents hseeded
  exact ⟨_, (started_eq_ok_iff ready.begun).mpr ⟨_, (ready.prepare_gives_iff hcommits).mpr
    ⟨seeded, found, last, hseed, hgather, rfl⟩, rfl⟩⟩

end Pass

namespace HistoryWalk

variable {walk : HistoryWalk} {fixed : Pass}

theorem take_of_gathered (gathered : walk.pass.Gathered) (count : Nat) :
    (walk.take count).1 = .ok (walk.pass.upcoming.take count) := by
  induction count generalizing walk with
  | zero => rw [take, List.take_zero]
  | succ count ih =>
      cases hupcoming : walk.pass.upcoming with
      | nil => simp only [take, next, gathered.next_nil hupcoming, List.take_nil]
      | cons id later =>
          obtain ⟨after, hnext, hafter, hlater, _⟩ := gathered.next_cons walk.repo hupcoming
          have hrest := @ih { walk with pass := after } hafter
          rw [hlater] at hrest
          simp only [take, next, hnext, hrest, Except.map, List.take_succ_cons]

theorem toList_of_started (pushed : walk.pass.pushed = true)
    (hstarted : walk.pass.started walk.repo = (.ok (), fixed)) (gathered : fixed.Gathered)
    (hlength : fixed.upcoming.length ≤ walk.repo.commitIds.length) :
    walk.toList = .ok fixed.upcoming := by
  have hnext : walk.next = ({ walk with pass := fixed } : HistoryWalk).next := by
    simp only [next, Pass.next_of_started pushed hstarted gathered.begun]
  have htake : ({ walk with pass := fixed } : HistoryWalk).take walk.stepsToEnd =
      walk.take walk.stepsToEnd := by
    simp only [stepsToEnd, take, hnext]
  rw [toList, ← htake, take_of_gathered gathered, List.take_of_length_le]
  exact Nat.le_succ_of_le hlength

theorem toList_of_fault {fault : Fault} (pushed : walk.pass.pushed = true)
    (hstarted : walk.pass.started walk.repo = (.error fault, fixed)) :
    walk.toList = .error fault := by
  have hnext : walk.next = (.error fault, { walk with pass := fixed }) := by
    rw [next, Pass.next, if_neg (by simp [pushed]), hstarted]
  simp only [toList, stepsToEnd, take, hnext]

end HistoryWalk

end GuardedRevision
