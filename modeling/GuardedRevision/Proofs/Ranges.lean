import GuardedRevision.Proofs.Browsing
import GuardedRevision.Proofs.HiddenAncestors

/-!
# Ranges

A range lists all that its new side reaches and its old side does not, whatever the times are. It lists
nothing else where times agree with ancestry below the old side. Where they do not, the search may end
before it has come from the old side to a common ancestor, and the range lists that, too.
-/

namespace GuardedRevision

open Search Searching

variable {repo : Repository} {before after : Search} {pass fixed : Pass}
  {id old new : ObjectId}

/-! ### The search of a range -/

/-- A search in which commits have been queued and none has been expanded. -/
structure Search.Planted (search : Search) : Prop where
  expanded : search.expanded = []
  read : ∀ id ∈ search.seen, id ∈ search.read
  seen : ∀ id, id ∈ search.seen ↔ id ∈ search.queue

namespace Search.Planted

theorem mark (planted : before.Planted) (hsubset : before.read ⊆ after.read)
    (hseen : after.seen = before.seen) (hqueue : after.queue = before.queue)
    (hexpanded : after.expanded = before.expanded) : after.Planted where
  expanded := hexpanded.trans planted.expanded
  read := fun id hid => hsubset (planted.read id (hseen ▸ hid))
  seen := hseen ▸ hqueue ▸ planted.seen

theorem append (planted : before.Planted) (hread : id ∈ before.read) :
    ({ before with seen := id :: before.seen, queue := before.queue ++ [id] } : Search).Planted where
  expanded := planted.expanded
  read := List.forall_mem_cons.mpr ⟨hread, planted.read⟩
  seen := by
    intro other
    rw [List.mem_cons, planted.seen, List.mem_append, List.mem_singleton, or_comm]

theorem plant (planted : before.Planted) (hlearn : Gives (learn repo id) before () after) :
    (after.plant repo id).Planted ∧ before.unwanted ⊆ (after.plant repo id).unwanted ∧
      (after.plant repo id).queue = if id ∈ before.queue then before.queue else before.queue ++ [id] := by
  obtain ⟨read, rfl, hmore, hread⟩ := learn_reads hlearn
  obtain ⟨marked, hplant, hmarked, hsubset, hsame, hknown⟩ : ∃ marked : Search,
      ({ before with read := read } : Search).plant repo id = (if id ∈ marked.seen then marked
        else { marked with seen := id :: marked.seen, queue := marked.queue ++ [id] }) ∧
      marked.Planted ∧ before.unwanted ⊆ marked.unwanted ∧ marked.queue = before.queue ∧
      id ∈ marked.read := by
    by_cases hmark : id ∈ before.unwanted
    · exact ⟨({ before with read := read } : Search).hideAncestors repo id,
        by rw [Search.plant, if_pos hmark], planted.mark hmore rfl rfl rfl, List.subset_append_right _ _,
        rfl, hread⟩
    · exact ⟨{ before with read := read }, by rw [Search.plant, if_neg hmark],
        planted.mark hmore rfl rfl rfl, List.Subset.refl _, rfl, hread⟩
  rw [hplant]
  by_cases hold : id ∈ marked.seen
  · rw [if_pos hold, if_pos (hsame ▸ (hmarked.seen id).mp hold)]
    exact ⟨hmarked, hsubset, hsame⟩
  · rw [if_neg hold, if_neg (hsame ▸ fun h => hold ((hmarked.seen id).mpr h))]
    exact ⟨hmarked.append hknown, hsubset, congrArg (· ++ [id]) hsame⟩

theorem spreads (planted : before.Planted) (newest : repo.NewestFirst before.queue.tail)
    (first : ∀ id ∈ before.queue.head?, id ∈ before.unwanted) : before.Spreads repo where
  read := planted.read
  queued := fun id hid => (planted.seen id).mpr hid
  settled := fun id hid => .inl ((planted.seen id).mp hid)
  opened := by simp [planted.expanded]
  closes := by simp [Closes, planted.expanded]
  newest := newest
  first := fun id hid => .inl (first id hid)

/-- The old side is queued first and is hidden, so what comes after it is in order. -/
theorem seedAll_spreads (planted : before.Planted) (hempty : before.queue = [])
    (hmark : old ∈ before.unwanted) (hrun : Gives (seedAll repo [old, new]) before () after) :
    after.Spreads repo ∧ old ∈ after.seen ∧ old ∈ after.unwanted := by
  obtain ⟨learned, hlearn, hrest⟩ := seedAll_cons_gives_iff.mp hrun
  obtain ⟨hside, hsubset, hqueue⟩ := planted.plant hlearn
  obtain ⟨both, hlearn, hrest⟩ := seedAll_cons_gives_iff.mp hrest
  obtain ⟨hboth, hlater, hqueueBoth⟩ := hside.plant hlearn
  obtain ⟨_, rfl⟩ := gives_pure.mp hrest
  rw [hempty, if_neg (by simp), List.nil_append] at hqueue
  have hhidden := hlater (hsubset hmark)
  rw [hqueue] at hqueueBoth
  refine ⟨hboth.spreads ?_ ?_, (hboth.seen old).mpr ?_, hhidden⟩
  · rw [hqueueBoth]
    split <;> simp [Repository.NewestFirst]
  · rw [hqueueBoth]
    split <;> simpa using hhidden
  · rw [hqueueBoth]
    split <;> simp

end Search.Planted

namespace Pass

theorem Ready.not_reaches_of_upcoming (ready : pass.Ready repo [new] [old])
    (hseeds : pass.seeds = [old, new]) (hfollows : pass.firstParent = false)
    (hparents : ∀ id, ∀ parent ∈ repo.parentsOf id, repo.isCommit parent = true)
    (hold : repo.isCommit old = true) (inTime : repo.HidesInTime old new)
    (hstarted : pass.started repo = (.ok (), fixed)) :
    ∀ id ∈ fixed.upcoming, ¬ repo.Reaches old id := by
  have hhidden : ∀ id ∈ [old], repo.isCommit id = true := List.forall_mem_singleton.mpr hold
  have planted : ({ pass.search with queue := [] } : Search).Planted :=
    ⟨ready.expanded, by simp [ready.seen], by simp [ready.seen]⟩
  have hmark : old ∈ pass.search.unwanted := (ready.unwanted old).mpr List.mem_cons_self
  obtain ⟨after, hprepare, rfl⟩ := (started_eq_ok_iff ready.begun).mp hstarted
  obtain ⟨seeded, found, last, hseed, gathers, rfl⟩ := (ready.prepare_gives_iff hhidden).mp hprepare
  obtain ⟨sound, _⟩ := ready.seedAll_sound hhidden hseed
  rw [hseeds] at hseed
  rw [hfollows] at sound gathers
  obtain ⟨spreads, hseen, hmarked⟩ := planted.seedAll_spreads rfl hmark hseed
  intro id hid reaches
  obtain ⟨horder, hwanted⟩ := List.mem_filter.mp hid
  have hlast : id ∈ last.unwanted :=
    gathers.hides hparents inTime sound spreads hseen hmarked id (Repository.mem_of_mem_order horder) reaches
  simp [isUnwanted, hlast] at hwanted

end Pass

/-! ### Pages of a range -/

namespace Repository

theorem sown_range (hnew : repo.isCommit new = true) (hold : repo.isCommit old = true) :
    repo.sown [.push new, .hide old] = .ok (((HistoryWalk.new repo).pushCommit new).hideCommit old) := by
  have hpush : (HistoryWalk.new repo).push new = .ok ((HistoryWalk.new repo).pushCommit new) :=
    except_bind_eq_ok_iff.mpr ⟨(), (HistoryWalk.requireCommit_eq_ok_iff rfl).mpr hnew, rfl⟩
  have hhide : ((HistoryWalk.new repo).pushCommit new).hide old =
      .ok (((HistoryWalk.new repo).pushCommit new).hideCommit old) :=
    except_bind_eq_ok_iff.mpr ⟨(), (HistoryWalk.requireCommit_eq_ok_iff rfl).mpr hold, rfl⟩
  exact except_bind_eq_ok_iff.mpr ⟨_, hpush, except_bind_eq_ok_iff.mpr ⟨_, hhide, rfl⟩⟩

/-- The walk of a range goes through what the new side reaches and the old side does not, and where times
agree with ancestry through nothing else. -/
theorem exists_range_runs (complete : repo.Complete) (hnew : repo.isCommit new = true)
    (hold : repo.isCommit old = true) :
    ∃ walk commits last, repo.sown [.push new, .hide old] = .ok walk ∧
      walk.Sown repo [.push new, .hide old] ∧ walk.Runs commits last ∧ commits.Nodup ∧
      (∀ id ∈ commits, repo.Reaches new id) ∧
      (∀ id, repo.Reaches new id → ¬ repo.Reaches old id → id ∈ commits) ∧
      (repo.HidesInTime old new → ∀ id ∈ commits, ¬ repo.Reaches old id) := by
  have hcommits : ∀ id, Seed.push id ∈ [Seed.push new, .hide old] ∨
      Seed.hide id ∈ [Seed.push new, .hide old] → repo.isCommit id = true := by
    simp [hnew, hold]
  obtain ⟨walk, hwalk, sown⟩ := exists_sown hcommits
  obtain rfl : ((HistoryWalk.new repo).pushCommit new).hideCommit old = walk :=
    Except.ok.inj ((sown_range hnew hold).symm.trans hwalk)
  obtain ⟨fixed, last, hstarted, hruns, lists⟩ := sown.exists_started complete hcommits rfl
  have history : repo.IsHistory false [new] [old] fixed.upcoming := lists.history
  refine ⟨_, fixed.upcoming, last, hwalk, sown, hruns, history.nodup, fun id hid => ?_,
    fun id reaches hfree => ?_, fun inTime => ?_⟩
  · obtain ⟨start, hstart, follows⟩ := history.followed id hid
    exact List.mem_singleton.mp hstart ▸ follows.reaches
  · refine history.covers complete.acyclic id ⟨new, List.mem_cons_self, follows_false_iff.mpr reaches⟩ ?_
    rintro ⟨root, hroot, hreach⟩
    exact hfree (List.mem_singleton.mp hroot ▸ hreach)
  · exact sown.ready.not_reaches_of_upcoming rfl rfl (fun _ _ => complete.parents) hold inTime hstarted

end Repository

def Resolution.page (repo : Repository) (resolution : Resolution) (limit : Nat)
    (start : Option ObjectId) : Except Fault Page := do
  let walk ← resolution.walk repo
  (Pager.new walk limit start).page

namespace Repository

variable {resolution : Resolution} {oldSide : Revision} {limit : Nat}

theorem page_of_range (hrange : resolution.old = some oldSide) :
    resolution.page repo limit =
      repo.page [.push resolution.revision.peeledId, .hide oldSide.peeledId] limit := by
  have hwalk : resolution.walk repo =
      repo.sown [.push resolution.revision.peeledId, .hide oldSide.peeledId] := by
    simp only [Resolution.walk, hrange, sown, List.foldlM_cons, List.foldlM_nil, HistoryWalk.sow,
      bind_pure]
  funext start
  rw [Resolution.page, page, hwalk]

/-- Paged from the top, a range lists every commit that its new side reaches and its old side does not,
each once, and none that the new side does not reach. Where times agree with ancestry it lists nothing
else. -/
theorem Complete.range_lists (complete : repo.Complete) (hrange : resolution.old = some oldSide)
    (hnew : repo.isCommit resolution.revision.peeledId = true)
    (hold : repo.isCommit oldSide.peeledId = true) (limit : Nat) :
    ∃ pages, Onward (resolution.page repo limit) none pages ∧
      let listed := (pages.flatMap Page.items).map CommitRecord.id
      listed.Nodup ∧ (∀ id ∈ listed, repo.Reaches resolution.revision.peeledId id) ∧
        (∀ id, repo.Reaches resolution.revision.peeledId id → ¬ repo.Reaches oldSide.peeledId id →
          id ∈ listed) ∧
        (repo.HidesInTime oldSide.peeledId resolution.revision.peeledId →
          ∀ id, id ∈ listed ↔
            repo.Reaches resolution.revision.peeledId id ∧ ¬ repo.Reaches oldSide.peeledId id) := by
  obtain ⟨walk, commits, last, hwalk, sown, hruns, hnodup, hreached, hcovers, hhides⟩ :=
    exists_range_runs complete hnew hold
  obtain ⟨pages, honward, hrecords, _⟩ :=
    exists_onward_of_sown sown hwalk hruns (fun id hid => (hreached id hid).isCommit_right) limit
  refine ⟨pages, page_of_range hrange ▸ honward, ?_⟩
  rw [map_id_of_commitRecords hrecords]
  exact ⟨hnodup, hreached, hcovers, fun inTime id =>
    ⟨fun hid => ⟨hreached id hid, hhides inTime id hid⟩, fun hid => hcovers id hid.1 hid.2⟩⟩

def secondOnly : Resolution :=
  ⟨.ofCommit "2222" secondChange, some (.ofCommit "1111" firstChange), ""⟩

theorem range_lists_underReview :
    underReview.Complete ∧
    ((underReview.resolve "1111..2222").on (.empty ⟨[]⟩ 4)).1 = .ok (some secondOnly) ∧
    secondOnly.old = some (.ofCommit "1111" firstChange) ∧
    underReview.isCommit secondChange = true ∧ underReview.isCommit firstChange = true ∧
    underReview.HidesInTime firstChange secondChange ∧
    ∃ pages, Onward (secondOnly.page underReview 1) none pages ∧
      let listed := (pages.flatMap Page.items).map CommitRecord.id
      listed.Nodup ∧ ∀ id, id ∈ listed ↔
        underReview.Reaches secondChange id ∧ ¬ underReview.Reaches firstChange id := by
  have hnew : underReview.isCommit secondChange = true := by decide +kernel
  have hold : underReview.isCommit firstChange = true := by decide +kernel
  have inTime : underReview.HidesInTime firstChange secondChange :=
    hidesInTime_of_commitIds (by decide +kernel) firstChange secondChange
  obtain ⟨pages, honward, hnodup, _, _, hlisted⟩ :=
    underReview_complete.range_lists (rfl : secondOnly.old = some (.ofCommit "1111" firstChange))
      hnew hold 1
  exact ⟨underReview_complete, by decide +kernel, rfl, hnew, hold, inTime, pages, honward, hnodup,
    hlisted inTime⟩

def skewedRange : Resolution :=
  ⟨.ofCommit "new" skewedNew, some (.ofCommit "old" skewedOld), ""⟩

/-- The old side reaches the second commit that the range lists. -/
theorem page_skewedRange :
    skewed.Complete ∧
    ((skewed.resolve "old..new").on (.empty ⟨[]⟩ 4)).1 = .ok (some skewedRange) ∧
    (skewedRange.page skewed 100 none).map (fun page => (page.items.map CommitRecord.id, page.next)) =
      .ok ([skewedNew, .repeating 6, .repeating 7], none) ∧
    skewed.Reaches skewedOld (.repeating 6) := by
  have hpath : skewed.Reaches skewedOld (.repeating 6) :=
    .parent (by decide +kernel : ObjectId.repeating 9 ∈ skewed.parentsOf skewedOld)
      (.parent (by decide +kernel : ObjectId.repeating 8 ∈ skewed.parentsOf (.repeating 9))
        (.parent (by decide +kernel : ObjectId.repeating 6 ∈ skewed.parentsOf (.repeating 8))
          (.refl (by decide +kernel))))
  exact ⟨skewed_complete, by decide +kernel, by decide +kernel, hpath⟩

end Repository

end GuardedRevision
