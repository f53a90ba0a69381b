import GuardedRevision.Proofs.PageCalls
import GuardedRevision.Proofs.Sowing
import Mathlib.Data.List.Nodup

/-!
# Browsing

One page after another, each of a walk that is sown anew by the same calls. The markers of the next pages
lead from the top through all commits of the walk. Those of the previous pages lead back to the top, a
full page at a time and at last by what is left.

Where a page is to begin at a commit that the walk does not come to, the walk is rewound. The rewound
walk may go through fewer commits, because it still knows what the first pass has read and marks hidden
ancestors farther. Markers of such a page are not those of the walk.
-/

namespace GuardedRevision

/-- The page that a walk sown by these calls has at a start. -/
def Repository.page (repo : Repository) (seeds : List Seed) (limit : Nat) (start : Option ObjectId) :
    Except Fault Page := do
  let walk ← repo.sown seeds
  (Pager.new walk limit start).page

/-- `Onward shown start pages`: the page at the start and those that the markers of the next pages lead
to, up to one without such a marker. -/
inductive Onward (shown : Option ObjectId → Except Fault Page) : Option ObjectId → List Page → Prop where
  | last {start : Option ObjectId} {page : Page} (hshown : shown start = .ok page)
      (hnext : page.next = none) : Onward shown start [page]
  | more {start : Option ObjectId} {page : Page} {id : ObjectId} {later : List Page}
      (hshown : shown start = .ok page) (hnext : page.next = some id)
      (rest : Onward shown (some id) later) : Onward shown start (page :: later)

/-- `Backward shown hops page top`: so many markers of previous pages lead from one page to the other. -/
inductive Backward (shown : Option ObjectId → Except Fault Page) : Nat → Page → Page → Prop where
  | here (page : Page) : Backward shown 0 page page
  | hop {hops : Nat} {page before top : Page} {id : ObjectId} (hprevious : page.previous = some id)
      (hshown : shown (some id) = .ok before) (rest : Backward shown hops before top) :
      Backward shown (hops + 1) page top

namespace Pager

/-- The page that begins at an index of what a walk goes through. -/
def pageAt (commits : List ObjectId) (records : List CommitRecord) (size first : Nat) : Page :=
  ⟨(records.drop first).take size, markAt commits size first, commits[first + size]?⟩

/-- Pages of one size are shown of these commits wherever one of them begins. -/
structure Shows (shown : Option ObjectId → Except Fault Page) (commits : List ObjectId)
    (records : List CommitRecord) (size : Nat) : Prop where
  positive : 0 < size
  nodup : commits.Nodup
  ids : records.map CommitRecord.id = commits
  top : shown none = .ok (pageAt commits records size 0)
  found : ∀ {index : Nat} {id : ObjectId}, commits[index]? = some id →
    shown (some id) = .ok (pageAt commits records size index)

variable {shown : Option ObjectId → Except Fault Page} {commits : List ObjectId}
  {records : List CommitRecord} {size first : Nat} {start : Option ObjectId}

theorem firstIndex_of_getElem? {index : Nat} {id : ObjectId} (hnodup : commits.Nodup)
    (hid : commits[index]? = some id) : firstIndex commits (some id) = index := by
  obtain ⟨hlength, rfl⟩ := List.getElem?_eq_some_iff.mp hid
  rw [firstIndex, if_pos (List.getElem_mem hlength), hnodup.idxOf_getElem]

theorem markAt_of_ne_zero (hzero : first ≠ 0) : markAt commits size first = commits[first - size]? := by
  rw [markAt, if_neg hzero]
  split
  · rfl
  · next hpage => rw [Nat.sub_eq_zero_of_le (by omega)]

/-- One page back is one hop less to the top, also where less than a page is left. -/
theorem hops_eq (hzero : first ≠ 0) (hpositive : 0 < size) :
    (first + size - 1) / size = (first - size + size - 1) / size + 1 := by
  by_cases hpage : size ≤ first
  · calc (first + size - 1) / size = (first - size + size - 1 + size) / size := by
          congr 1
          omega
      _ = (first - size + size - 1) / size + 1 := Nat.add_div_right _ hpositive
  · have htop : first - size = 0 := by omega
    rw [htop, Nat.zero_add, Nat.div_eq_of_lt (Nat.sub_one_lt_of_lt hpositive)]
    exact Nat.div_eq_of_lt_le (by omega) (by omega)

namespace Shows

variable (shows : Shows shown commits records size)
include shows

theorem length_eq : records.length = commits.length := by
  rw [← shows.ids, List.length_map]

theorem exists_onward (hshown : shown start = .ok (pageAt commits records size first)) :
    ∃ pages, Onward shown start pages ∧ pages.flatMap Page.items = records.drop first ∧
      (∀ page ∈ pages, page.items = [] → records.length ≤ first) ∧
      ∀ page ∈ pages.dropLast, page.items.length = size := by
  have hpositive := shows.positive
  have hlength := shows.length_eq
  -- On what is still to be shown: the page after one that is followed by a commit begins at that.
  induction hleft : records.length - first using Nat.strongRecOn generalizing start first with
  | ind left ih =>
      cases hnext : commits[first + size]? with
      | none =>
          have hend : records.length ≤ first + size := hlength ▸ List.getElem?_eq_none_iff.mp hnext
          have hall : (records.drop first).take size = records.drop first :=
            List.take_of_length_le (by rw [List.length_drop]; omega)
          refine ⟨[_], .last hshown hnext, ?_, ?_, by simp⟩
          · rw [List.flatMap_singleton]
            exact hall
          · rw [List.forall_mem_singleton]
            intro hnone
            exact List.drop_eq_nil_iff.mp (hall.symm.trans hnone)
      | some id =>
          obtain ⟨hinside, _⟩ := List.getElem?_eq_some_iff.mp hnext
          have hless : records.length - (first + size) < left := by omega
          obtain ⟨later, honward, hitems, hsome, hfull⟩ := ih _ hless (shows.found hnext) rfl
          have hcount : ((records.drop first).take size).length = size := by
            rw [List.length_take, List.length_drop]
            omega
          have hlater : later ≠ [] := by
            rintro rfl
            cases honward
          refine ⟨_, .more hshown hnext honward, ?_, ?_, ?_⟩
          · rw [List.flatMap_cons, hitems, ← List.drop_drop]
            exact List.take_append_drop size _
          · rintro page (_ | ⟨_, hpage⟩) hnone
            · have hzero := congrArg List.length hnone
              rw [pageAt, hcount, List.length_nil] at hzero
              omega
            · have hover := hsome page hpage hnone
              omega
          · rw [List.dropLast_cons_of_ne_nil hlater]
            rintro page (_ | ⟨_, hpage⟩)
            · exact hcount
            · exact hfull page hpage

theorem backward_top (hfirst : first < commits.length) :
    Backward shown ((first + size - 1) / size) (pageAt commits records size first)
      (pageAt commits records size 0) := by
  have hpositive := shows.positive
  induction first using Nat.strongRecOn with
  | ind first ih =>
      by_cases hzero : first = 0
      · subst hzero
        rw [Nat.zero_add, Nat.div_eq_of_lt (Nat.sub_one_lt_of_lt hpositive)]
        exact .here _
      · have hinside : first - size < commits.length := by omega
        have hid : commits[first - size]? = some commits[first - size] :=
          List.getElem?_eq_getElem hinside
        rw [hops_eq hzero hpositive]
        exact .hop ((markAt_of_ne_zero hzero).trans hid) (shows.found hid) (ih _ (by omega) hinside)

theorem head?_items : (pageAt commits records size first).items.head?.map CommitRecord.id =
    commits[first]? := by
  have hsome : size ≠ 0 := Nat.pos_iff_ne_zero.mp shows.positive
  calc (pageAt commits records size first).items.head?.map CommitRecord.id
      = (records.drop first).head?.map CommitRecord.id := by
        rw [pageAt, List.head?_take, if_neg hsome]
    _ = commits[first]? := by rw [List.head?_drop, ← shows.ids, List.getElem?_map]

theorem exists_after {next : ObjectId} (hnext : (pageAt commits records size first).next = some next) :
    ∃ after, shown (some next) = .ok after ∧
      after.previous = (pageAt commits records size first).items.head?.map CommitRecord.id := by
  have hpositive := shows.positive
  refine ⟨_, shows.found hnext, ?_⟩
  rw [shows.head?_items, pageAt, markAt_of_ne_zero (by omega), Nat.add_sub_cancel]

end Shows

end Pager

/-! ### Walks sown alike -/

namespace Repository

variable {repo : Repository} {id : ObjectId} {record : CommitRecord} {commits : List ObjectId}
  {records : List CommitRecord} {seeds : List Seed} {walk last : HistoryWalk} {limit : Nat}

theorem id_of_commitRecord (hrecord : repo.commitRecord id = .ok record) : record.id = id := by
  unfold commitRecord at hrecord
  split at hrecord
  · exact Except.ok.inj hrecord ▸ rfl
  · cases hrecord
  · split at hrecord <;> cases hrecord

theorem map_id_of_commitRecords (hrecords : commits.mapM repo.commitRecord = .ok records) :
    records.map CommitRecord.id = commits := by
  have hread := mapM_eq_ok_iff.mp hrecords
  induction hread with
  | nil => rfl
  | cons hrecord hrest ih =>
      rw [List.map_cons, id_of_commitRecord hrecord, ih (mapM_eq_ok_iff.mpr hrest)]

theorem page_eq_pageAt {start : Option ObjectId} (sown : walk.Sown repo seeds)
    (hwalk : repo.sown seeds = .ok walk) (hruns : walk.Runs commits last)
    (hcommits : ∀ id ∈ commits, repo.isCommit id = true)
    (hrecords : commits.mapM repo.commitRecord = .ok records)
    (hagain : ∀ id, start = some id → id ∉ commits → ∃ ended, last.rewind.Runs commits ended) :
    repo.page seeds limit start =
      .ok (Pager.pageAt commits records (max limit 1) (Pager.firstIndex commits start)) := by
  obtain rfl := sown.store
  obtain ⟨sought, seeks⟩ := sown.built.exists_seeks_of_again hruns hcommits limit hagain
  have hdropped := List.forall₂_drop (Pager.firstIndex commits start) (mapM_eq_ok_iff.mp hrecords)
  have hitems := mapM_eq_ok_iff.mpr (List.forall₂_take (max limit 1) hdropped)
  calc walk.repo.page seeds limit start = (Pager.new walk limit start).page := by
        rw [page, hwalk]
        rfl
    _ = Pager.pageOf walk.repo (max limit 1)
          (Pager.markAt commits (max limit 1) (Pager.firstIndex commits start))
          (commits.drop (Pager.firstIndex commits start)) := seeks.page_eq
    _ = .ok (Pager.pageAt commits records (max limit 1) (Pager.firstIndex commits start)) := by
        rw [Pager.pageOf, hitems, List.getElem?_drop]
        rfl

theorem shows_of_sown (sown : walk.Sown repo seeds) (hwalk : repo.sown seeds = .ok walk)
    (hruns : walk.Runs commits last) (hcommits : ∀ id ∈ commits, repo.isCommit id = true)
    (hrecords : commits.mapM repo.commitRecord = .ok records) :
    Pager.Shows (repo.page seeds limit) commits records (max limit 1) where
  positive := by omega
  nodup := sown.built.nodup hruns
  ids := map_id_of_commitRecords hrecords
  top := page_eq_pageAt sown hwalk hruns hcommits hrecords (by simp)
  found := by
    intro index id hid
    have hmem : id ∈ commits := List.mem_of_getElem? hid
    rw [page_eq_pageAt sown hwalk hruns hcommits hrecords fun other heq hnew => by
      cases heq
      exact absurd hmem hnew]
    rw [Pager.firstIndex_of_getElem? (sown.built.nodup hruns) hid]

theorem exists_onward_of_sown (sown : walk.Sown repo seeds) (hwalk : repo.sown seeds = .ok walk)
    (hruns : walk.Runs commits last) (hcommits : ∀ id ∈ commits, repo.isCommit id = true)
    (limit : Nat) :
    ∃ pages, Onward (repo.page seeds limit) none pages ∧
      commits.mapM repo.commitRecord = .ok (pages.flatMap Page.items) ∧
      (∀ page ∈ pages, page.items = [] → commits = []) ∧
      ∀ page ∈ pages.dropLast, page.items.length = max limit 1 := by
  obtain ⟨records, hrecords⟩ := exists_commitRecords hcommits
  have shows : Pager.Shows (repo.page seeds limit) commits records (max limit 1) :=
    shows_of_sown sown hwalk hruns hcommits hrecords
  obtain ⟨pages, honward, hitems, hsome, hfull⟩ := shows.exists_onward shows.top
  rw [List.drop_zero] at hitems
  refine ⟨pages, honward, hitems ▸ hrecords, fun page hpage hnone => ?_, hfull⟩
  have hlength := hsome page hpage hnone
  exact List.eq_nil_of_length_eq_zero (by rw [← shows.length_eq]; omega)

/-- The markers of the next pages lead from the top through the walk: they come to an end, and the pages
on the way hold every commit of it once and in its order. -/
theorem Complete.onward_tiles (complete : repo.Complete)
    (hcommits : ∀ id, Seed.push id ∈ seeds ∨ Seed.hide id ∈ seeds → repo.isCommit id = true)
    (limit : Nat) :
    ∃ walk commits last pages, repo.sown seeds = .ok walk ∧ walk.Runs commits last ∧ commits.Nodup ∧
      Onward (repo.page seeds limit) none pages ∧
      commits.mapM repo.commitRecord = .ok (pages.flatMap Page.items) ∧
      (∀ page ∈ pages, page.items = [] → commits = []) ∧
      ∀ page ∈ pages.dropLast, page.items.length = max limit 1 := by
  obtain ⟨walk, hwalk, sown⟩ := exists_sown hcommits
  obtain ⟨commits, last, hruns, lists⟩ := sown.exists_runs complete hcommits
  obtain ⟨pages, hpages⟩ :=
    exists_onward_of_sown sown hwalk hruns (fun _ => lists.history.isCommit) limit
  exact ⟨walk, commits, last, pages, hwalk, hruns, lists.history.nodup, hpages⟩

theorem isCommit_of_seededReview (id : ObjectId)
    (hid : Seed.push id ∈ [Seed.push secondChange] ∨ Seed.hide id ∈ [Seed.push secondChange]) :
    underReview.isCommit id = true := by
  simp only [List.mem_singleton, Seed.push.injEq, reduceCtorEq, or_false] at hid
  exact hid ▸ (by decide +kernel : underReview.isCommit secondChange = true)

theorem onward_tiles_underReview :
    underReview.Complete ∧
    (∀ id, Seed.push id ∈ [Seed.push secondChange] ∨ Seed.hide id ∈ [Seed.push secondChange] →
      underReview.isCommit id = true) ∧
    ∃ walk commits last pages, underReview.sown [.push secondChange] = .ok walk ∧
      walk.Runs commits last ∧ commits.Nodup ∧ Onward (underReview.page [.push secondChange] 1) none pages ∧
      commits.mapM underReview.commitRecord = .ok (pages.flatMap Page.items) ∧
      (∀ page ∈ pages, page.items = [] → commits = []) ∧
      ∀ page ∈ pages.dropLast, page.items.length = 1 :=
  ⟨underReview_complete, isCommit_of_seededReview,
    underReview_complete.onward_tiles isCommit_of_seededReview 1⟩

/-- The markers of the previous pages lead back to the top in as few pages as there can be, and the page
that the marker of the next one leads to is marked with where the page began. It may have begun at the
top, at a commit of the walk, or, where the rewound walk goes through the same once more, at any id. -/
theorem Complete.markers_lead_back (complete : repo.Complete)
    (hcommits : ∀ id, Seed.push id ∈ seeds ∨ Seed.hide id ∈ seeds → repo.isCommit id = true)
    (limit : Nat) :
    ∃ walk commits last, repo.sown seeds = .ok walk ∧ walk.Runs commits last ∧
      ∀ start : Option ObjectId,
        (∀ id, start = some id → id ∉ commits → ∃ ended, last.rewind.Runs commits ended) →
        ∃ page, repo.page seeds limit start = .ok page ∧
          (∀ index id, commits[index]? = some id → page.items.head?.map CommitRecord.id = some id →
            ∃ top, Backward (repo.page seeds limit) ((index + max limit 1 - 1) / max limit 1) page top ∧
              top.items.head?.map CommitRecord.id = commits.head? ∧ top.previous = none) ∧
          ∀ next, page.next = some next →
            ∃ after, repo.page seeds limit (some next) = .ok after ∧
              after.previous = page.items.head?.map CommitRecord.id := by
  obtain ⟨walk, hwalk, sown⟩ := exists_sown hcommits
  obtain ⟨commits, last, hruns, lists⟩ := sown.exists_runs complete hcommits
  have hstored : ∀ id ∈ commits, repo.isCommit id = true := fun _ => lists.history.isCommit
  obtain ⟨records, hrecords⟩ := exists_commitRecords hstored
  have shows : Pager.Shows (repo.page seeds limit) commits records (max limit 1) :=
    shows_of_sown sown hwalk hruns hstored hrecords
  refine ⟨walk, commits, last, hwalk, hruns, fun start hagain =>
    ⟨_, page_eq_pageAt sown hwalk hruns hstored hrecords hagain, ?_, fun _ => shows.exists_after⟩⟩
  intro index id hid hhead
  rw [shows.head?_items] at hhead
  -- No commit comes twice, so the page begins where its first commit is.
  have hfirst : Pager.firstIndex commits start = index :=
    (Pager.firstIndex_of_getElem? shows.nodup hhead).symm.trans
      (Pager.firstIndex_of_getElem? shows.nodup hid)
  obtain ⟨hinside, _⟩ := List.getElem?_eq_some_iff.mp hid
  rw [hfirst]
  refine ⟨_, shows.backward_top hinside, ?_, rfl⟩
  rw [shows.head?_items, List.head?_eq_getElem?]

theorem markers_lead_back_underReview :
    underReview.Complete ∧
    (∀ id, Seed.push id ∈ [Seed.push secondChange] ∨ Seed.hide id ∈ [Seed.push secondChange] →
      underReview.isCommit id = true) ∧
    ∃ last ended page after, reviewWalk.Runs [secondChange, firstChange] last ∧
      last.rewind.Runs [secondChange, firstChange] ended ∧
      underReview.page [.push secondChange] 1 (some .emptyTree) = .ok page ∧
      page.items.head?.map CommitRecord.id = some secondChange ∧ page.next = some firstChange ∧
      underReview.page [.push secondChange] 1 (some firstChange) = .ok after ∧
      after.previous = some secondChange ∧
      ∃ top, Backward (underReview.page [.push secondChange] 1) 1 after top ∧
        top.items.head?.map CommitRecord.id = some secondChange ∧ top.previous = none := by
  have hpush : (HistoryWalk.new underReview).push secondChange = .ok reviewWalk :=
    except_bind_eq_ok_iff.mpr ⟨(), by decide +kernel, rfl⟩
  have hsown : underReview.sown [.push secondChange] = .ok reviewWalk :=
    except_bind_eq_ok_iff.mpr ⟨reviewWalk, hpush, rfl⟩
  have hruns : reviewWalk.Runs [secondChange, firstChange] (reviewWalk.take 3).2 :=
    .of_take (by decide +kernel) (by decide)
  have hagain : (reviewWalk.take 3).2.rewind.Runs [secondChange, firstChange]
      ((reviewWalk.take 3).2.rewind.take 3).2 := .of_take (by decide +kernel) (by decide)
  obtain ⟨walk, commits, last, hwalk, hwalks, hpages⟩ :=
    underReview_complete.markers_lead_back isCommit_of_seededReview 1
  obtain rfl : reviewWalk = walk := Except.ok.inj (hsown.symm.trans hwalk)
  obtain ⟨rfl, rfl⟩ := hruns.unique hwalks
  -- From the top, where the walk does not come to the start, and back from the page after that.
  obtain ⟨page, hpage, _, hafter⟩ := hpages (some .emptyTree) fun _ _ _ => ⟨_, hagain⟩
  obtain ⟨later, hlater, hback, _⟩ := hpages (some firstChange) fun id heq hnew => by
    cases heq
    simp at hnew
  have hhead : (underReview.page [.push secondChange] 1 (some .emptyTree)).map (fun page =>
      (page.items.head?.map CommitRecord.id, page.next)) = .ok (some secondChange, some firstChange) := by
    decide +kernel
  have hfirst : (underReview.page [.push secondChange] 1 (some firstChange)).map (fun page =>
      page.items.head?.map CommitRecord.id) = .ok (some firstChange) := by
    decide +kernel
  rw [hpage] at hhead
  rw [hlater] at hfirst
  obtain ⟨hsecond, hnext⟩ := Prod.mk.inj (Except.ok.inj hhead)
  obtain ⟨after, hshown, hprevious⟩ := hafter firstChange hnext
  obtain rfl : later = after := Except.ok.inj (hlater.symm.trans hshown)
  exact ⟨underReview_complete, isCommit_of_seededReview, _, _, page, later, hruns, hagain, hpage, hsecond,
    hnext, hlater, hprevious.trans hsecond, hback 1 firstChange rfl (Except.ok.inj hfirst)⟩

end Repository

/-! ### Times that run against ancestry -/

def ObjectId.repeating (digit : Fin 16) : ObjectId :=
  ⟨String.ofList (List.replicate storeDigits (Nat.digitChar digit)), by decide +kernel +revert⟩

namespace Repository

/-- Eleven commits, two of them at refs, whose times run against ancestry; parents have smaller digits. The
old side reaches 6 over 9 and 8, which are older than it. The chain from 5 to 1 is newer than those, and
a search that hides the old side loses its patience over it before it comes to 6. -/
def skewed : Repository where
  scope := "/srv/git/skewed"
  objects :=
    [(11, [6, 7, 8], 200), (10, [5, 9], 300), (9, [8], 2), (8, [6], 1), (7, [], 80), (6, [], 90),
      (5, [4], 69), (4, [3], 68), (3, [2], 67), (2, [1], 66), (1, [], 65)].map
        fun (digit, parents, time) => (.repeating digit, .readable (.commit
          ⟨parents.map .repeating, ⟨.empty, .empty, time⟩, time, .empty⟩))
  refs := [("refs/heads/new", .id (.repeating 11)), ("refs/heads/old", .id (.repeating 10))]
  folders := []

def skewedRank (id : ObjectId) : Nat :=
  match id.text.toList with
  | [] => 0
  | digit :: _ => digit.toNat

theorem skewed_complete : skewed.Complete :=
  complete_of_isRanked (by decide +kernel : skewed.isRanked skewedRank = true)

def skewedNew : ObjectId := .repeating 11

def skewedOld : ObjectId := .repeating 10

def skewedSeeds : List Seed := [.push skewedNew, .hide skewedOld]

/-- A page that begins at the top after a rewind: the next page is marked with a commit that was not on
it. -/
theorem previous_skewed :
    skewed.Complete ∧
    (∀ id, Seed.push id ∈ skewedSeeds ∨ Seed.hide id ∈ skewedSeeds → skewed.isCommit id = true) ∧
    ((skewed.page skewedSeeds 1 (some (.repeating 15))).map fun page =>
      (page.items.map CommitRecord.id, page.next)) = .ok ([skewedNew], some (.repeating 7)) ∧
    (skewed.page skewedSeeds 1 (some (.repeating 7))).map Page.previous = .ok (some (.repeating 6)) := by
  refine ⟨skewed_complete, fun id hid => ?_, by decide +kernel, by decide +kernel⟩
  have hsides : id = skewedNew ∨ id = skewedOld := by simpa [skewedSeeds] using hid
  rcases hsides with rfl | rfl <;> decide +kernel

end Repository

end GuardedRevision
