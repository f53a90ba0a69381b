import GuardedRevision.Pager
import GuardedRevision.Proofs.Walks
import Mathlib.Data.List.Basic

/-!
# Pages

What a page holds, in terms of the commits that its walk goes through: the commits from its first one
on, as many as fit, and the two markers.
-/

namespace GuardedRevision

namespace Pager

def pageOf (repo : Repository) (limit : Nat) (previous : Option ObjectId) (commits : List ObjectId) :
    Except Fault Page := do
  let items ← (commits.take limit).mapM repo.commitRecord
  return ⟨items, previous, commits[limit]?⟩

/-- A pager whose first commit has been looked for, with the commits that are still to come. -/
structure Reading (repo : Repository) (pager : Pager) (commits : List ObjectId) : Prop where
  sought : pager.sought = true
  unfinished : pager.done = false
  unmarked : pager.next = none
  positive : 0 < pager.limit
  room : pager.returned ≤ pager.limit
  store : pager.walk.repo = repo
  coming : (∃ id later last, commits = id :: later ∧ pager.pending = some id ∧ pager.returned = 0 ∧
      pager.walk.Runs later last) ∨
    (∃ last, pager.pending = none ∧ pager.returned ≠ 0 ∧ pager.walk.Runs commits last) ∨
    (commits = [] ∧ pager.pending = none ∧ pager.returned = 0)

variable {repo : Repository} {pager : Pager} {walk last : HistoryWalk} {id start : ObjectId}
  {before later commits : List ObjectId} {limit : Nat}

namespace Reading

theorem begun (reading : pager.Reading repo commits) : pager.begun = (.ok (), pager) := by
  rw [Pager.begun, if_pos reading.sought]

theorem upcoming_cons (reading : pager.Reading repo (id :: later)) :
    ∃ after last, pager.upcoming = (.ok (some id), after) ∧ after.repo = repo ∧
      after.Runs later last := by
  rcases reading.coming with ⟨_, _, last, heq, hpending, _, hruns⟩ | ⟨last, hpending, hreturned, hruns⟩ |
    ⟨hnil, _⟩
  · cases heq
    exact ⟨pager.walk, last, by rw [upcoming, hpending], reading.store, hruns⟩
  · cases hruns with
    | yields hnext rest =>
        refine ⟨_, last, ?_, (HistoryWalk.repo_next hnext).trans reading.store, rest⟩
        simp only [upcoming, hpending, if_neg hreturned, hnext]
  · cases hnil

theorem upcoming_nil (reading : pager.Reading repo []) :
    ∃ after, pager.upcoming = (.ok none, after) := by
  rcases reading.coming with ⟨_, _, _, heq, _⟩ | ⟨last, hpending, hreturned, hruns⟩ |
    ⟨_, hpending, hreturned⟩
  · cases heq
  · cases hruns with
    | ended hnext =>
        refine ⟨last, ?_⟩
        simp only [upcoming, hpending, if_neg hreturned, hnext]
  · refine ⟨pager.walk, ?_⟩
    simp only [upcoming, hpending, hreturned, if_true]

theorem step_of_full (reading : pager.Reading repo commits) (hfull : pager.returned = pager.limit) :
    ∃ after, pager.step = (.ok none, { pager with walk := after, next := commits.head?, done := true }) := by
  have hpositive := reading.positive
  have hruns : ∃ last, pager.walk.Runs commits last := by
    rcases reading.coming with ⟨_, _, _, _, _, hzero, _⟩ | ⟨last, _, _, hruns⟩ | ⟨_, _, hzero⟩
    · omega
    · exact ⟨last, hruns⟩
    · omega
  obtain ⟨last, hruns⟩ := hruns
  cases hruns with
  | ended hnext =>
      refine ⟨last, ?_⟩
      simp only [step, reading.unfinished, reading.begun, advance, if_pos hfull, hnext,
        Bool.false_eq_true, if_false, List.head?_nil]
  | @yields _ after _ id later hnext rest =>
      refine ⟨after, ?_⟩
      simp only [step, reading.unfinished, reading.begun, advance, if_pos hfull, hnext,
        Bool.false_eq_true, if_false, List.head?_cons]

theorem step_of_end (reading : pager.Reading repo []) (hroom : pager.returned ≠ pager.limit) :
    ∃ after, pager.step = (.ok none, { pager with walk := after, done := true }) := by
  obtain ⟨after, hupcoming⟩ := reading.upcoming_nil
  refine ⟨after, ?_⟩
  simp only [step, reading.unfinished, reading.begun, advance, if_neg hroom, hupcoming,
    Bool.false_eq_true, if_false]

theorem step_of_record {record : CommitRecord} (reading : pager.Reading repo (id :: later))
    (hroom : pager.returned ≠ pager.limit) (hrecord : repo.commitRecord id = .ok record) :
    ∃ after : Pager, pager.step = (.ok (some record), after) ∧ after.Reading repo later ∧
      after.limit = pager.limit ∧ after.returned = pager.returned + 1 ∧
      after.previous = pager.previous := by
  have hless := reading.room
  obtain ⟨after, last, hupcoming, hstore, hruns⟩ := reading.upcoming_cons
  refine ⟨{ pager with walk := after, pending := none, returned := pager.returned + 1 }, ?_, ?_, rfl,
    rfl, rfl⟩
  · simp only [step, reading.unfinished, reading.begun, advance, if_neg hroom, hupcoming, hstore,
      hrecord, Except.map, Bool.false_eq_true, if_false]
  · exact { reading with
      room := by
        change pager.returned + 1 ≤ pager.limit
        omega
      store := hstore
      coming := .inr (.inl ⟨last, rfl, Nat.succ_ne_zero _, hruns⟩) }

theorem step_of_fault {fault : Fault} (reading : pager.Reading repo (id :: later))
    (hroom : pager.returned ≠ pager.limit) (hrecord : repo.commitRecord id = .error fault) :
    ∃ after, pager.step = (.error fault, after) := by
  obtain ⟨after, last, hupcoming, hstore, _⟩ := reading.upcoming_cons
  refine ⟨{ pager with walk := after, pending := none, returned := pager.returned + 1, done := true }, ?_⟩
  simp only [step, reading.unfinished, reading.begun, advance, if_neg hroom, hupcoming, hstore,
    hrecord, Except.map, Bool.false_eq_true, if_false]

/-- The page from here on. The step after its last commit sets the marker of the next page. -/
theorem take (reading : pager.Reading repo commits) (count : Nat) :
    (pager.take count).1 =
        (commits.take (min count (pager.limit - pager.returned))).mapM repo.commitRecord ∧
      ∀ items, (pager.take count).1 = .ok items →
        (pager.take count).2.previous = pager.previous ∧
        (pager.take count).2.next =
          if pager.limit - pager.returned < count then commits[pager.limit - pager.returned]? else none := by
  -- For any count: at the limit itself the last step looks ahead, and below it no marker is set yet.
  induction count generalizing pager commits with
  | zero => exact ⟨by simp [Pager.take]; rfl, fun _ _ => ⟨rfl, by simp [Pager.take, reading.unmarked]⟩⟩
  | succ count ih =>
      have hroom := reading.room
      by_cases hfull : pager.returned = pager.limit
      · obtain ⟨after, hstep⟩ := reading.step_of_full hfull
        have hnone : pager.limit - pager.returned = 0 := by omega
        simp only [Pager.take, hstep, hnone]
        refine ⟨by simp; rfl, fun _ _ => ⟨trivial, ?_⟩⟩
        simp [List.head?_eq_getElem?]
      · obtain ⟨left, hleft⟩ := Nat.exists_eq_succ_of_ne_zero
          (by omega : pager.limit - pager.returned ≠ 0)
        have hmin : min (count + 1) (left + 1) = min count left + 1 := by omega
        rw [hleft, Nat.succ_eq_add_one, hmin]
        cases commits with
        | nil =>
            obtain ⟨after, hstep⟩ := reading.step_of_end hfull
            simp only [Pager.take, hstep]
            exact ⟨rfl, fun _ _ => ⟨trivial, by simp [reading.unmarked]⟩⟩
        | cons id later =>
            rw [List.take_succ_cons, List.mapM_cons]
            cases hrecord : repo.commitRecord id with
            | error fault =>
                obtain ⟨after, hstep⟩ := reading.step_of_fault hfull hrecord
                simp only [Pager.take, hstep]
                exact ⟨rfl, fun _ h => by cases h⟩
            | ok record =>
                obtain ⟨after, hstep, hafter, hlimit, hreturned, hprevious⟩ :=
                  reading.step_of_record hfull hrecord
                obtain ⟨htake, hmarks⟩ := ih hafter
                have hrest : after.limit - after.returned = left := by omega
                rw [hrest] at htake hmarks
                simp only [Pager.take, hstep, htake]
                cases hitems : (later.take (min count left)).mapM repo.commitRecord with
                | error fault => exact ⟨rfl, fun _ h => by cases h⟩
                | ok items =>
                    obtain ⟨hsame, hnext⟩ := hmarks items (htake.trans hitems)
                    refine ⟨rfl, fun _ _ => ⟨hsame.trans hprevious, hnext.trans ?_⟩⟩
                    simp

end Reading

/-! ### The first commit -/

/-- Looking for its first commit, the pager comes to stand in front of these commits and sets this
marker. -/
structure Seeks (repo : Repository) (mark : Option ObjectId) (commits : List ObjectId)
    (pager sought : Pager) : Prop where
  unfinished : pager.done = false
  begun : pager.begun = (.ok (), sought)
  reading : sought.Reading repo commits
  limit : sought.limit = pager.limit
  returned : sought.returned = 0
  previous : sought.previous = mark

def opened (walk : HistoryWalk) (limit : Nat) (start : Option ObjectId) : Pager :=
  { Pager.new walk limit start with sought := true }

theorem begun_new (start : Option ObjectId) :
    (Pager.new walk limit start).begun = (opened walk limit start).seek := rfl

theorem seekNext_reading (limit : Nat) (seeker : Option ObjectId) (hruns : walk.Runs commits last) :
    ∃ sought : Pager, (opened walk limit seeker).seekNext = (.ok (), sought) ∧
      sought.Reading walk.repo commits ∧ sought.limit = max limit 1 ∧ sought.returned = 0 ∧
      sought.previous = none := by
  have hpositive : 0 < max limit 1 := by omega
  have hwalk : (opened walk limit seeker).walk = walk := rfl
  cases hruns with
  | ended hnext =>
      refine ⟨{ opened walk limit seeker with walk := last, pending := none }, ?_,
        ⟨rfl, rfl, rfl, hpositive, Nat.zero_le _, HistoryWalk.repo_next hnext,
          .inr (.inr ⟨rfl, rfl, rfl⟩)⟩, rfl, rfl, rfl⟩
      simp only [seekNext, hwalk, hnext]
  | @yields _ after _ id later hnext rest =>
      refine ⟨{ opened walk limit seeker with walk := after, pending := some id }, ?_,
        ⟨rfl, rfl, rfl, hpositive, Nat.zero_le _, HistoryWalk.repo_next hnext,
          .inl ⟨id, later, last, rfl, rfl, rfl, rest⟩⟩, rfl, rfl, rfl⟩
      simp only [seekNext, hwalk, hnext]

theorem exists_seeks_top (limit : Nat) (hruns : walk.Runs commits last) :
    ∃ sought, (Pager.new walk limit none).Seeks walk.repo none commits sought := by
  obtain ⟨sought, hseek, reading, hlimit, hreturned, hprevious⟩ := seekNext_reading limit none hruns
  exact ⟨sought, rfl, hseek, reading, hlimit, hreturned, hprevious⟩

theorem seek_found {skipped : List ObjectId} {after : HistoryWalk}
    (hskip : walk.skipTo start = (.ok (skipped, true), after)) :
    (opened walk limit (some start)).seek = (.ok (), { opened walk limit (some start) with
      walk := after
      pending := some start
      previous := markerBefore (max limit 1) skipped }) := by
  have hwalk : (opened walk limit (some start)).walk = walk := rfl
  have hstart : (opened walk limit (some start)).start = some start := rfl
  simp only [seek, hstart, hwalk, hskip]
  rfl

theorem seek_missed {skipped : List ObjectId} {after : HistoryWalk}
    (hskip : walk.skipTo start = (.ok (skipped, false), after)) :
    (opened walk limit (some start)).seek =
      (opened (if skipped.isEmpty then after else after.rewind) limit (some start)).seekNext := by
  have hwalk : (opened walk limit (some start)).walk = walk := rfl
  have hstart : (opened walk limit (some start)).start = some start := rfl
  simp only [seek, hstart, hwalk, hskip]
  rfl

theorem exists_seeks_found (limit : Nat) (hruns : walk.Runs (before ++ start :: later) last)
    (hnew : start ∉ before) (hshort : before.length ≤ walk.repo.commitIds.length) :
    ∃ sought, (Pager.new walk limit (some start)).Seeks walk.repo (markerBefore (max limit 1) before)
      (start :: later) sought := by
  obtain ⟨after, hskip, hafter⟩ := hruns.skipWithin_found hnew (Nat.lt_succ_of_le hshort)
  have hstore : after.repo = walk.repo := by
    rw [← hafter.repo_eq, hruns.repo_eq]
  have hpositive : 0 < max limit 1 := by omega
  exact ⟨_, rfl, (begun_new (some start)).trans (seek_found hskip),
    ⟨rfl, rfl, rfl, hpositive, Nat.zero_le _, hstore, .inl ⟨start, later, last, rfl, rfl, rfl, hafter⟩⟩,
    rfl, rfl, rfl⟩

/-- Where the walk does not come to the start, the page begins at the top of the walk rewound. -/
theorem exists_seeks_missed {again : List ObjectId} {ended : HistoryWalk} (limit : Nat)
    (hruns : walk.Runs commits last) (hnew : start ∉ commits)
    (hshort : commits.length ≤ walk.repo.commitIds.length)
    (hagain : (if commits.isEmpty then last else last.rewind).Runs again ended) :
    ∃ sought, (Pager.new walk limit (some start)).Seeks walk.repo none again sought := by
  have hskip := hruns.skipWithin_missed hnew (Nat.lt_succ_of_le hshort)
  have hstore : (if commits.isEmpty then last else last.rewind).repo = walk.repo := by
    rw [← hruns.repo_eq]
    split
    · rfl
    · rfl
  obtain ⟨sought, hseek, reading, hlimit, hreturned, hprevious⟩ :=
    seekNext_reading limit (some start) hagain
  exact ⟨sought, rfl, (seek_missed hskip).trans hseek, hstore ▸ reading, hlimit, hreturned, hprevious⟩

/-! ### Whole pages -/

namespace Seeks

variable {mark : Option ObjectId} {sought : Pager} (seeks : pager.Seeks repo mark commits sought)
include seeks

theorem step_eq : pager.step = sought.step := by
  simp only [step, seeks.unfinished, seeks.begun, seeks.reading.unfinished, seeks.reading.begun,
    Bool.false_eq_true, if_false]

theorem page_eq : pager.page = pageOf repo pager.limit mark commits := by
  have htake : pager.take (pager.limit + 1) = sought.take (sought.limit + 1) := by
    rw [seeks.limit, Pager.take, Pager.take, seeks.step_eq]
  obtain ⟨hitems, hmarks⟩ := seeks.reading.take (sought.limit + 1)
  have hmin : min (sought.limit + 1) sought.limit = sought.limit := by omega
  rw [seeks.returned, Nat.sub_zero, hmin] at hitems
  rw [seeks.returned, Nat.sub_zero, if_pos (Nat.lt_succ_self _), seeks.previous] at hmarks
  rw [page, htake, pageOf, ← seeks.limit, ← hitems]
  rcases hrun : sought.take (sought.limit + 1) with ⟨result, after⟩
  rw [hrun] at hmarks
  cases result with
  | error fault => rfl
  | ok items =>
      obtain ⟨hprevious, hnext⟩ := hmarks items rfl
      dsimp only at hprevious hnext
      simp only [bind, Except.bind, pure, Except.pure, hprevious, hnext]

end Seeks

theorem page_top (limit : Nat) (hruns : walk.Runs commits last) :
    (Pager.new walk limit none).page = pageOf walk.repo (max limit 1) none commits := by
  obtain ⟨sought, seeks⟩ := exists_seeks_top limit hruns
  exact seeks.page_eq

theorem page_found (limit : Nat) (hruns : walk.Runs (before ++ start :: later) last)
    (hnew : start ∉ before) (hshort : before.length ≤ walk.repo.commitIds.length) :
    (Pager.new walk limit (some start)).page =
      pageOf walk.repo (max limit 1) (markerBefore (max limit 1) before) (start :: later) := by
  obtain ⟨sought, seeks⟩ := exists_seeks_found limit hruns hnew hshort
  exact seeks.page_eq

theorem page_missed {again : List ObjectId} {ended : HistoryWalk} (limit : Nat)
    (hruns : walk.Runs commits last) (hnew : start ∉ commits)
    (hshort : commits.length ≤ walk.repo.commitIds.length)
    (hagain : (if commits.isEmpty then last else last.rewind).Runs again ended) :
    (Pager.new walk limit (some start)).page = pageOf walk.repo (max limit 1) none again := by
  obtain ⟨sought, seeks⟩ := exists_seeks_missed limit hruns hnew hshort hagain
  exact seeks.page_eq

end Pager

end GuardedRevision
