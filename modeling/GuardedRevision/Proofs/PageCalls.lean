import GuardedRevision.Proofs.Paging
import GuardedRevision.Proofs.YieldsOnce
import Mathlib.Data.List.Forall2

/-!
# Calls of a pager

What each of any number of calls replies, and which markers are set after them, in terms of the whole
sequence that the walk goes through and the place in it where the page begins.
-/

namespace GuardedRevision

theorem mapM_eq_ok_iff {ε α β : Type} {f : α → Except ε β} {items : List α} {results : List β} :
    items.mapM f = .ok results ↔ List.Forall₂ (fun item result => f item = .ok result) items results := by
  induction items generalizing results with
  | nil => simp [pure, Except.pure, eq_comm]
  | cons item rest ih =>
      rw [List.mapM_cons, except_bind_eq_ok_iff, List.forall₂_cons_left_iff]
      constructor
      · rintro ⟨result, hitem, hrest⟩
        obtain ⟨later, hlater, hresults⟩ := except_bind_eq_ok_iff.mp hrest
        exact ⟨result, later, hitem, ih.mp hlater, (Except.ok.inj hresults).symm⟩
      · rintro ⟨result, later, hitem, hlater, rfl⟩
        exact ⟨result, hitem, except_bind_eq_ok_iff.mpr ⟨later, ih.mpr hlater, rfl⟩⟩

theorem Repository.exists_commitRecords {repo : Repository} {commits : List ObjectId}
    (hcommits : ∀ id ∈ commits, repo.isCommit id = true) :
    ∃ records, commits.mapM repo.commitRecord = .ok records := by
  induction commits with
  | nil => exact ⟨[], rfl⟩
  | cons id later ih =>
      obtain ⟨hcommit, hlater⟩ := List.forall_mem_cons.mp hcommits
      obtain ⟨commit, hobject⟩ := isCommit_iff.mp hcommit
      have hrecord : repo.commitRecord id = .ok (.ofCommit id commit) := by
        simp only [commitRecord, hobject]
      obtain ⟨records, hrecords⟩ := ih hlater
      exact ⟨_, mapM_eq_ok_iff.mpr (.cons hrecord (mapM_eq_ok_iff.mp hrecords))⟩

namespace Pager

/-- The replies to some calls one after another, and the pager after them. -/
def calls : Nat → Pager → List (Except Fault (Option CommitRecord)) × Pager
  | 0, pager => ([], pager)
  | count + 1, pager =>
      let (reply, after) := pager.step
      let (replies, last) := calls count after
      (reply :: replies, last)

def repliesOf (count : Nat) (records : List CommitRecord) : List (Except Fault (Option CommitRecord)) :=
  (records.take count).map (fun record => .ok (some record)) ++
    List.replicate (count - records.length) (.ok none)

variable {repo : Repository} {pager sought : Pager} {walk last ended : HistoryWalk} {id start : ObjectId}
  {before later commits : List ObjectId} {records : List CommitRecord} {mark : Option ObjectId}
  {limit count : Nat}

theorem repliesOf_nil_succ (count : Nat) : repliesOf (count + 1) [] = .ok none :: repliesOf count [] := by
  simp [repliesOf, List.replicate_succ]

theorem repliesOf_cons (count : Nat) (record : CommitRecord) :
    repliesOf (count + 1) (record :: records) = .ok (some record) :: repliesOf count records := by
  simp [repliesOf]

theorem calls_of_done (hdone : pager.done = true) (count : Nat) :
    pager.calls count = (repliesOf count [], pager) := by
  induction count with
  | zero => rfl
  | succ count ih =>
      simp only [calls, step, hdone, if_true, ih, repliesOf_nil_succ]

/-- The calls from here on. The one after the last record of a full page sets the marker. -/
theorem Reading.calls_eq (reading : pager.Reading repo commits)
    (hrecords : List.Forall₂ (fun id record => repo.commitRecord id = .ok record) commits records)
    (count : Nat) :
    (pager.calls count).1 = repliesOf count (records.take (pager.limit - pager.returned)) ∧
      (pager.calls count).2.previous = pager.previous ∧
      (pager.calls count).2.next =
        if count ≤ pager.limit - pager.returned then none else commits[pager.limit - pager.returned]? := by
  induction count generalizing pager commits records with
  | zero => exact ⟨by simp [calls, repliesOf], rfl, by simp [calls, reading.unmarked]⟩
  | succ count ih =>
      have hroom := reading.room
      by_cases hfull : pager.returned = pager.limit
      · obtain ⟨after, hstep⟩ := reading.step_of_full hfull
        have hnone : pager.limit - pager.returned = 0 := by omega
        simp only [calls, hstep, calls_of_done, hnone, List.take_zero, repliesOf_nil_succ,
          List.head?_eq_getElem?, true_and]
        rw [if_neg (Nat.not_succ_le_zero count)]
      · obtain ⟨left, hleft⟩ := Nat.exists_eq_succ_of_ne_zero
          (by omega : pager.limit - pager.returned ≠ 0)
        cases hrecords with
        | nil =>
            obtain ⟨after, hstep⟩ := reading.step_of_end hfull
            simp only [calls, hstep, calls_of_done, List.take_nil, repliesOf_nil_succ, reading.unmarked,
              List.getElem?_nil, ite_self, and_self]
        | @cons id record later records hrecord hrest =>
            obtain ⟨after, hstep, hafter, hlimit, hreturned, hprevious⟩ :=
              reading.step_of_record hfull hrecord
            obtain ⟨hreplies, hsame, hnext⟩ := ih hafter hrest
            have hafterRoom : after.limit - after.returned = left := by omega
            rw [hafterRoom] at hreplies hnext
            simp only [calls, hstep, hleft, hreplies, hsame, hprevious, hnext, List.take_succ_cons,
              repliesOf_cons, List.getElem?_cons_succ, Nat.succ_eq_add_one, Nat.add_le_add_iff_right,
              and_self]

theorem Seeks.calls_eq (seeks : pager.Seeks repo mark commits sought)
    (hrecords : List.Forall₂ (fun id record => repo.commitRecord id = .ok record) commits records)
    (hunmarked : pager.previous = none ∧ pager.next = none) (count : Nat) :
    (pager.calls count).1 = repliesOf count (records.take pager.limit) ∧
      (pager.calls count).2.previous = (if count = 0 then none else mark) ∧
      (pager.calls count).2.next = if count ≤ pager.limit then none else commits[pager.limit]? := by
  cases count with
  | zero => exact ⟨by simp [calls, repliesOf], hunmarked.1, hunmarked.2.trans (by simp)⟩
  | succ count =>
      have hcalls : pager.calls (count + 1) = sought.calls (count + 1) := by
        rw [calls, calls, seeks.step_eq]
      obtain ⟨hreplies, hprevious, hnext⟩ := seeks.reading.calls_eq hrecords (count + 1)
      rw [seeks.returned, Nat.sub_zero, seeks.limit] at hreplies hnext
      rw [hcalls, if_neg (Nat.succ_ne_zero count)]
      exact ⟨hreplies, hprevious.trans seeks.previous, hnext⟩

/-! ### Pages of a walk -/

def firstIndex (commits : List ObjectId) : Option ObjectId → Nat
  | none => 0
  | some start => if start ∈ commits then commits.idxOf start else 0

/-- The marker of the page before the one that begins at an index: a full page back, or the top of the
walk when there is less than a page, or nothing at the top itself. -/
def markAt (commits : List ObjectId) (size first : Nat) : Option ObjectId :=
  if first = 0 then none else if size ≤ first then commits[first - size]? else commits[0]?

theorem markerBefore_eq (hpositive : 0 < limit) (before later : List ObjectId) :
    markerBefore limit before = markAt (before ++ later) limit before.length := by
  unfold markerBefore markAt
  cases before with
  | nil => simp only [List.length_nil, if_neg (Nat.not_le.mpr hpositive), List.head?_nil, if_true]
  | cons id rest =>
      rw [if_neg (by simp : ¬ (id :: rest).length = 0)]
      split
      · rw [List.getElem?_append_left (by simp only [List.length_cons]; omega)]
      · rfl

theorem firstIndex_append_cons (hnew : start ∉ before) :
    firstIndex (before ++ start :: later) (some start) = before.length := by
  simp only [firstIndex, List.mem_append, List.mem_cons_self, or_true, if_true,
    List.idxOf_append_of_notMem hnew, List.idxOf_cons_self, Nat.add_zero]

end Pager

namespace HistoryWalk.Built

open Pager

variable {walk last ended : HistoryWalk} {commits : List ObjectId}

/-- A walk is replayed only where it does not come to the start of the page. -/
theorem exists_seeks_of_again (built : walk.Built) (hruns : walk.Runs commits last)
    (hcommits : ∀ id ∈ commits, walk.repo.isCommit id = true) (limit : Nat) {start : Option ObjectId}
    (hagain : ∀ id, start = some id → id ∉ commits → ∃ ended, last.rewind.Runs commits ended) :
    ∃ sought, (Pager.new walk limit start).Seeks walk.repo
      (markAt commits (max limit 1) (firstIndex commits start)) (commits.drop (firstIndex commits start))
      sought := by
  have hlength := built.length_le hruns hcommits
  cases start with
  | none => exact exists_seeks_top limit hruns
  | some start =>
      by_cases hmem : start ∈ commits
      · obtain ⟨before, later, rfl, hnew⟩ := List.eq_append_cons_of_mem hmem
        have hshort : before.length ≤ walk.repo.commitIds.length := by
          rw [List.length_append] at hlength
          omega
        rw [firstIndex_append_cons hnew, List.drop_left, ← markerBefore_eq (by omega)]
        exact exists_seeks_found limit hruns hnew hshort
      · have htop : firstIndex commits (some start) = 0 := if_neg hmem
        -- A walk that had nothing to go through is not rewound, and is still at its end.
        have hreplay : ∃ replayed, (if commits.isEmpty then last else last.rewind).Runs commits replayed := by
          cases hruns with
          | ended hnext => exact ⟨last, .ended (next_of_ended hnext)⟩
          | yields _ _ => exact hagain start rfl hmem
        obtain ⟨replayed, hreplayed⟩ := hreplay
        rw [htop]
        exact exists_seeks_missed limit hruns hmem hlength hreplayed

theorem exists_seeks (built : walk.Built) (hruns : walk.Runs commits last)
    (hcommits : ∀ id ∈ commits, walk.repo.isCommit id = true)
    (hagain : last.rewind.Runs commits ended) (limit : Nat) (start : Option ObjectId) :
    ∃ sought, (Pager.new walk limit start).Seeks walk.repo
      (markAt commits (max limit 1) (firstIndex commits start)) (commits.drop (firstIndex commits start))
      sought :=
  built.exists_seeks_of_again hruns hcommits limit fun _ _ _ => ⟨ended, hagain⟩

/-- Pages are exact. After any number of calls a pager has shown the commits from its first on, as many as
were called for and fit, and then nothing more. -/
theorem calls_of_pager (built : walk.Built) (hruns : walk.Runs commits last)
    (hcommits : ∀ id ∈ commits, walk.repo.isCommit id = true)
    (hagain : last.rewind.Runs commits ended) (limit : Nat) (start : Option ObjectId) (count : Nat) :
    let size := max limit 1
    let first := firstIndex commits start
    let pager := Pager.new walk limit start
    ∃ records, commits.mapM walk.repo.commitRecord = .ok records ∧
      (pager.calls count).1 = repliesOf count ((records.drop first).take size) ∧
      (pager.calls count).2.previous = (if count = 0 then none else markAt commits size first) ∧
      (pager.calls count).2.next = (if count ≤ size then none else commits[first + size]?) ∧
      pager.page = .ok ⟨(records.drop first).take size, markAt commits size first,
        commits[first + size]?⟩ := by
  intro size first pager
  obtain ⟨records, hrecords⟩ := Repository.exists_commitRecords hcommits
  have hread := mapM_eq_ok_iff.mp hrecords
  have hdropped := List.forall₂_drop first hread
  obtain ⟨sought, seeks⟩ := built.exists_seeks hruns hcommits hagain limit start
  obtain ⟨hreplies, hprevious, hnext⟩ := seeks.calls_eq hdropped ⟨rfl, rfl⟩ count
  have hitems : ((commits.drop first).take size).mapM walk.repo.commitRecord =
      .ok ((records.drop first).take size) := mapM_eq_ok_iff.mpr (List.forall₂_take size hdropped)
  rw [List.getElem?_drop] at hnext
  refine ⟨records, hrecords, hreplies, hprevious, hnext, ?_⟩
  rw [seeks.page_eq]
  change pageOf walk.repo size _ _ = _
  rw [pageOf, hitems, List.getElem?_drop]
  rfl

end HistoryWalk.Built

open Repository (underReview firstChange secondChange)

def reviewWalk : HistoryWalk := (HistoryWalk.new underReview).pushCommit secondChange

theorem calls_of_pager_reviewWalk :
    ∃ last ended, reviewWalk.Built ∧ reviewWalk.Runs [secondChange, firstChange] last ∧
      (∀ id ∈ [secondChange, firstChange], underReview.isCommit id = true) ∧
      last.rewind.Runs [secondChange, firstChange] ended ∧
      ∃ records, [secondChange, firstChange].mapM underReview.commitRecord = .ok records ∧
        ((Pager.new reviewWalk 0 (some firstChange)).calls 3).1 =
          Pager.repliesOf 3 ((records.drop 1).take 1) ∧
        ((Pager.new reviewWalk 0 (some firstChange)).calls 3).2.previous = some secondChange ∧
        ((Pager.new reviewWalk 0 (some firstChange)).calls 3).2.next = none ∧
        (Pager.new reviewWalk 0 (some firstChange)).page =
          .ok ⟨(records.drop 1).take 1, some secondChange, none⟩ := by
  have hpush : (HistoryWalk.new underReview).push secondChange = .ok reviewWalk :=
    except_bind_eq_ok_iff.mpr ⟨(), by decide +kernel, rfl⟩
  have built : reviewWalk.Built := .push (.new underReview) hpush
  have hruns : reviewWalk.Runs [secondChange, firstChange] (reviewWalk.take 3).2 :=
    .of_take (by decide +kernel) (by decide)
  have hagain : (reviewWalk.take 3).2.rewind.Runs [secondChange, firstChange]
      ((reviewWalk.take 3).2.rewind.take 3).2 := .of_take (by decide +kernel) (by decide)
  have hcommits : ∀ id ∈ [secondChange, firstChange], underReview.isCommit id = true := by
    decide +kernel
  exact ⟨_, _, built, hruns, hcommits, hagain,
    built.calls_of_pager hruns hcommits hagain 0 (some firstChange) 3⟩

end GuardedRevision
