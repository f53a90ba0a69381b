import GuardedRevision.Proofs.HiddenObjects
import GuardedRevision.Proofs.Paging
import GuardedRevision.TagListing

/-!
# Histories over a larger store

What is resolved has one history and one page in both stores, and the tags have one listing. A page that
is to begin at a hidden commit begins at the top, as one does that is to begin at no commit at all.
-/

namespace GuardedRevision

variable {repo larger : Repository} {id : ObjectId} {commits : List ObjectId} {policy : BrowsePolicy}
  {capacity limit : Nat} {text : String} {resolution : Resolution}

/-! ### Pages -/

theorem Repository.Grows.commitRecord (grows : repo.Grows larger) (hcommit : repo.isCommit id = true) :
    larger.commitRecord id = repo.commitRecord id := by
  obtain ⟨commit, hobject⟩ := Repository.isCommit_iff.mp hcommit
  simp only [Repository.commitRecord, hobject, grows hobject]

theorem Repository.Grows.mapM_commitRecord (grows : repo.Grows larger)
    (hcommits : ∀ id ∈ commits, repo.isCommit id = true) :
    commits.mapM larger.commitRecord = commits.mapM repo.commitRecord := by
  induction commits with
  | nil => rfl
  | cons id rest ih =>
      obtain ⟨hid, hrest⟩ := List.forall_mem_cons.mp hcommits
      rw [List.mapM_cons, List.mapM_cons, grows.commitRecord hid, ih hrest]

theorem Repository.Grows.pageOf (grows : repo.Grows larger)
    (hcommits : ∀ id ∈ commits, repo.isCommit id = true) (limit : Nat) (previous : Option ObjectId) :
    Pager.pageOf larger limit previous commits = Pager.pageOf repo limit previous commits := by
  unfold Pager.pageOf
  rw [grows.mapM_commitRecord fun id hid => hcommits id (List.mem_of_mem_take hid)]

namespace HistoryWalk

variable {walk : HistoryWalk}

/-- What a walk goes through once more after it has come to its end and been rewound, unless it went
through nothing. -/
theorem Seeded.exists_again {pass : Pass} (seeded : walk.Seeded repo) (complete : repo.Complete)
    (grows : repo.Grows larger) (through : walk.GoesThrough repo larger commits pass) :
    ∃ again ended,
      (if commits.isEmpty then { walk with pass := pass.spent }
        else ({ walk with pass := pass.spent } : HistoryWalk).rewind).Runs again ended ∧
      (if commits.isEmpty then { walk with repo := larger, pass := pass.spent }
        else ({ walk with repo := larger, pass := pass.spent } : HistoryWalk).rewind).Runs again
          { ended with repo := larger } ∧
      ∀ id ∈ again, repo.isCommit id = true := by
  cases commits with
  | nil => exact ⟨[], { walk with pass := pass.spent }, .ended rfl, .ended rfl, List.forall_mem_nil _⟩
  | cons first later =>
      have hrewound : ({ walk with pass := pass.spent } : HistoryWalk).rewind.Seeded repo :=
        seeded.rewind through.read
      obtain ⟨again, last, throughAgain⟩ := hrewound.exists_goesThrough complete grows
      exact ⟨again, _, throughAgain.small, throughAgain.large, fun _ => throughAgain.history.isCommit⟩

theorem Seeded.page_eq (seeded : walk.Seeded repo) (complete : repo.Complete)
    (grows : repo.Grows larger) (limit : Nat) (start : Option ObjectId) :
    (Pager.new { walk with repo := larger } limit start).page = (Pager.new walk limit start).page := by
  obtain ⟨commits, pass, through⟩ := seeded.exists_goesThrough complete grows
  have hstore : walk.repo = repo := seeded.store
  have hcommits : ∀ id ∈ commits, repo.isCommit id = true := fun _ => through.history.isCommit
  cases start with
  | none =>
      rw [Pager.page_top limit through.small, Pager.page_top limit through.large, hstore]
      exact grows.pageOf hcommits _ _
  | some start =>
      by_cases hmem : start ∈ commits
      · obtain ⟨before, later, rfl, hnew⟩ := List.eq_append_cons_of_mem hmem
        have hshort : before.length ≤ repo.commitIds.length ∧
            before.length ≤ larger.commitIds.length := by
          have hsmall := through.history.length_le
          have hlarge := through.historyLarger.length_le
          rw [List.length_append] at hsmall hlarge
          omega
        rw [Pager.page_found limit through.small hnew (hstore ▸ hshort.1),
          Pager.page_found limit through.large hnew hshort.2, hstore]
        exact grows.pageOf (fun id hid => hcommits id (List.mem_append_right _ hid)) _ _
      · -- A hidden start is passed by like one that is not there: neither is on the way.
        obtain ⟨again, ended, small, large, hagain⟩ :=
          seeded.exists_again complete grows through
        rw [Pager.page_missed limit through.small hmem (hstore ▸ through.history.length_le) small,
          Pager.page_missed limit through.large hmem through.historyLarger.length_le large, hstore]
        exact grows.pageOf hagain _ _

end HistoryWalk

/-! ### Walks of resolutions -/

theorem Repository.Complete.holds_of_resolve (complete : repo.Complete)
    (hresolve : ((repo.resolve text).on (.empty policy capacity)).1 = .ok (some resolution)) :
    repo.Holds resolution.revision.peeledId ∧
      ∀ old, resolution.old = some old → repo.Holds old.peeledId := by
  unfold Repository.resolve at hresolve
  split at hresolve
  · cases hresolve
  · next expression hread =>
      have hgives : Gives (repo.resolveExpression expression) (.empty policy capacity)
          (some resolution) ((repo.resolveExpression expression).on (.empty policy capacity)).2 :=
        Prod.ext hresolve rfl
      obtain ⟨_, hpeels, hold⟩ :=
        Repository.resolveExpression_discloses VisibilityMemo.justified_empty hgives
      refine ⟨hpeels.holds_right, fun old heq => ?_⟩
      have hcompare := hold old heq
      cases expression with
      | single text => exact hcompare.elim
      | range oldText new =>
          rcases hcompare old.peeledId (.inr rfl) with discloses | path
          · exact complete.holds_of_discloses discloses
          · exact Repository.holds_of_isCommit path.isCommit_right
      | againstParent name rest =>
          obtain ⟨hparent, hsame⟩ := hcompare
          rw [hsame]
          exact Repository.holds_of_isCommit (complete.parents (List.mem_of_head? hparent))

namespace HistoryWalk

variable {walk : HistoryWalk}

theorem requireCommit_larger (within : repo.Within larger) (hstore : walk.repo = repo)
    (holds : repo.Holds id) :
    ({ walk with repo := larger } : HistoryWalk).requireCommit id = walk.requireCommit id := by
  unfold requireCommit
  rw [hstore, within.kind holds]

theorem push_larger (within : repo.Within larger) (hstore : walk.repo = repo) (holds : repo.Holds id) :
    ({ walk with repo := larger } : HistoryWalk).push id =
      (walk.push id).map fun pushed : HistoryWalk => { pushed with repo := larger } := by
  unfold push
  rw [requireCommit_larger within hstore holds]
  cases walk.requireCommit id with
  | error fault => rfl
  | ok _ => rfl

theorem hide_larger (within : repo.Within larger) (hstore : walk.repo = repo) (holds : repo.Holds id) :
    ({ walk with repo := larger } : HistoryWalk).hide id =
      (walk.hide id).map fun hidden : HistoryWalk => { hidden with repo := larger } := by
  unfold hide
  rw [requireCommit_larger within hstore holds]
  cases walk.requireCommit id with
  | error fault => rfl
  | ok _ => rfl

theorem seeded_of_push {pushed : HistoryWalk} (hpush : (HistoryWalk.new repo).push id = .ok pushed) :
    pushed.Seeded repo := by
  obtain ⟨_, hcommit, hpushed⟩ := except_bind_eq_ok_iff.mp hpush
  exact Except.ok.inj hpushed ▸ seeded_push ((requireCommit_eq_ok_iff rfl).mp hcommit)

theorem Seeded.of_hide {hidden : HistoryWalk} (seeded : walk.Seeded repo)
    (hhide : walk.hide id = .ok hidden) : hidden.Seeded repo := by
  obtain ⟨_, hcommit, hhidden⟩ := except_bind_eq_ok_iff.mp hhide
  exact Except.ok.inj hhidden ▸ seeded.hide ((requireCommit_eq_ok_iff seeded.store).mp hcommit)

end HistoryWalk

namespace Resolution

theorem seeded_of_walk {walk : HistoryWalk} (hwalk : resolution.walk repo = .ok walk) :
    walk.Seeded repo := by
  obtain ⟨pushed, hpush, hrest⟩ := except_bind_eq_ok_iff.mp hwalk
  have seeded := HistoryWalk.seeded_of_push hpush
  split at hrest
  · exact Except.ok.inj hrest ▸ seeded
  · exact seeded.of_hide hrest

theorem walk_larger (within : repo.Within larger) (holds : repo.Holds resolution.revision.peeledId)
    (holdsOld : ∀ old, resolution.old = some old → repo.Holds old.peeledId) :
    resolution.walk larger =
      (resolution.walk repo).map fun walk : HistoryWalk => { walk with repo := larger } := by
  have hempty : (HistoryWalk.new repo).repo = repo := rfl
  have hnew : (HistoryWalk.new larger).push resolution.revision.peeledId = _ :=
    HistoryWalk.push_larger within hempty holds
  unfold Resolution.walk
  rw [hnew]
  cases hpush : (HistoryWalk.new repo).push resolution.revision.peeledId with
  | error fault => rfl
  | ok pushed =>
      have hstore : pushed.repo = repo := (HistoryWalk.seeded_of_push hpush).store
      cases hcompare : resolution.old with
      | none => rfl
      | some old => exact HistoryWalk.hide_larger within hstore (holdsOld old hcompare)

end Resolution

/-! ### Tags -/

namespace TimeMemo

variable {memo : TimeMemo} {refs : List RefEntry}

theorem deriveWithin_larger {last : ObjectId} {links steps more : Nat} (grows : repo.Grows larger)
    (peels : repo.PeelsIn links id last) (henough : links < steps) (hmore : links < more) :
    memo.deriveWithin larger more id = memo.deriveWithin repo steps id := by
  -- On the chain, which is the same in both stores; the steps left stay more than its links.
  induction peels generalizing steps more with
  | @stop id object stored plain =>
      obtain ⟨steps, rfl⟩ := Nat.exists_eq_succ_of_ne_zero (by omega : steps ≠ 0)
      obtain ⟨more, rfl⟩ := Nat.exists_eq_succ_of_ne_zero (by omega : more ≠ 0)
      rw [deriveWithin, deriveWithin, stored, grows stored]
      cases object with
      | tag tag => exact absurd rfl plain
      | commit commit => rfl
      | tree => rfl
      | blob => rfl
  | @tag links id last tag stored _ ih =>
      obtain ⟨steps, rfl⟩ := Nat.exists_eq_succ_of_ne_zero (by omega : steps ≠ 0)
      obtain ⟨more, rfl⟩ := Nat.exists_eq_succ_of_ne_zero (by omega : more ≠ 0)
      have hrest : memo.deriveWithin larger more tag.target = memo.deriveWithin repo steps tag.target :=
        ih (by omega) (by omega)
      rw [deriveWithin, deriveWithin, stored, grows stored]
      obtain ⟨target, time⟩ := tag
      cases time with
      | some time => rfl
      | none =>
          dsimp only at hrest
          simp only [bind, Except.bind, hrest]

section Larger

variable (within : repo.Within larger) (complete : repo.Complete)
include within complete

theorem time_larger (holds : repo.Holds id) : memo.time larger id = memo.time repo id := by
  have hgrows : repo.Grows larger := within.grows
  obtain ⟨last, peels⟩ := complete.exists_peelsTo holds
  obtain ⟨links, hlinks⟩ := peels.exists_links
  have hderive : memo.derive larger id = memo.derive repo id :=
    deriveWithin_larger hgrows hlinks hlinks.lt_steps (hlinks.grow hgrows).lt_steps
  simp only [time, hderive]

theorem tagEntries_larger (holds : ∀ ref ∈ refs, repo.Holds ref.target) :
    memo.tagEntries larger refs = memo.tagEntries repo refs := by
  induction refs generalizing memo with
  | nil => rfl
  | cons ref rest ih =>
      obtain ⟨href, hrest⟩ := List.forall_mem_cons.mp holds
      rw [tagEntries, tagEntries, time_larger within complete href]
      simp only [ih hrest]

theorem listTags_larger (limit : Option Nat) :
    memo.listTags larger limit = memo.listTags repo limit := by
  unfold listTags
  rw [within.listRefsUnder complete]
  cases hlisted : repo.listRefsUnder RefName.tags with
  | error fault => rfl
  | ok refs =>
      have holds : ∀ ref ∈ refs, repo.Holds ref.target := by
        intro ref hmem
        unfold Repository.listRefsUnder at hlisted
        split at hlisted
        · cases hlisted
        · exact complete.holds_of_points
            (Repository.points_of_listedTarget? ((Repository.mem_entries hlisted).mp hmem).2.1)
      simp only [tagEntries_larger within complete holds]

end Larger

end TimeMemo

end GuardedRevision
