import GuardedRevision.Proofs.Enumeration
import GuardedRevision.Proofs.NothingHidden
import GuardedRevision.Proofs.Ranges

/-!
# Replays

A walk that is rewound has the seeds of its first pass, however they came and however far it went, and goes
through the same sequence again while nothing is hidden. Where something is hidden it may not: marks go
further over what the first pass has read, and ties are broken by where the hidden commits stand among the
seeds. The two passes still agree on all that no hidden commit reaches. A store promises that a pass gives
nothing that a hidden commit reaches, and that no two commits between which it chooses are equally new. When
the first pass keeps this promise, the second is the same just when it, too, gives nothing that a hidden
commit reaches.
-/

namespace GuardedRevision

variable {repo : Repository} {id : ObjectId} {commits others pending later : List ObjectId} {steps : Nat}

/-! ### The newest first -/

namespace Repository

/-- Time and again the first of the commits is the newest of those that have no child among the ones still
to come. -/
inductive Emits (repo : Repository) : List ObjectId → Prop where
  | nil : Emits repo []
  | cons {id : ObjectId} {later : List ObjectId} (ready : repo.isReady (id :: later) id = true)
      (newest : ∀ other ∈ later, repo.isReady (id :: later) other = true →
        repo.commitTime other ≤ repo.commitTime id)
      (rest : Emits repo later) : Emits repo (id :: later)

/-- No two commits are ever equally new where one of them is to be chosen. -/
inductive Untied (repo : Repository) : List ObjectId → Prop where
  | nil : Untied repo []
  | cons {id : ObjectId} {later : List ObjectId}
      (newer : ∀ other ∈ later, repo.isReady (id :: later) other = true →
        repo.commitTime other ≠ repo.commitTime id)
      (rest : Untied repo later) : Untied repo (id :: later)

theorem commitTime_le_of_newest? (hnewest : repo.newest? pending = some id) :
    ∀ other ∈ pending, repo.commitTime other ≤ repo.commitTime id := by
  induction pending generalizing id with
  | nil => exact List.forall_mem_nil _
  | cons first rest ih =>
      rw [newest?] at hnewest
      split at hnewest
      · next hnone =>
          obtain rfl : rest = [] := by
            by_contra hne
            obtain ⟨other, hother⟩ : ∃ other, repo.newest? rest = some other := exists_newest? hne
            rw [hnone] at hother
            cases hother
          cases hnewest
          simp
      · next newest hrest =>
          have hall := ih hrest
          split at hnewest
          · next hle =>
              cases hnewest
              exact List.forall_mem_cons.mpr
                ⟨Int.le_refl _, fun other hother => (hall other hother).trans hle⟩
          · next hlt =>
              cases hnewest
              exact List.forall_mem_cons.mpr ⟨by omega, hall⟩

theorem isReady_congr (hsame : ∀ other, other ∈ commits ↔ other ∈ others) (id : ObjectId) :
    repo.isReady commits id = repo.isReady others id := by
  rw [Bool.eq_iff_iff, isReady_iff, isReady_iff]
  simp only [hsame]

theorem emits_orderWithin (acyclic : ∀ id, ¬ repo.LeadsTo id id) (henough : pending.length ≤ steps) :
    repo.Emits (repo.orderWithin steps pending) := by
  induction steps generalizing pending with
  | zero => exact .nil
  | succ steps ih =>
      cases horder : repo.orderWithin (steps + 1) pending with
      | nil => exact .nil
      | cons id later =>
          have hperm : (id :: later).Perm pending := horder ▸ orderWithin_perm acyclic henough
          have hready : ∀ other, repo.isReady (id :: later) other = repo.isReady pending other :=
            isReady_congr fun _ => hperm.mem_iff
          simp only [orderWithin] at horder
          split at horder
          · cases horder
          · next chosen hchosen =>
              cases horder
              have hmem := mem_of_newest? hchosen
              refine .cons ?_ (fun other hother hfree => ?_) (ih ?_)
              · rw [hready]
                exact (List.mem_filter.mp hmem).2
              · rw [hready] at hfree
                exact commitTime_le_of_newest? hchosen other
                  (List.mem_filter.mpr ⟨hperm.subset (List.mem_cons_of_mem _ hother), hfree⟩)
              · rw [List.length_erase_of_mem (List.mem_of_mem_filter hmem)]
                omega

theorem emits_order (acyclic : ∀ id, ¬ repo.LeadsTo id id) (commits : List ObjectId) :
    repo.Emits (repo.order commits) :=
  emits_orderWithin acyclic (Nat.le_refl _)

/-- What is left out holds back none of what is kept when it has no parent there. -/
theorem Emits.filter {keep : ObjectId → Bool} (emits : repo.Emits commits)
    (hclosed : ∀ child ∈ commits, ∀ parent ∈ commits, keep parent = true →
      parent ∈ repo.parentsOf child → keep child = true) : repo.Emits (commits.filter keep) := by
  induction emits with
  | nil => exact .nil
  | @cons id later ready newest _ ih =>
      have hrest := ih fun child hchild parent hparent =>
        hclosed child (List.mem_cons_of_mem _ hchild) parent (List.mem_cons_of_mem _ hparent)
      by_cases hkeep : keep id = true
      · rw [List.filter_cons_of_pos hkeep]
        -- Whatever is ready among what is kept was so before anything was left out.
        have hready : ∀ other ∈ id :: later, keep other = true →
            repo.isReady (id :: later.filter keep) other = true →
              repo.isReady (id :: later) other = true := by
          intro other hother hkept hfree
          rw [isReady_iff] at hfree ⊢
          intro child hchild hparent
          have hchildKept := hclosed child hchild other hother hkept hparent
          refine hfree child ?_ hparent
          rw [← List.filter_cons_of_pos hkeep]
          exact List.mem_filter.mpr ⟨hchild, hchildKept⟩
        refine .cons ?_ (fun other hother hfree => ?_) hrest
        · rw [isReady_iff] at ready ⊢
          rw [← List.filter_cons_of_pos hkeep]
          exact fun child hchild => ready child (List.mem_of_mem_filter hchild)
        · obtain ⟨hmem, hkept⟩ := List.mem_filter.mp hother
          exact newest other hmem (hready other (List.mem_cons_of_mem _ hmem) hkept hfree)
      · rw [List.filter_cons_of_neg hkeep]
        exact hrest

/-- Without ties there is one way to give the same commits. -/
theorem Emits.eq_of_untied (emits : repo.Emits commits) (emitsOthers : repo.Emits others)
    (untied : repo.Untied commits) (hnodup : commits.Nodup) (hnodupOthers : others.Nodup)
    (hsame : ∀ id, id ∈ commits ↔ id ∈ others) : commits = others := by
  induction emits generalizing others with
  | nil => exact (List.eq_nil_iff_forall_not_mem.mpr fun id hid => by simpa using (hsame id).mpr hid).symm
  | @cons id later ready newest _ ih =>
      cases emitsOthers with
      | nil => exact absurd ((hsame id).mp List.mem_cons_self) List.not_mem_nil
      | @cons other rest readyOther newestOther emitsRest =>
          cases untied with
          | cons newer untied =>
              have hready : ∀ one, repo.isReady (id :: later) one = repo.isReady (other :: rest) one :=
                isReady_congr hsame
              obtain rfl : id = other := by
                by_contra hne
                have hother : other ∈ later :=
                  List.mem_of_ne_of_mem (Ne.symm hne) ((hsame other).mpr List.mem_cons_self)
                have hid : id ∈ rest := List.mem_of_ne_of_mem hne ((hsame id).mp List.mem_cons_self)
                have hfree : repo.isReady (id :: later) other = true := (hready other).trans readyOther
                have hle := newest other hother hfree
                have hge := newestOther id hid ((hready id).symm.trans ready)
                exact newer other hother hfree (Int.le_antisymm hle hge)
              obtain ⟨hnew, hnodup⟩ := List.nodup_cons.mp hnodup
              obtain ⟨hnewOther, hnodupRest⟩ := List.nodup_cons.mp hnodupOthers
              rw [ih emitsRest untied hnodup hnodupRest fun other => ?_]
              have hboth := hsame other
              rw [List.mem_cons, List.mem_cons] at hboth
              constructor
              · intro hmem
                exact (hboth.mp (.inr hmem)).resolve_left (ne_of_mem_of_not_mem hmem hnew)
              · intro hmem
                exact (hboth.mpr (.inr hmem)).resolve_left (ne_of_mem_of_not_mem hmem hnewOther)

end Repository

/-! ### What a pass has read -/

namespace Pass

variable {pass fixed : Pass} {starts hidden : List ObjectId}

/-- Where a pass may stand: before its first step, within what it gathered, or at its end. -/
inductive Stands (repo : Repository) (starts hidden : List ObjectId) (pass : Pass) : Prop where
  | ready (ready : pass.Ready repo starts hidden)
  | gathered (gathered : pass.Gathered)
  | ended (begun : pass.begun = false) (pushed : pass.pushed = false)

theorem Gathered.stands_next (gathered : pass.Gathered) : (pass.next repo).2.Stands repo starts hidden ∧
    (pass.next repo).2.search.read = pass.search.read := by
  cases hupcoming : pass.upcoming with
  | nil =>
      rw [gathered.next_nil hupcoming]
      exact ⟨.ended rfl rfl, rfl⟩
  | cons id later =>
      obtain ⟨after, hnext, hafter, _, hspent⟩ := gathered.next_cons repo hupcoming
      rw [hnext]
      exact ⟨.gathered hafter, congrArg (fun pass => pass.search.read) hspent⟩

/-- One step: the pass stands somewhere again, and it has read nothing but commits. -/
theorem Stands.next (stands : pass.Stands repo starts hidden) (complete : repo.Complete)
    (hstarts : ∀ id ∈ starts, repo.isCommit id = true) (hhidden : ∀ id ∈ hidden, repo.isCommit id = true)
    (hread : ∀ id ∈ pass.search.read, repo.isCommit id = true) :
    (pass.next repo).2.Stands repo starts hidden ∧
      ∀ id ∈ (pass.next repo).2.search.read, repo.isCommit id = true := by
  have hidle : pass.begun = false → pass.pushed = false → pass.next repo = (.ok none, pass) :=
    fun hbegun hpushed => by rw [Pass.next, if_pos (by simp [hbegun, hpushed])]
  cases stands with
  | ready ready =>
      cases hpushed : pass.pushed with
      | false =>
          rw [hidle ready.begun hpushed]
          exact ⟨.ready ready, hread⟩
      | true =>
          obtain ⟨fixed, hstarted⟩ := ready.exists_started (fun _ _ => complete.parents) hstarts hhidden
          obtain ⟨gathered, _⟩ := ready.started_gives hhidden hstarted
          obtain ⟨_, _, _, _, hcommits⟩ := ready.started_grows (Repository.Grows.refl repo) hhidden hstarted
          rw [next_of_started hpushed hstarted gathered.begun]
          obtain ⟨stands, hsame⟩ : (fixed.next repo).2.Stands repo starts hidden ∧ _ := gathered.stands_next
          exact ⟨stands, hsame ▸ hcommits⟩
  | gathered gathered =>
      obtain ⟨stands, hsame⟩ : (pass.next repo).2.Stands repo starts hidden ∧ _ := gathered.stands_next
      exact ⟨stands, hsame ▸ hread⟩
  | ended hbegun hpushed =>
      rw [hidle hbegun hpushed]
      exact ⟨.ended hbegun hpushed, hread⟩

end Pass

/-! ### Successful calls -/

theorem Pass.seeds_foldl_push {pass : Pass} (hnone : pass.search.unwanted = []) (ids : List ObjectId) :
    (ids.foldl push pass).seeds = ids.reverse ++ pass.seeds := by
  induction ids generalizing pass with
  | nil => rfl
  | cons id rest ih =>
      have hrest : (rest.foldl push { pass with seeds := id :: pass.seeds, pushed := true }).seeds =
          rest.reverse ++ id :: pass.seeds := ih hnone
      rw [List.foldl_cons, push_of_unhidden hnone, hrest, List.reverse_cons, List.append_cons]

namespace HistoryWalk

variable {walk after : HistoryWalk} {seeds more : List Seed} {seed : Seed} {pass : Pass}

/-- While nothing is hidden, a pass has for seeds what was pushed, the last first. -/
def LastFirst (walk : HistoryWalk) : Prop := walk.hidden = [] → walk.pass.seeds = walk.starts.reverse

theorem Sown.lastFirst_pushCommit (sown : walk.Sown repo seeds) (lastFirst : walk.LastFirst) :
    (walk.pushCommit id).LastFirst := by
  intro (hhidden : walk.hidden = [])
  have ready : walk.pass.Ready repo walk.starts [] := hhidden ▸ sown.ready
  rw [pushCommit, Pass.push_of_unhidden ready.unwanted_eq_nil, List.reverse_concat]
  exact congrArg (id :: ·) (lastFirst hhidden)

theorem Sown.of_sow (sown : walk.Sown repo seeds) (lastFirst : walk.LastFirst)
    (hsow : walk.sow seed = .ok after) : after.Sown repo (seeds ++ [seed]) ∧ after.LastFirst ∧
      ∀ id, seed = .push id ∨ seed = .hide id → repo.isCommit id = true := by
  cases seed with
  | push id =>
      obtain ⟨_, hrequire, hafter⟩ := except_bind_eq_ok_iff.mp hsow
      cases hafter
      refine ⟨sown.push hsow, sown.lastFirst_pushCommit lastFirst, ?_⟩
      rintro _ (heq | heq)
      · cases heq
        exact (requireCommit_eq_ok_iff sown.store).mp hrequire
      · cases heq
  | hide id =>
      obtain ⟨_, hrequire, hafter⟩ := except_bind_eq_ok_iff.mp hsow
      cases hafter
      have hsome : (walk.hideCommit id).hidden ≠ [] := List.append_ne_nil_of_right_ne_nil _ (by simp)
      refine ⟨sown.hide hsow, fun hnone => absurd hnone hsome, ?_⟩
      rintro _ (heq | heq)
      · cases heq
      · cases heq
        exact (requireCommit_eq_ok_iff sown.store).mp hrequire
  | firstParent =>
      cases hsow
      exact ⟨sown.firstParentOnly, lastFirst, by simp⟩

theorem Sown.of_foldlM (sown : walk.Sown repo seeds) (lastFirst : walk.LastFirst)
    (hrun : more.foldlM sow walk = .ok after) : after.Sown repo (seeds ++ more) ∧ after.LastFirst ∧
      ∀ id, Seed.push id ∈ more ∨ Seed.hide id ∈ more → repo.isCommit id = true := by
  induction more generalizing walk seeds with
  | nil =>
      cases hrun
      rw [List.append_nil]
      exact ⟨sown, lastFirst, by simp⟩
  | cons seed more ih =>
      rw [List.foldlM_cons] at hrun
      obtain ⟨middle, hsow, hrest⟩ := except_bind_eq_ok_iff.mp hrun
      obtain ⟨hmiddle, hlast, hfirst⟩ := sown.of_sow lastFirst hsow
      obtain ⟨hafter, hlastAfter, hlater⟩ := ih hmiddle hlast hrest
      rw [List.append_cons]
      refine ⟨hafter, hlastAfter, fun id hid => ?_⟩
      rw [List.mem_cons, List.mem_cons, or_or_or_comm] at hid
      exact hid.elim (fun h => hfirst id (h.imp Eq.symm Eq.symm)) (hlater id)

theorem sown_of_eq_ok (hsown : repo.sown seeds = .ok walk) : walk.Sown repo seeds ∧ walk.LastFirst ∧
    ∀ id, Seed.push id ∈ seeds ∨ Seed.hide id ∈ seeds → repo.isCommit id = true :=
  (Sown.new repo).of_foldlM (fun _ => rfl) hsown

/-! ### Rewinding -/

/-- The walk after so many steps, some of them perhaps past its end. -/
def pulled (walk : HistoryWalk) (count : Nat) : HistoryWalk :=
  Nat.iterate (fun walk => walk.next.2) count walk

theorem Built.pulled (built : walk.Built) (count : Nat) : (walk.pulled count).Built := by
  induction count generalizing walk with
  | zero => exact built
  | succ count ih => exact ih built.next

/-- Steps change nothing but the pass. -/
theorem exists_pass_of_pulled (complete : repo.Complete) (hstore : walk.repo = repo)
    (hstarts : ∀ id ∈ walk.starts, repo.isCommit id = true)
    (hhidden : ∀ id ∈ walk.hidden, repo.isCommit id = true)
    (stands : walk.pass.Stands repo walk.starts walk.hidden)
    (hread : ∀ id ∈ walk.pass.search.read, repo.isCommit id = true) (count : Nat) :
    ∃ pass, walk.pulled count = { walk with pass := pass } ∧
      ∀ id ∈ pass.search.read, repo.isCommit id = true := by
  induction count generalizing walk with
  | zero => exact ⟨walk.pass, rfl, hread⟩
  | succ count ih =>
      obtain ⟨hafter, hreadAfter⟩ := stands.next complete hstarts hhidden hread
      have hnext : walk.next.2 = { walk with pass := (walk.pass.next repo).2 } := by
        rw [← hstore]
        rfl
      rw [show walk.pulled (count + 1) = walk.next.2.pulled count from rfl, hnext]
      exact ih hstore hstarts hhidden hafter hreadAfter

namespace Sown

variable (sown : walk.Sown repo seeds)
include sown

/-- Rewound, a walk has the seeds that it had, whatever its pass has come to. -/
theorem rewind (built : ({ walk with pass := pass } : HistoryWalk).Built)
    (hread : ∀ id ∈ pass.search.read, repo.isCommit id = true) :
    ({ walk with pass := pass } : HistoryWalk).rewind.Sown repo seeds where
  built := built.rewind
  store := sown.store
  ready := ready_rewind hread
  follows := (Pass.firstParent_foldl_hide _).trans (Pass.firstParent_foldl_push _)
  idle := by
    by_cases hsome : walk.starts = []
    · exact .inr (hsome ▸ List.nil_subset _)
    · exact .inl ((Pass.pushed_foldl_hide _).trans (Pass.pushed_foldl_push rfl (.inr hsome)))
  starts := sown.starts
  hidden := sown.hidden
  firstParent := sown.firstParent

theorem rewind_pulled (complete : repo.Complete)
    (hcommits : ∀ id, Seed.push id ∈ seeds ∨ Seed.hide id ∈ seeds → repo.isCommit id = true)
    (count : Nat) : ∃ pass, (walk.pulled count).rewind = ({ walk with pass := pass } : HistoryWalk).rewind ∧
      ({ walk with pass := pass } : HistoryWalk).rewind.Sown repo seeds := by
  obtain ⟨pass, hpulled, hread⟩ := exists_pass_of_pulled complete sown.store
    (fun id hid => hcommits id (.inl ((sown.starts id).mp hid)))
    (fun id hid => hcommits id (.inr ((sown.hidden id).mp hid))) (.ready sown.ready) sown.ready.read count
  exact ⟨pass, congrArg _ hpulled, sown.rewind (hpulled ▸ sown.built.pulled count) hread⟩

end Sown

end HistoryWalk

/-! ### The same sequence -/

/-- What a store promises of a pass and its search does not ensure: it gives nothing that a hidden commit
reaches, and where it chooses, no two commits are equally new. -/
structure Repository.Promised (repo : Repository) (hidden commits : List ObjectId) : Prop where
  hides : ∀ id ∈ commits, ¬ repo.ReachedBy hidden id
  untied : repo.Untied commits

theorem Pass.Ready.emits_upcoming {pass fixed : Pass} {starts hidden : List ObjectId}
    (ready : pass.Ready repo starts hidden) (complete : repo.Complete)
    (hhidden : ∀ id ∈ hidden, repo.isCommit id = true) (hstarted : pass.started repo = (.ok (), fixed))
    (hides : ∀ id ∈ fixed.upcoming, ¬ repo.ReachedBy hidden id) : repo.Emits fixed.upcoming := by
  obtain ⟨_, hprepare, rfl⟩ := (started_eq_ok_iff ready.begun).mp hstarted
  obtain ⟨_, found, last, hseed, hgather, rfl⟩ := (ready.prepare_gives_iff hhidden).mp hprepare
  obtain ⟨hseeded, _⟩ := ready.seedAll_sound hhidden hseed
  have hmarked := (hgather.sound hseeded).1.marked
  refine (Repository.emits_order complete.acyclic found).filter fun child _ parent hparent hkeep hlink => ?_
  -- A child that was marked would be reached by what is hidden, and its parent with it.
  rw [Bool.not_eq_true', Bool.eq_false_iff]
  intro hmark
  have hreached := hmarked child (Search.isUnwanted_iff.mp hmark)
  exact hides parent (List.mem_filter.mpr ⟨hparent, hkeep⟩)
    (hreached.trans (.parent hlink (.refl (complete.parents hlink))))

namespace HistoryWalk

variable {walk last ended : HistoryWalk} {seeds : List Seed} {pass : Pass}

section Sown

variable (sown : walk.Sown repo seeds) (complete : repo.Complete)
  (hcommits : ∀ id, Seed.push id ∈ seeds ∨ Seed.hide id ∈ seeds → repo.isCommit id = true)
include sown complete hcommits

/-- What a sown walk goes through is fixed by its seeds when it gives nothing that a hidden commit reaches:
which commits, and in which order they come. -/
theorem Sown.emits_of_hides (runs : walk.Runs commits last)
    (hides : ∀ id ∈ commits, ¬ repo.ReachedBy walk.hidden id) :
    repo.Emits commits ∧ commits.Nodup ∧
      ∀ id, id ∈ commits ↔ repo.FollowedBy walk.firstParent walk.starts id ∧
        ¬ repo.ReachedBy walk.hidden id := by
  have hlists : walk.Lists repo commits → commits.Nodup ∧ ∀ id, id ∈ commits ↔
      repo.FollowedBy walk.firstParent walk.starts id ∧ ¬ repo.ReachedBy walk.hidden id := fun lists =>
    ⟨lists.history.nodup, fun id => ⟨fun hid => ⟨lists.history.followed id hid, hides id hid⟩,
      fun ⟨hfollowed, hfree⟩ => (lists.mem_iff complete hfree).mpr hfollowed⟩⟩
  cases hpushed : walk.pass.pushed with
  | false =>
      obtain ⟨hnone, lists⟩ := sown.runs_idle hpushed
      obtain ⟨rfl, _⟩ := hnone.unique runs
      exact ⟨.nil, hlists lists⟩
  | true =>
      obtain ⟨fixed, _, hstarted, hruns, lists⟩ := sown.exists_started complete hcommits hpushed
      obtain ⟨rfl, _⟩ := hruns.unique runs
      have hhidden : ∀ id ∈ walk.hidden, repo.isCommit id = true := fun id hid =>
        hcommits id (.inr ((sown.hidden id).mp hid))
      exact ⟨sown.ready.emits_upcoming complete hhidden hstarted hides, hlists lists⟩

theorem Sown.runs_nil (hnone : walk.starts = []) (runs : walk.Runs commits last) : commits = [] := by
  obtain ⟨found, _, hfound, lists⟩ := sown.exists_runs complete hcommits
  obtain ⟨rfl, _⟩ := hfound.unique runs
  refine List.eq_nil_iff_forall_not_mem.mpr fun id hid => ?_
  obtain ⟨start, hstart, _⟩ := lists.history.followed id hid
  rw [hnone] at hstart
  exact List.not_mem_nil hstart

theorem Sown.hides_of_range {old new : ObjectId} (inTime : repo.HidesInTime old new)
    (hstarts : walk.starts = [new]) (hhidden : walk.hidden = [old]) (hseeds : walk.pass.seeds = [old, new])
    (hfollows : walk.pass.firstParent = false) (hpushed : walk.pass.pushed = true)
    (runs : walk.Runs commits last) : ∀ id ∈ commits, ¬ repo.ReachedBy walk.hidden id := by
  obtain ⟨fixed, _, hstarted, hruns, _⟩ := sown.exists_started complete hcommits hpushed
  obtain ⟨rfl, _⟩ := hruns.unique runs
  have ready : walk.pass.Ready repo [new] [old] := hstarts ▸ hhidden ▸ sown.ready
  have hold : repo.isCommit old = true :=
    hcommits old (.inr ((sown.hidden old).mp (hhidden ▸ List.mem_cons_self)))
  rintro id hid ⟨root, hroot, reaches⟩
  obtain rfl : root = old := List.mem_singleton.mp (hhidden ▸ hroot)
  exact ready.not_reaches_of_upcoming hseeds hfollows (fun _ _ => complete.parents) hold inTime hstarted
    id hid reaches

variable (sownAgain : ({ walk with pass := pass } : HistoryWalk).rewind.Sown repo seeds)
  (runs : walk.Runs commits last)
  (runsAgain : ({ walk with pass := pass } : HistoryWalk).rewind.Runs others ended)
include sownAgain runs runsAgain

/-- Without ties, both passes go through the same commits if neither gives what a hidden commit reaches. -/
theorem Sown.replay_of_hides (hides : ∀ id ∈ commits, ¬ repo.ReachedBy walk.hidden id)
    (hidesAgain : ∀ id ∈ others, ¬ repo.ReachedBy walk.hidden id) (untied : repo.Untied commits) :
    others = commits := by
  obtain ⟨emits, hnodup, hmem⟩ := sown.emits_of_hides complete hcommits runs hides
  obtain ⟨emitsAgain, hnodupAgain, hmemAgain⟩ :=
    sownAgain.emits_of_hides complete hcommits runsAgain hidesAgain
  exact (emits.eq_of_untied emitsAgain untied hnodup hnodupAgain fun id =>
    (hmem id).trans (hmemAgain id).symm).symm

/-- Where nothing is hidden both passes begin with the same seeds, so ties are broken alike. -/
theorem Sown.replay_of_nothing_hidden (lastFirst : walk.LastFirst) (hnone : walk.hidden = []) :
    others = commits := by
  by_cases hidle : walk.starts = []
  · rw [sown.runs_nil complete hcommits hidle runs, sownAgain.runs_nil complete hcommits hidle runsAgain]
  · have hsome : ¬ walk.starts ⊆ walk.hidden := fun hsubset =>
      hidle (List.subset_nil.mp (hnone ▸ hsubset))
    have hpushed := sown.idle.resolve_right hsome
    have hpushedAgain := sownAgain.idle.resolve_right hsome
    have hseeds : ({ walk with pass := pass } : HistoryWalk).rewind.pass.seeds = walk.pass.seeds := by
      rw [lastFirst hnone, HistoryWalk.rewind, hnone]
      exact (Pass.seeds_foldl_push rfl walk.starts).trans (List.append_nil _)
    have hfollows := sownAgain.follows.trans sown.follows.symm
    obtain ⟨fixed, _, hstarted, hruns, _⟩ := sown.exists_started complete hcommits hpushed
    obtain ⟨fixedAgain, _, hstartedAgain, hrunsAgain, _⟩ :=
      sownAgain.exists_started complete hcommits hpushedAgain
    have ready : walk.pass.Ready repo walk.starts [] := hnone ▸ sown.ready
    obtain ⟨_, hsame, hupcoming⟩ :=
      ready.upcoming_eq (hnone ▸ sownAgain.ready) hseeds hfollows hstarted
    cases hstartedAgain.symm.trans hsame
    rw [← (hruns.unique runs).1, ← (hrunsAgain.unique runsAgain).1, hupcoming]

end Sown

end HistoryWalk

namespace Repository

variable {seeds : List Seed} {walk : HistoryWalk}

/-- How the pass that goes through `others` after a rewind stands to the first one, through `commits`. -/
structure Replays (repo : Repository) (seeds : List Seed) (hidden commits others : List ObjectId) :
    Prop where
  agrees : ∀ id, ¬ repo.ReachedBy hidden id → (id ∈ others ↔ id ∈ commits)
  unhidden : hidden = [] → others = commits
  promised : repo.Promised hidden commits →
    (others = commits ↔ ∀ id ∈ others, ¬ repo.ReachedBy hidden id)
  range : ∀ old new, seeds = [.push new, .hide old] → repo.HidesInTime old new → repo.Untied commits →
    others = commits

/-- However a walk was sown and whenever it is rewound, it comes to its end again, and what it goes through
can differ from the first pass only where something is hidden. -/
theorem Complete.rewind_replays (complete : repo.Complete) (hsown : repo.sown seeds = .ok walk)
    (count : Nat) : ∃ commits last others ended,
      walk.Runs commits last ∧ (walk.pulled count).rewind.Runs others ended ∧
      repo.Replays seeds walk.hidden commits others := by
  obtain ⟨sown, lastFirst, hcommits⟩ := HistoryWalk.sown_of_eq_ok hsown
  obtain ⟨commits, last, runs, lists⟩ := sown.exists_runs complete hcommits
  obtain ⟨pass, hpulled, sownAgain⟩ := sown.rewind_pulled complete hcommits count
  obtain ⟨others, ended, runsAgain, listsAgain⟩ := sownAgain.exists_runs complete hcommits
  have hreplay := sown.replay_of_hides complete hcommits sownAgain runs runsAgain
  exact ⟨commits, last, others, ended, runs, hpulled ▸ runsAgain, {
    agrees := fun id hfree =>
      (listsAgain.mem_iff complete hfree).trans (lists.mem_iff complete hfree).symm
    unhidden := sown.replay_of_nothing_hidden complete hcommits sownAgain runs runsAgain lastFirst
    promised := fun promised =>
      ⟨fun hsame => hsame ▸ promised.hides, fun hides => hreplay promised.hides hides promised.untied⟩
    range := by
      rintro old new rfl inTime untied
      have hnew : repo.isCommit new = true := hcommits new (.inl List.mem_cons_self)
      have hold : repo.isCommit old = true := hcommits old (.inr (by simp))
      cases (sown_range hnew hold).symm.trans hsown
      -- Both passes begin with the old side, so neither gives what it reaches.
      exact hreplay (sown.hides_of_range complete hcommits inTime rfl rfl rfl rfl rfl runs)
        (sownAgain.hides_of_range complete hcommits inTime rfl rfl rfl rfl rfl runsAgain) untied }⟩

/-- One commit is hidden first and last, and pushed in between. -/
def crossedSeeds (kept hidden : ObjectId) : List Seed :=
  [.hide hidden, .push skewedNew, .push kept, .push hidden, .hide hidden]

def crossedWalk (kept hidden : ObjectId) : HistoryWalk :=
  (((((HistoryWalk.new skewed).hideCommit hidden).pushCommit skewedNew).pushCommit kept).pushCommit
    hidden).hideCommit hidden

theorem rewind_replays_skewed :
    let walk := crossedWalk (.repeating 7) (.repeating 9)
    skewed.Complete ∧ skewed.sown (crossedSeeds (.repeating 7) (.repeating 9)) = .ok walk ∧
      skewed.Promised walk.hidden [skewedNew, .repeating 7] ∧
      ∃ last ended, walk.Runs [skewedNew, .repeating 7] last ∧
        (walk.pulled 5).rewind.Runs [skewedNew, .repeating 7] ended := by
  intro walk
  have hsown : skewed.sown (crossedSeeds (.repeating 7) (.repeating 9)) = .ok walk := rfl
  have hcommits : ∀ id ∈ [skewedNew, .repeating 7], skewed.isCommit id = true := by decide +kernel
  have hstored : ∀ id ∈ walk.hidden, (skewed.object id).isOk = true := by decide +kernel
  have hholds : ∀ id ∈ walk.hidden, skewed.Holds id := fun id hid => holds_iff_isOk.mpr (hstored id hid)
  have hnone : ∀ id ∈ [skewedNew, .repeating 7],
      skewed.isReachableFrom id walk.hidden = .ok false := by decide +kernel
  have promised : skewed.Promised walk.hidden [skewedNew, .repeating 7] := {
    hides := fun id hid =>
      skewed_complete.not_reachedBy_of_isReachableFrom (hcommits id hid) hholds (hnone id hid)
    untied := .cons (by decide +kernel) (.cons (by decide +kernel) .nil) }
  have hruns : walk.Runs [skewedNew, .repeating 7] (walk.take 3).2 :=
    .of_take (by decide +kernel) (by decide)
  have hagain : (walk.pulled 5).rewind.Runs [skewedNew, .repeating 7] ((walk.pulled 5).rewind.take 3).2 :=
    .of_take (by decide +kernel) (by decide)
  obtain ⟨commits, last, others, ended, runs, runsAgain, replays⟩ :=
    skewed_complete.rewind_replays hsown 5
  obtain ⟨rfl, _⟩ := hruns.unique runs
  have hides : ∀ id ∈ others, ¬ skewed.ReachedBy walk.hidden id :=
    (hagain.unique runsAgain).1 ▸ promised.hides
  rw [(replays.promised promised).mpr hides] at runsAgain
  exact ⟨skewed_complete, hsown, promised, last, ended, runs, runsAgain⟩

/-- Rewound after one step, a walk misses a commit that its first pass goes through. -/
theorem rewound_skewed :
    let walk := ((HistoryWalk.new skewed).pushCommit skewedNew).hideCommit skewedOld
    skewed.Complete ∧ skewed.sown skewedSeeds = .ok walk ∧
      ∃ last ended, walk.Runs [skewedNew, .repeating 6, .repeating 7] last ∧
        (walk.pulled 1).rewind.Runs [skewedNew, .repeating 7] ended := by
  intro walk
  have hruns : walk.Runs [skewedNew, .repeating 6, .repeating 7] (walk.take 4).2 :=
    .of_take (by decide +kernel) (by decide)
  have hagain : (walk.pulled 1).rewind.Runs [skewedNew, .repeating 7] ((walk.pulled 1).rewind.take 3).2 :=
    .of_take (by decide +kernel) (by decide)
  exact ⟨skewed_complete, rfl, _, _, hruns, hagain⟩

end Repository

end GuardedRevision
