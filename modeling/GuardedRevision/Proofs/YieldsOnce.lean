import GuardedRevision.Proofs.Walks

/-!
# Each commit once

A walk goes through no commit twice, whatever was done with it before: after faults, after pushes and
hidings while it was going on, and also when it does not gather. What a search has taken from its queue
and what it still has there holds each wanted commit once, because only parents of unwanted commits are
queued again. So a walk over stored commits ends within as many steps as there are commits.
-/

namespace GuardedRevision

open Search Searching

/-- What was taken from the queue and what is left there has been seen, and the wanted part of it is
there once. -/
structure Search.Tidy (taken : List ObjectId) (search : Search) : Prop where
  known : ∀ id ∈ taken ++ search.queue, id ∈ search.seen
  once : ∀ id ∉ search.unwanted, (taken ++ search.queue).count id ≤ 1

variable {repo : Repository} {firstParent : Bool} {taken found seeds parents : List ObjectId}
  {before after expanded : Search} {id : ObjectId} {latest : Int} {left steps : Nat}

namespace Search.Tidy

theorem forget (tidy : before.Tidy taken) : before.Tidy [] where
  known := fun id hid => tidy.known id (List.mem_append_right taken hid)
  once := by
    intro id hid
    have honce := tidy.once id hid
    rw [List.count_append] at honce
    rw [List.nil_append]
    omega

theorem mark (tidy : before.Tidy taken) (hqueue : after.queue = before.queue)
    (hseen : after.seen = before.seen) (hsubset : before.unwanted ⊆ after.unwanted) :
    after.Tidy taken where
  known := hqueue ▸ hseen ▸ tidy.known
  once := fun id hid => hqueue ▸ tidy.once id fun h => hid (hsubset h)

theorem hideAncestors (tidy : before.Tidy taken) : (before.hideAncestors repo id).Tidy taken :=
  tidy.mark rfl rfl subset_hideAncestors

/-- What is unwanted may be queued again, and anything that has not been seen. -/
theorem add (tidy : before.Tidy taken) (hqueue : after.queue.Perm (id :: before.queue))
    (hseen : after.seen = id :: before.seen) (hmarks : after.unwanted = before.unwanted)
    (hwhy : id ∈ before.unwanted ∨ id ∉ before.seen) : after.Tidy taken where
  known := by
    intro other hother
    rw [hseen, List.mem_cons]
    rcases List.mem_append.mp hother with htaken | hin
    · exact .inr (tidy.known other (List.mem_append_left _ htaken))
    · exact (List.mem_cons.mp (hqueue.mem_iff.mp hin)).imp_right fun h =>
        tidy.known other (List.mem_append_right _ h)
  once := by
    intro other hother
    rw [hmarks] at hother
    have honce := tidy.once other hother
    rw [List.count_append] at honce
    rw [List.count_append, hqueue.count_eq]
    by_cases heq : other = id
    · subst heq
      have hnew : other ∉ taken ++ before.queue := fun h =>
        hwhy.resolve_left hother (tidy.known other h)
      rw [List.mem_append, not_or] at hnew
      rw [List.count_cons_self, List.count_eq_zero.mpr hnew.1, List.count_eq_zero.mpr hnew.2]
    · rwa [List.count_cons_of_ne (Ne.symm heq)]

theorem take {queue : List ObjectId} (tidy : before.Tidy taken) (hqueue : before.queue = id :: queue) :
    ({ before with queue := queue } : Search).Tidy (taken ++ [id]) where
  known := by
    rw [← List.append_cons, ← hqueue]
    exact tidy.known
  once := by
    rw [← List.append_cons, ← hqueue]
    exact tidy.once

theorem notMem (tidy : after.Tidy (taken ++ [id])) (hwanted : id ∉ after.unwanted) : id ∉ taken := by
  intro hid
  have honce := tidy.once id hwanted
  have hpositive := List.count_pos_iff.mpr hid
  rw [List.append_assoc, List.singleton_append, List.count_append, List.count_cons_self] at honce
  omega

end Search.Tidy

/-! ### Steps -/

namespace Searching

theorem leaves_learn {kept : Search → Prop} (hkept : ∀ read, kept { before with read := read }) :
    Leaves (learn repo id) before fun _ after => kept after := by
  unfold learn
  rw [leaves_get_bind]
  by_cases hknown : before.read.contains id = true
  · rw [if_pos hknown]
    exact hkept before.read
  · rw [if_neg hknown]
    cases repo.readParent id with
    | error fault => exact hkept before.read
    | ok found => exact hkept (id :: before.read)

theorem leaves_queueUnwanted (tidy : before.Tidy taken) :
    Leaves (queueUnwanted repo parents) before fun _ after => after.Tidy taken := by
  induction parents generalizing before with
  | nil => exact tidy
  | cons parent rest ih =>
      have hhidden : (before.hide parent).Tidy taken := tidy.mark rfl rfl (List.subset_cons_self _ _)
      have hlearn : Leaves (learn repo parent) (before.hide parent) fun _ learned =>
          learned.Tidy taken ∧ parent ∈ learned.unwanted :=
        leaves_learn fun _ => ⟨hhidden.mark rfl rfl (List.Subset.refl _), List.mem_cons_self⟩
      simp only [queueUnwanted, leaves_modify_bind]
      refine hlearn.bind (fun _ _ h => h.1) fun _ learned hlearned => ?_
      obtain ⟨htidy, hmark⟩ := hlearned
      rw [leaves_modify_bind]
      exact ih (htidy.hideAncestors.add (repo.insertByTime_perm parent _) rfl rfl
        (.inl (subset_hideAncestors hmark)))

theorem leaves_queueWanted (tidy : before.Tidy taken) :
    Leaves (queueWanted repo parents) before fun _ after => after.Tidy taken := by
  induction parents generalizing before with
  | nil => exact tidy
  | cons parent rest ih =>
      have hlearn : Leaves (learn repo parent) before fun _ learned => learned.Tidy taken :=
        leaves_learn fun _ => tidy.mark rfl rfl (List.Subset.refl _)
      simp only [queueWanted]
      refine hlearn.bind (fun _ _ h => h) fun _ learned htidy => ?_
      rw [leaves_get_bind]
      split
      · exact ih htidy
      · next hnew =>
          rw [leaves_modify_bind]
          refine ih (htidy.add (repo.insertByTime_perm parent _) rfl rfl (.inr ?_))
          simpa using hnew

theorem leaves_expand (tidy : before.Tidy taken) :
    Leaves (expand repo firstParent id) before fun _ after => after.Tidy taken := by
  unfold expand
  rw [leaves_get_bind]
  split
  · exact tidy
  · rw [leaves_modify_bind, leaves_get_bind]
    have hexpanded : ({ before with expanded := id :: before.expanded } : Search).Tidy taken :=
      tidy.mark rfl rfl (List.Subset.refl _)
    split
    · exact leaves_queueUnwanted hexpanded
    · exact leaves_queueWanted hexpanded

end Searching

namespace Search.Tidy

theorem opens (tidy : before.Tidy taken) (opens : before.Opens repo firstParent id expanded) :
    expanded.Tidy (taken ++ [id]) := by
  obtain ⟨queue, hqueue, hexpand⟩ := opens
  exact (leaves_expand (tidy.take hqueue)).of_gives hexpand

theorem gathers (tidy : before.Tidy taken)
    (hrun : Gives (gatherWithin repo firstParent steps latest left) before found after) :
    found.Nodup ∧ (∀ id ∈ found, id ∉ taken) ∧ ∃ gone, after.Tidy gone ∧ taken ++ found ⊆ gone := by
  induction steps generalizing before taken latest left found with
  | zero =>
      obtain ⟨rfl, rfl⟩ := gives_pure.mp hrun
      exact ⟨List.nodup_nil, by simp, taken, tidy, by simp⟩
  | succ steps ih =>
      cases hqueue : before.queue with
      | nil =>
          obtain ⟨rfl, rfl⟩ := (gatherWithin_of_drained hqueue).mp hrun
          exact ⟨List.nodup_nil, by simp, taken, tidy, by simp⟩
      | cons id queue =>
          obtain ⟨expanded, opens⟩ := exists_opens_of_gatherWithin hqueue hrun
          have hexpanded : expanded.Tidy (taken ++ [id]) := tidy.opens opens
          rw [gatherWithin_of_opens opens] at hrun
          split at hrun
          · split at hrun
            · obtain ⟨rfl, rfl⟩ := hrun
              exact ⟨List.nodup_nil, by simp, _, hexpanded.hideAncestors, by simp⟩
            · obtain ⟨hnodup, hnew, gone, hgone, hsubset⟩ := ih hexpanded.hideAncestors hrun
              refine ⟨hnodup, fun other hother htaken => ?_, gone, hgone, ?_⟩
              · exact hnew other hother (List.mem_append_left _ htaken)
              · obtain ⟨hbefore, hfound⟩ := List.append_subset.mp hsubset
                exact List.append_subset.mpr ⟨(List.append_subset.mp hbefore).1, hfound⟩
          · next hwanted =>
              obtain ⟨later, rfl, hrest⟩ := hrun
              obtain ⟨hnodup, hnew, gone, hgone, hsubset⟩ := ih hexpanded hrest
              refine ⟨List.nodup_cons.mpr ⟨fun hid => ?_, hnodup⟩, fun other hother => ?_, gone, hgone, ?_⟩
              · exact hnew id hid (List.mem_append_right _ List.mem_cons_self)
              · rcases List.mem_cons.mp hother with rfl | hlater
                · exact hexpanded.notMem hwanted
                · exact fun htaken => hnew other hlater (List.mem_append_left _ htaken)
              · rwa [List.append_cons]

theorem plant (tidy : before.Tidy taken) : (before.plant repo id).Tidy taken := by
  have hqueued : ∀ marked : Search, marked.Tidy taken →
      (if id ∈ marked.seen then marked
        else { marked with seen := id :: marked.seen, queue := marked.queue ++ [id] }).Tidy taken := by
    intro marked hmarked
    split
    · exact hmarked
    · next hnew => exact hmarked.add List.perm_append_comm rfl rfl (.inr hnew)
  refine hqueued _ ?_
  split
  · exact tidy.hideAncestors
  · exact tidy

theorem seedAll (tidy : before.Tidy taken) (hrun : Gives (Searching.seedAll repo seeds) before () after) :
    after.Tidy taken := by
  induction seeds generalizing before with
  | nil =>
      obtain ⟨_, rfl⟩ := gives_pure.mp hrun
      exact tidy
  | cons id seeds ih =>
      obtain ⟨learned, hlearn, hrest⟩ := seedAll_cons_gives_iff.mp hrun
      have hlearned : learned.Tidy taken :=
        (leaves_learn fun _ => tidy.mark rfl rfl (List.Subset.refl _)).of_gives hlearn
      exact ih hlearned.plant hrest

end Search.Tidy

/-! ### Passes -/

namespace Pass

variable {pass : Pass} {yielded : List ObjectId}

theorem tidy_of_prepare (hrun : Gives (pass.prepare repo) before () after) : after.Tidy [] := by
  have hempty : ({ before with queue := [] } : Search).Tidy [] := ⟨by simp, by simp⟩
  rw [prepare, gives_modify_bind, gives_bind] at hrun
  obtain ⟨_, seeded, hseed, hrest⟩ := hrun
  have hseeded : seeded.Tidy [] := hempty.seedAll hseed
  split at hrest
  · obtain ⟨found, last, hgather, hqueue⟩ := gives_bind.mp hrest
    rw [gather, gives_get_bind] at hgather
    obtain ⟨hnodup, _, gone, hgone, hsubset⟩ := hseeded.gathers hgather
    rw [gives_modify] at hqueue
    have hqueued : ∀ queue : List ObjectId, queue.Nodup → queue ⊆ found →
        ({ last with queue := queue } : Search).Tidy [] := fun queue honce hfound =>
      ⟨fun id hid => hgone.known id (List.mem_append_left _ (hsubset (hfound hid))),
        fun id _ => List.nodup_iff_count_le_one.mp honce id⟩
    rw [hqueue]
    split
    · exact hqueued _ (Repository.nodup_order hnodup) fun _ h => Repository.mem_of_mem_order h
    · exact hqueued _ hnodup (List.Subset.refl _)
  · obtain ⟨_, rfl⟩ := gives_pure.mp hrest
    exact hseeded

/-- How a step ends that may have yielded a commit: what was taken stays so, and a commit that was yielded
had not been taken but is now. -/
def YieldsNew (taken : List ObjectId) (outcome : Except Fault (Option ObjectId)) (after : Search) : Prop :=
  ∃ gone, after.Tidy gone ∧ taken ⊆ gone ∧ ∀ id, outcome = .ok (some id) → id ∈ gone ∧ id ∉ taken

theorem leaves_yieldWithin (tidy : before.Tidy taken) :
    Leaves (pass.yieldWithin repo steps) before (YieldsNew taken) := by
  induction steps generalizing before taken with
  | zero =>
      rw [yieldWithin, leaves_pure]
      exact ⟨taken, tidy, List.Subset.refl _, by simp⟩
  | succ steps ih =>
      rw [yieldWithin]
      cases hqueue : before.queue with
      | nil =>
          rw [(dequeue_gives_none hqueue).leaves_bind_iff, leaves_pure]
          exact ⟨taken, tidy, List.Subset.refl _, by simp⟩
      | cons id queue =>
          rw [(dequeue_gives_some hqueue).leaves_bind_iff]
          have hrest : ∀ opened : Search, opened.Tidy (taken ++ [id]) →
              Leaves (do if (← get).isUnwanted id then pass.yieldWithin repo steps else return some id)
                opened (YieldsNew taken) := by
            intro opened htidy
            rw [leaves_get_bind]
            split
            · obtain ⟨gone, hgone, hsubset, hfound⟩ := ih htidy
              refine ⟨gone, hgone, fun _ h => hsubset (List.mem_append_left _ h), fun other heq => ?_⟩
              obtain ⟨hother, hnew⟩ := hfound other heq
              exact ⟨hother, fun h => hnew (List.mem_append_left _ h)⟩
            · next hwanted =>
                refine ⟨taken ++ [id], htidy, List.subset_append_left _ _, fun other heq => ?_⟩
                cases heq
                exact ⟨by simp, htidy.notMem fun h => hwanted (isUnwanted_iff.mpr h)⟩
          dsimp only
          split
          · exact hrest _ (tidy.take hqueue)
          · refine (leaves_expand (tidy.take hqueue)).bind (fun fault opened htidy => ?_)
              fun _ opened htidy => hrest opened htidy
            exact ⟨taken ++ [id], htidy, List.subset_append_left _ _, by simp⟩

/-- The pass has yielded these commits, in whatever order, and yields none of them again. -/
structure Tidy (yielded : List ObjectId) (pass : Pass) : Prop where
  search : pass.begun = true → pass.search.Tidy yielded
  unbegun : pass.begun = false → yielded = []

theorem tidy_of_unbegun (unbegun : pass.begun = false) : pass.Tidy [] :=
  ⟨fun begun => absurd (unbegun.symm.trans begun) Bool.false_ne_true, fun _ => rfl⟩

theorem tidy_of_begun (begun : pass.begun = true) (tidy : pass.search.Tidy yielded) :
    pass.Tidy yielded :=
  ⟨fun _ => tidy, fun unbegun => absurd (unbegun.symm.trans begun) Bool.false_ne_true⟩

namespace Tidy

theorem forget (tidy : pass.Tidy yielded) : pass.Tidy [] :=
  ⟨fun begun => (tidy.search begun).forget, fun _ => rfl⟩

theorem push (tidy : pass.Tidy yielded) : (pass.push id).Tidy yielded := by
  unfold Pass.push
  split
  · exact tidy
  · exact ⟨tidy.search, tidy.unbegun⟩

theorem hide (tidy : pass.Tidy yielded) : (pass.hide id).Tidy yielded := by
  unfold Pass.hide
  split
  · exact tidy
  · exact ⟨fun begun => (tidy.search begun).mark rfl rfl (List.subset_cons_self _ _), tidy.unbegun⟩

theorem foldl {change : Pass → ObjectId → Pass} (tidy : pass.Tidy yielded)
    (hchange : ∀ {pass : Pass} {id : ObjectId}, pass.Tidy yielded → (change pass id).Tidy yielded)
    (ids : List ObjectId) : (ids.foldl change pass).Tidy yielded := by
  induction ids generalizing pass with
  | nil => exact tidy
  | cons id ids ih => exact ih (hchange tidy)

theorem started (tidy : pass.Tidy yielded) :
    (∃ fault fixed, pass.started repo = (.error fault, fixed) ∧ fixed.Tidy []) ∨
      ∃ fixed, pass.started repo = (.ok (), fixed) ∧ fixed.begun = true ∧ fixed.search.Tidy yielded := by
  cases hbegun : pass.begun with
  | true => exact .inr ⟨pass, started_of_begun hbegun, hbegun, tidy.search hbegun⟩
  | false =>
      rw [tidy.unbegun hbegun, Pass.started, if_neg (by simp [hbegun])]
      cases hrun : (pass.prepare repo).run.run pass.search with
      | mk result search =>
          cases result with
          | error fault => exact .inl ⟨fault, _, rfl, tidy_of_unbegun hbegun⟩
          | ok done => exact .inr ⟨_, rfl, rfl, tidy_of_prepare hrun⟩

/-- A step yields nothing that has been yielded, and goes on to yield nothing twice. -/
theorem next (tidy : pass.Tidy yielded) :
    ∃ gone, (pass.next repo).2.Tidy gone ∧
      ∀ id, (pass.next repo).1 = .ok (some id) → id ∉ yielded ∧ yielded ++ [id] ⊆ gone := by
  unfold Pass.next
  split
  · exact ⟨yielded, tidy, by simp⟩
  · rcases tidy.started with ⟨fault, fixed, hstarted, hfixed⟩ | ⟨fixed, hstarted, begun, hsearch⟩
    · rw [hstarted]
      exact ⟨[], hfixed, by simp⟩
    · rw [hstarted]
      have hyield : Leaves (fixed.yield repo) fixed.search (YieldsNew yielded) :=
        leaves_get_bind.mpr (leaves_yieldWithin hsearch)
      unfold Leaves at hyield
      dsimp only
      generalize (fixed.yield repo).run.run fixed.search = ended at hyield ⊢
      obtain ⟨outcome, search⟩ := ended
      obtain ⟨gone, hgone, hsubset, hfound⟩ := hyield
      rcases outcome with fault | _ | id
      · exact ⟨gone, tidy_of_begun begun hgone, by simp⟩
      · exact ⟨[], tidy_of_unbegun rfl, by simp⟩
      · refine ⟨gone, tidy_of_begun begun hgone, fun other heq => ?_⟩
        cases heq
        obtain ⟨hid, hnew⟩ := hfound id rfl
        exact ⟨hnew, List.append_subset.mpr ⟨hsubset, List.cons_subset.mpr ⟨hid, List.nil_subset _⟩⟩⟩

end Tidy

theorem next_of_ended {last : Pass} (hnext : pass.next repo = (.ok none, last)) :
    last.next repo = (.ok none, last) := by
  have hstays := hnext
  unfold next at hnext
  split at hnext
  · obtain rfl : pass = last := congrArg Prod.snd hnext
    exact hstays
  · split at hnext
    · cases hnext
    · split at hnext
      · cases hnext
      · cases hnext
        rfl
      · cases hnext

end Pass

/-! ### Walks -/

namespace HistoryWalk

variable {walk after last : HistoryWalk} {commits yielded : List ObjectId}

/-- The walks that there are: new ones, and what pushing, hiding and stepping makes of them. -/
inductive Built : HistoryWalk → Prop where
  | new (repo : Repository) : Built (new repo)
  | push {walk after : HistoryWalk} {id : ObjectId} (built : Built walk) (hpush : walk.push id = .ok after) :
      Built after
  | hide {walk after : HistoryWalk} {id : ObjectId} (built : Built walk) (hhide : walk.hide id = .ok after) :
      Built after
  | firstParentOnly {walk : HistoryWalk} (built : Built walk) : Built walk.firstParentOnly
  | rewind {walk : HistoryWalk} (built : Built walk) : Built walk.rewind
  | next {walk : HistoryWalk} (built : Built walk) : Built walk.next.2

theorem Built.tidy (built : walk.Built) : walk.pass.Tidy [] := by
  induction built with
  | new repo => exact Pass.tidy_of_unbegun rfl
  | push _ hpush ih =>
      obtain ⟨_, _, hpushed⟩ := except_bind_eq_ok_iff.mp hpush
      exact Except.ok.inj hpushed ▸ ih.push
  | hide _ hhide ih =>
      obtain ⟨_, _, hhidden⟩ := except_bind_eq_ok_iff.mp hhide
      exact Except.ok.inj hhidden ▸ ih.hide
  | firstParentOnly _ ih => exact ⟨ih.search, ih.unbegun⟩
  | @rewind walk _ _ =>
      have hfresh : ({ Pass.fresh walk.pass.search.read with firstParent := walk.firstParent } : Pass).Tidy
          [] := Pass.tidy_of_unbegun rfl
      exact (hfresh.foldl Pass.Tidy.push walk.starts).foldl Pass.Tidy.hide walk.hidden
  | next _ ih =>
      obtain ⟨_, hgone, _⟩ := ih.next
      exact hgone.forget

theorem Runs.nodup_of_tidy (runs : walk.Runs commits last) (tidy : walk.pass.Tidy yielded) :
    commits.Nodup ∧ ∀ id ∈ commits, id ∉ yielded := by
  induction runs generalizing yielded with
  | ended _ => exact ⟨List.nodup_nil, by simp⟩
  | @yields walk after last id later hnext _ ih =>
      obtain ⟨gone, hgone, hfound⟩ := tidy.next
      have hpass : (walk.pass.next walk.repo).2 = after.pass := congrArg (fun ended => ended.2.pass) hnext
      have hid : (walk.pass.next walk.repo).1 = .ok (some id) := congrArg Prod.fst hnext
      obtain ⟨hnew, hsubset⟩ := hfound id hid
      obtain ⟨hnodup, hlater⟩ := ih (hpass ▸ hgone)
      refine ⟨List.nodup_cons.mpr ⟨fun hmem => ?_, hnodup⟩, fun other hother hyielded => ?_⟩
      · exact hlater id hmem (hsubset (List.mem_append_right _ List.mem_cons_self))
      · rcases List.mem_cons.mp hother with rfl | hmem
        · exact hnew hyielded
        · exact hlater other hmem (hsubset (List.mem_append_left _ hyielded))

theorem Built.nodup (built : walk.Built) (runs : walk.Runs commits last) : commits.Nodup :=
  (runs.nodup_of_tidy built.tidy).1

theorem Built.length_le (built : walk.Built) (runs : walk.Runs commits last)
    (hcommits : ∀ id ∈ commits, walk.repo.isCommit id = true) :
    commits.length ≤ walk.repo.commitIds.length := by
  have hsubset : commits ⊆ walk.repo.commitIds := fun id hid =>
    Repository.mem_commitIds.mpr (hcommits id hid)
  exact ((built.nodup runs).subperm hsubset).length_le

theorem next_of_ended (hnext : walk.next = (.ok none, last)) : last.next = (.ok none, last) := by
  have hnone : (walk.pass.next walk.repo).1 = .ok none := congrArg Prod.fst hnext
  have hlast : ({ walk with pass := (walk.pass.next walk.repo).2 } : HistoryWalk) = last :=
    congrArg Prod.snd hnext
  rw [← hlast]
  simp only [next, Pass.next_of_ended (Prod.ext hnone rfl)]

end HistoryWalk

end GuardedRevision
