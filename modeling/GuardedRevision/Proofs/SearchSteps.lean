import GuardedRevision.Proofs.Outcome
import GuardedRevision.Proofs.Storage
import Mathlib.Data.List.Perm.Basic

/-!
# Steps of a search

`Search.Advances` says what every step of a search has in common: some commits are added to the
queue, and nothing that is known gets lost. Each operation has one lemma that says what it adds and
which marks it sets; later modules use these and do not look into the operations.
-/

namespace GuardedRevision

variable {repo : Repository}

theorem Repository.insertByTime_perm (id : ObjectId) (queue : List ObjectId) :
    (repo.insertByTime id queue).Perm (id :: queue) := by
  induction queue with
  | nil => exact List.Perm.refl _
  | cons other rest ih =>
      simp only [insertByTime]
      split
      · exact List.Perm.refl _
      · exact (ih.cons other).trans (List.Perm.swap id other rest)

/-- From one state of a search to another the commits in `added` have been queued. -/
structure Search.Advances (repo : Repository) (before after : Search) (added : List ObjectId) :
    Prop where
  queue : after.queue.Perm (added ++ before.queue)
  seen : ∀ {id : ObjectId}, id ∈ after.seen ↔ id ∈ added ∨ id ∈ before.seen
  expanded : after.expanded = before.expanded
  read : ∀ id ∈ after.read, id ∈ before.read ∨ repo.isCommit id = true
  commits : ∀ id ∈ added, repo.isCommit id = true

namespace Search

variable {before middle after : Search} {id : ObjectId} {added later : List ObjectId}

theorem isUnwanted_iff : before.isUnwanted id = true ↔ id ∈ before.unwanted := by
  simp [isUnwanted]

theorem Advances.refl (search : Search) : search.Advances repo search [] where
  queue := List.Perm.refl _
  seen := by simp
  expanded := rfl
  read := fun _ h => .inl h
  commits := by simp

theorem Advances.trans (first : before.Advances repo middle added)
    (rest : middle.Advances repo after later) : before.Advances repo after (later ++ added) where
  queue := by
    rw [List.append_assoc]
    exact rest.queue.trans (first.queue.append_left later)
  seen := by
    intro id
    rw [rest.seen, first.seen, List.mem_append, or_assoc]
  expanded := rest.expanded.trans first.expanded
  read := by
    intro id hread
    rcases rest.read id hread with hmiddle | hcommit
    · exact first.read id hmiddle
    · exact .inr hcommit
  commits := by
    intro id hmem
    rcases List.mem_append.mp hmem with hlater | hadded
    · exact rest.commits id hlater
    · exact first.commits id hadded

theorem Advances.read_commits (advances : before.Advances repo after added)
    (hread : ∀ id ∈ before.read, repo.isCommit id = true) :
    ∀ id ∈ after.read, repo.isCommit id = true := by
  intro id hid
  rcases advances.read id hid with hold | hcommit
  · exact hread id hold
  · exact hcommit

theorem Advances.enqueue (hcommit : repo.isCommit id = true) :
    before.Advances repo (before.enqueue repo id) [id] where
  queue := repo.insertByTime_perm id before.queue
  seen := by simp [Search.enqueue]
  expanded := rfl
  read := fun _ h => .inl h
  commits := by simp [hcommit]

theorem Advances.hide : before.Advances repo (before.hide id) [] where
  queue := List.Perm.refl _
  seen := by simp [Search.hide]
  expanded := rfl
  read := fun _ h => .inl h
  commits := by simp

theorem Advances.hideAncestors : before.Advances repo (before.hideAncestors repo id) [] where
  queue := List.Perm.refl _
  seen := by simp [Search.hideAncestors]
  expanded := rfl
  read := fun _ h => .inl h
  commits := by simp

theorem subset_hideAncestors : before.unwanted ⊆ (before.hideAncestors repo id).unwanted :=
  List.subset_append_right _ _

theorem reaches_of_mem_hideAncestors {other : ObjectId}
    (hmem : other ∈ (before.hideAncestors repo id).unwanted) :
    other ∈ before.unwanted ∨ repo.Reaches id other := by
  rcases List.mem_append.mp hmem with hclosure | hold
  · right
    induction (mem_closure_iff other).mp hclosure with
    | seed inside seeded =>
        exact .parent seeded (.refl (Repository.mem_commitIds.mp (List.mem_filter.mp inside).1))
    | @step middle next path inside edge ih =>
        have hedge : next ∈ repo.parentsOf middle := by
          split at edge
          · exact edge
          · simp at edge
        have hpath := ih (List.mem_append_left _ ((mem_closure_iff middle).mpr path))
          ((mem_closure_iff middle).mpr path)
        exact hpath.trans
          (.parent hedge (.refl (Repository.mem_commitIds.mp (List.mem_filter.mp inside).1)))
  · exact .inl hold

end Search

namespace Searching

open Search

variable {before after : Search} {id : ObjectId} {parents : List ObjectId} {firstParent : Bool}

theorem learn_gives_iff :
    Gives (learn repo id) before () after ↔
      (id ∈ before.read ∧ after = before) ∨
      (id ∉ before.read ∧ repo.isCommit id = true ∧
        after = { before with read := id :: before.read }) := by
  unfold learn
  rw [gives_get_bind]
  by_cases hknown : id ∈ before.read
  · simp [hknown]
  · simp only [List.contains_eq_mem, hknown, decide_false, Bool.false_eq_true, if_false, false_and,
      not_false_eq_true, true_and, false_or, ← Repository.readParent_eq_ok_iff]
    cases repo.readParent id with
    | error fault => simp [gives_throw]
    | ok found => simp

theorem learn_gives (hlearn : Gives (learn repo id) before () after) :
    before.Advances repo after [] ∧ after.unwanted = before.unwanted ∧
      after.seen = before.seen ∧ (id ∈ before.read ∨ repo.isCommit id = true) := by
  rcases learn_gives_iff.mp hlearn with ⟨hknown, rfl⟩ | ⟨_, hcommit, rfl⟩
  · exact ⟨.refl _, rfl, rfl, .inl hknown⟩
  · refine ⟨⟨List.Perm.refl _, by simp, rfl, ?_, by simp⟩, rfl, rfl, .inr hcommit⟩
    intro other hother
    rcases List.mem_cons.mp hother with rfl | hold
    · exact .inr hcommit
    · exact .inl hold

theorem exists_learn_gives (hcommit : repo.isCommit id = true) :
    ∃ after, Gives (learn repo id) before () after := by
  by_cases hknown : id ∈ before.read
  · exact ⟨_, learn_gives_iff.mpr (.inl ⟨hknown, rfl⟩)⟩
  · exact ⟨_, learn_gives_iff.mpr (.inr ⟨hknown, hcommit, rfl⟩)⟩

theorem queueUnwanted_gives (hread : ∀ id ∈ before.read, repo.isCommit id = true)
    (hqueue : Gives (queueUnwanted repo parents) before () after) :
    before.Advances repo after parents.reverse ∧ before.unwanted ⊆ after.unwanted ∧
      (∀ parent ∈ parents, parent ∈ after.unwanted) ∧
      ∀ other ∈ after.unwanted, other ∈ before.unwanted ∨
        ∃ parent ∈ parents, repo.Reaches parent other := by
  induction parents generalizing before with
  | nil =>
      obtain ⟨_, rfl⟩ := gives_pure.mp hqueue
      exact ⟨.refl _, List.Subset.refl _, by simp, fun _ h => .inl h⟩
  | cons parent rest ih =>
      simp only [queueUnwanted, gives_modify_bind] at hqueue
      obtain ⟨_, learned, hlearn, hrest⟩ := gives_bind.mp hqueue
      rw [gives_modify_bind] at hrest
      obtain ⟨hadvance, hunwanted, hseen, hknown⟩ := learn_gives hlearn
      have hcommit : repo.isCommit parent = true := hknown.elim (hread parent) id
      have hfirst : before.Advances repo ((learned.hideAncestors repo parent).enqueue repo parent)
          [parent] :=
        ((Advances.hide.trans hadvance).trans Advances.hideAncestors).trans (.enqueue hcommit)
      obtain ⟨hlater, hsubset, hmarked, hreached⟩ := ih (hfirst.read_commits hread) hrest
      have hparent : parent ∈ (learned.hideAncestors repo parent).unwanted :=
        subset_hideAncestors (hunwanted ▸ List.mem_cons_self)
      refine ⟨?_, ?_, ?_, ?_⟩
      · rw [List.reverse_cons]
        exact hfirst.trans hlater
      · intro other hother
        exact hsubset (subset_hideAncestors (hunwanted ▸ List.mem_cons_of_mem _ hother))
      · intro other hother
        rcases List.mem_cons.mp hother with rfl | hmem
        · exact hsubset hparent
        · exact hmarked other hmem
      · intro other hother
        rcases hreached other hother with hmiddle | ⟨later, hmem, hpath⟩
        · rcases reaches_of_mem_hideAncestors hmiddle with hlearned | hpath
          · rw [hunwanted] at hlearned
            rcases List.mem_cons.mp hlearned with rfl | hold
            · exact .inr ⟨other, List.mem_cons_self, .refl hcommit⟩
            · exact .inl hold
          · exact .inr ⟨parent, List.mem_cons_self, hpath⟩
        · exact .inr ⟨later, List.mem_cons_of_mem _ hmem, hpath⟩

theorem exists_queueUnwanted_gives (hcommits : ∀ parent ∈ parents, repo.isCommit parent = true) :
    ∃ after, Gives (queueUnwanted repo parents) before () after := by
  induction parents generalizing before with
  | nil => exact ⟨before, gives_pure.mpr ⟨rfl, rfl⟩⟩
  | cons parent rest ih =>
      obtain ⟨learned, hlearn⟩ := exists_learn_gives (hcommits parent List.mem_cons_self)
      obtain ⟨after, hrest⟩ := ih fun other hother => hcommits other (List.mem_cons_of_mem _ hother)
      refine ⟨after, ?_⟩
      simp only [queueUnwanted, gives_modify_bind]
      exact gives_bind.mpr ⟨(), learned, hlearn, gives_modify_bind.mpr hrest⟩

/-- Only parents that have not been queued yet are added, and each once. -/
theorem queueWanted_gives (hread : ∀ id ∈ before.read, repo.isCommit id = true)
    (hqueue : Gives (queueWanted repo parents) before () after) :
    ∃ added, before.Advances repo after added ∧ after.unwanted = before.unwanted ∧
      added.Nodup ∧ (∀ id ∈ added, id ∈ parents ∧ id ∉ before.seen) ∧
      (∀ parent ∈ parents, parent ∈ after.seen) ∧ added.length ≤ parents.length := by
  induction parents generalizing before with
  | nil =>
      obtain ⟨_, rfl⟩ := gives_pure.mp hqueue
      exact ⟨[], .refl _, rfl, List.nodup_nil, by simp, by simp, Nat.le_refl _⟩
  | cons parent rest ih =>
      simp only [queueWanted] at hqueue
      obtain ⟨_, learned, hlearn, hrest⟩ := gives_bind.mp hqueue
      rw [gives_get_bind] at hrest
      obtain ⟨hadvance, hunwanted, hseen, hknown⟩ := learn_gives hlearn
      have hcommit : repo.isCommit parent = true := hknown.elim (hread parent) id
      split at hrest
      · next hold =>
          obtain ⟨added, hlater, hsame, hnodup, hfresh, hall, hlength⟩ :=
            ih (hadvance.read_commits hread) hrest
          rw [hseen] at hfresh
          have hparent : parent ∈ after.seen := hlater.seen.mpr (.inr (by simpa using hold))
          refine ⟨added, by simpa using hadvance.trans hlater, hsame.trans hunwanted, hnodup, ?_, ?_,
            by simp only [List.length_cons]; omega⟩
          · intro other hother
            exact ⟨List.mem_cons_of_mem _ (hfresh other hother).1, (hfresh other hother).2⟩
          · intro other hother
            rcases List.mem_cons.mp hother with rfl | hmem
            · exact hparent
            · exact hall other hmem
      · next hnew =>
          rw [gives_modify_bind] at hrest
          have hfirst := hadvance.trans (Advances.enqueue hcommit)
          obtain ⟨added, hlater, hsame, hnodup, hfresh, hall, hlength⟩ :=
            ih (hfirst.read_commits hread) hrest
          have hseen' : ∀ other, other ∈ (learned.enqueue repo parent).seen ↔
              other = parent ∨ other ∈ before.seen := by
            intro other
            rw [hfirst.seen]
            simp
          have hparent : parent ∉ added := fun hmem =>
            (hfresh parent hmem).2 ((hseen' parent).mpr (.inl rfl))
          refine ⟨added ++ [parent], by simpa using hfirst.trans hlater, hsame.trans hunwanted, ?_, ?_,
            ?_, by simp only [List.length_append, List.length_cons, List.length_nil]; omega⟩
          · exact (List.perm_append_singleton parent added).nodup_iff.mpr
              (List.nodup_cons.mpr ⟨hparent, hnodup⟩)
          · intro other hother
            rcases List.mem_append.mp hother with hmem | hmem
            · refine ⟨List.mem_cons_of_mem _ (hfresh other hmem).1, fun hbefore => ?_⟩
              exact (hfresh other hmem).2 ((hseen' other).mpr (.inr hbefore))
            · obtain rfl := List.mem_singleton.mp hmem
              rw [hseen] at hnew
              exact ⟨List.mem_cons_self, by simpa using hnew⟩
          · intro other hother
            rcases List.mem_cons.mp hother with rfl | hmem
            · exact hlater.seen.mpr (.inr ((hseen' other).mpr (.inl rfl)))
            · exact hall other hmem

theorem exists_queueWanted_gives (hcommits : ∀ parent ∈ parents, repo.isCommit parent = true) :
    ∃ after, Gives (queueWanted repo parents) before () after := by
  induction parents generalizing before with
  | nil => exact ⟨before, gives_pure.mpr ⟨rfl, rfl⟩⟩
  | cons parent rest ih =>
      obtain ⟨learned, hlearn⟩ := exists_learn_gives (hcommits parent List.mem_cons_self)
      have hrest := fun before => @ih before fun other hother =>
        hcommits other (List.mem_cons_of_mem _ hother)
      by_cases hold : learned.seen.contains parent = true
      · obtain ⟨after, hafter⟩ := hrest learned
        refine ⟨after, gives_bind.mpr ⟨(), learned, hlearn, ?_⟩⟩
        rw [gives_get_bind, if_pos hold]
        exact hafter
      · obtain ⟨after, hafter⟩ := hrest (learned.enqueue repo parent)
        refine ⟨after, gives_bind.mpr ⟨(), learned, hlearn, ?_⟩⟩
        rw [gives_get_bind, if_neg hold, gives_modify_bind]
        exact hafter

end Searching

end GuardedRevision
