import GuardedRevision.Proofs.GatherRuns
import GuardedRevision.HistoryWalk

/-!
# Seeds of a search

Queueing what was pushed and hidden gives a state from which the gathering loop is sound. A pass that
has not begun collects the seeds, in any order of pushes and hidings.
-/

namespace GuardedRevision

open Search Searching

variable {repo : Repository} {firstParent : Bool} {starts hidden done seeds : List ObjectId}
  {before after learned : Search} {id : ObjectId}

theorem Search.Advances.append (hcommit : repo.isCommit id = true) :
    before.Advances repo { before with seen := id :: before.seen, queue := before.queue ++ [id] }
      [id] where
  queue := List.perm_append_comm
  seen := by simp
  expanded := rfl
  read := fun _ h => .inl h
  commits := by simp [hcommit]

/-- A seed that is known to be a commit: its ancestors are marked when it is unwanted, and it is queued
unless it has been. -/
def Search.plant (repo : Repository) (search : Search) (id : ObjectId) : Search :=
  let marked := if id ∈ search.unwanted then search.hideAncestors repo id else search
  if id ∈ marked.seen then marked
  else { marked with seen := id :: marked.seen, queue := marked.queue ++ [id] }

theorem Search.Sound.plant (sound : before.Sound repo firstParent starts hidden done)
    (hcommit : repo.isCommit id = true) (hwhy : id ∈ before.unwanted ∨ id ∈ starts) :
    (before.plant repo id).Sound repo firstParent starts hidden done ∧
      id ∈ (before.plant repo id).seen ∧ before.seen ⊆ (before.plant repo id).seen ∧
      before.unwanted ⊆ (before.plant repo id).unwanted := by
  unfold Search.plant
  have hmark : ∀ marked : Search, marked.Sound repo firstParent starts hidden done →
      (id ∈ marked.unwanted ∨ id ∈ starts) → marked.seen = before.seen →
      before.unwanted ⊆ marked.unwanted →
      let planted := if id ∈ marked.seen then marked
        else { marked with seen := id :: marked.seen, queue := marked.queue ++ [id] }
      planted.Sound repo firstParent starts hidden done ∧ id ∈ planted.seen ∧
        before.seen ⊆ planted.seen ∧ before.unwanted ⊆ planted.unwanted := by
    intro marked hsound hreason hseen hsubset
    by_cases hold : id ∈ marked.seen
    · simp only [if_pos hold]
      exact ⟨hsound, hold, hseen ▸ List.Subset.refl _, hsubset⟩
    · simp only [if_neg hold]
      refine ⟨hsound.add (.append hcommit) (List.Subset.refl _) (fun _ h => .inl h) ?_ ?_,
        List.mem_cons_self, ?_, hsubset⟩
      · intro other hother
        obtain rfl := List.mem_singleton.mp hother
        exact hreason.imp_right fun h => ⟨hold, other, h, .refl hcommit⟩
      · intro other _
        exact List.nodup_iff_count_le_one.mp (List.nodup_singleton id) other
      · exact fun _ h => List.mem_cons_of_mem _ (hseen ▸ h)
  by_cases hunwanted : id ∈ before.unwanted
  · rw [if_pos hunwanted]
    exact hmark _ (sound.hideAncestors hunwanted) (.inl (subset_hideAncestors hunwanted)) rfl
      subset_hideAncestors
  · rw [if_neg hunwanted]
    exact hmark _ sound hwhy rfl (List.Subset.refl _)

theorem Search.Sound.learn (sound : before.Sound repo firstParent starts hidden done)
    (hlearn : Gives (learn repo id) before () learned) :
    learned.Sound repo firstParent starts hidden done ∧ repo.isCommit id = true ∧
      learned.seen = before.seen ∧ learned.unwanted = before.unwanted := by
  obtain ⟨hadvance, hunwanted, hseen, hknown⟩ := learn_gives hlearn
  have hmarked : ∀ other ∈ learned.unwanted, other ∈ before.unwanted ∨ repo.ReachedBy hidden other :=
    fun _ h => .inl (hunwanted ▸ h)
  exact ⟨sound.add hadvance (hunwanted ▸ List.Subset.refl _) hmarked (by simp) (by simp),
    hknown.elim (sound.read id) fun h => h, hseen, hunwanted⟩

/-! ### Queueing the seeds -/

theorem seedAll_cons_gives_iff :
    Gives (seedAll repo (id :: seeds)) before () after ↔
      ∃ learned, Gives (Searching.learn repo id) before () learned ∧
        Gives (seedAll repo seeds) (learned.plant repo id) () after := by
  have hrest : ∀ marked : Search,
      Gives (do
        unless (← get).seen.contains id do
          modify fun search =>
            { search with seen := id :: search.seen, queue := search.queue ++ [id] }
        seedAll repo seeds) marked () after ↔
      Gives (seedAll repo seeds) (if id ∈ marked.seen then marked
        else { marked with seen := id :: marked.seen, queue := marked.queue ++ [id] }) () after := by
    intro marked
    rw [gives_get_bind]
    by_cases hold : id ∈ marked.seen
    · simp [hold]
    · simp [hold]
  rw [seedAll, gives_bind]
  constructor
  · rintro ⟨_, learned, hlearn, hrun⟩
    refine ⟨learned, hlearn, ?_⟩
    rw [gives_get_bind] at hrun
    by_cases hmark : id ∈ learned.unwanted
    · rw [if_pos (isUnwanted_iff.mpr hmark), gives_modify_bind, hrest] at hrun
      simpa [Search.plant, hmark] using hrun
    · rw [if_neg fun h => hmark (isUnwanted_iff.mp h), hrest] at hrun
      simpa [Search.plant, hmark] using hrun
  · rintro ⟨learned, hlearn, hrun⟩
    refine ⟨(), learned, hlearn, ?_⟩
    rw [gives_get_bind]
    by_cases hmark : id ∈ learned.unwanted
    · rw [if_pos (isUnwanted_iff.mpr hmark), gives_modify_bind, hrest]
      simpa [Search.plant, hmark] using hrun
    · rw [if_neg fun h => hmark (isUnwanted_iff.mp h), hrest]
      simpa [Search.plant, hmark] using hrun

theorem seedAll_sound (sound : before.Sound repo firstParent starts hidden done)
    (hwhy : ∀ id ∈ seeds, id ∈ before.unwanted ∨ id ∈ starts)
    (hrun : Gives (seedAll repo seeds) before () after) :
    after.Sound repo firstParent starts hidden done ∧ (∀ id ∈ seeds, id ∈ after.seen) ∧
      before.seen ⊆ after.seen := by
  induction seeds generalizing before with
  | nil =>
      obtain ⟨_, rfl⟩ := gives_pure.mp hrun
      exact ⟨sound, by simp, List.Subset.refl _⟩
  | cons id seeds ih =>
      obtain ⟨learned, hlearn, hrest⟩ := seedAll_cons_gives_iff.mp hrun
      obtain ⟨hlearned, hcommit, hseen, hunwanted⟩ := sound.learn hlearn
      rw [← hunwanted] at hwhy
      obtain ⟨hplanted, hid, hsubset, hmarks⟩ := hlearned.plant hcommit (hwhy id List.mem_cons_self)
      obtain ⟨hsound, hall, hlater⟩ := ih hplanted
        (fun other h => (hwhy other (List.mem_cons_of_mem _ h)).imp_left fun h => hmarks h) hrest
      refine ⟨hsound, ?_, fun _ h => hlater (hsubset (hseen ▸ h))⟩
      intro other hother
      rcases List.mem_cons.mp hother with rfl | hmem
      · exact hlater hid
      · exact hall other hmem

theorem exists_seedAll_gives (hcommits : ∀ id ∈ seeds, repo.isCommit id = true) :
    ∃ after, Gives (seedAll repo seeds) before () after := by
  induction seeds generalizing before with
  | nil => exact ⟨before, gives_pure.mpr ⟨rfl, rfl⟩⟩
  | cons id seeds ih =>
      obtain ⟨learned, hlearn⟩ := exists_learn_gives (hcommits id List.mem_cons_self)
      obtain ⟨after, hrest⟩ := ih fun other h => hcommits other (List.mem_cons_of_mem _ h)
      exact ⟨after, seedAll_cons_gives_iff.mpr ⟨learned, hlearn, hrest⟩⟩

end GuardedRevision
