import GuardedRevision.Proofs.Gathering
import Mathlib.Data.List.Flatten

/-!
# Runs of the gathering loop

`Gathers` describes the loop step by step, without a bound on the number of steps. Where the bound is
large enough, the loop gives exactly what `Gathers` does, and a run gathers each wanted commit that
no hidden one reaches.
-/

namespace GuardedRevision

open Search Searching

/-- The first of the queue has been taken out of it and expanded. -/
def Search.Opens (repo : Repository) (firstParent : Bool) (before : Search) (id : ObjectId)
    (expanded : Search) : Prop :=
  ∃ queue, before.queue = id :: queue ∧
    Gives (expand repo firstParent id) { before with queue := queue } () expanded

/-- A run of the gathering loop: what it gathers, and where it ends. It ends when nothing is queued
or when its patience does. -/
inductive Gathers (repo : Repository) (firstParent : Bool) :
    Int → Nat → Search → List ObjectId → Search → Prop where
  | drained {latest : Int} {left : Nat} {search : Search} (empty : search.queue = []) :
      Gathers repo firstParent latest left search [] search
  | ended {latest : Int} {left : Nat} {before expanded : Search} {id : ObjectId}
      (opens : before.Opens repo firstParent id expanded) (unwanted : id ∈ expanded.unwanted)
      (impatient : patienceLeft repo (expanded.hideAncestors repo id) latest left = 0) :
      Gathers repo firstParent latest left before [] (expanded.hideAncestors repo id)
  | passed {latest : Int} {left patience : Nat} {before expanded after : Search} {id : ObjectId}
      {found : List ObjectId}
      (opens : before.Opens repo firstParent id expanded) (unwanted : id ∈ expanded.unwanted)
      (patient : patienceLeft repo (expanded.hideAncestors repo id) latest left = patience + 1)
      (rest : Gathers repo firstParent latest (patience + 1) (expanded.hideAncestors repo id) found
        after) :
      Gathers repo firstParent latest left before found after
  | gathered {latest : Int} {left : Nat} {before expanded after : Search} {id : ObjectId}
      {found : List ObjectId}
      (opens : before.Opens repo firstParent id expanded) (wanted : id ∉ expanded.unwanted)
      (rest : Gathers repo firstParent (repo.commitTime id) left expanded found after) :
      Gathers repo firstParent latest left before (id :: found) after

variable {repo : Repository} {firstParent : Bool} {starts hidden done found : List ObjectId}
  {before expanded after : Search} {id target : ObjectId} {latest : Int} {left steps : Nat}

theorem dequeue_gives_some {queue : List ObjectId} (hqueue : before.queue = id :: queue) :
    Gives dequeue before (some id) { before with queue := queue } := by
  rw [dequeue, gives_get_bind, hqueue, gives_modify_bind, gives_pure]
  exact ⟨rfl, rfl⟩

theorem dequeue_gives_none (hempty : before.queue = []) : Gives dequeue before none before := by
  rw [dequeue, gives_get_bind, hempty, gives_pure]
  exact ⟨rfl, rfl⟩

theorem gatherWithin_of_drained (hempty : before.queue = []) :
    Gives (gatherWithin repo firstParent (steps + 1) latest left) before found after ↔
      found = [] ∧ after = before := by
  rw [gatherWithin, (dequeue_gives_none hempty).bind_iff, gives_pure]

theorem gatherWithin_of_opens (opens : before.Opens repo firstParent id expanded) :
    Gives (gatherWithin repo firstParent (steps + 1) latest left) before found after ↔
      if id ∈ expanded.unwanted then
        match patienceLeft repo (expanded.hideAncestors repo id) latest left with
        | 0 => found = [] ∧ after = expanded.hideAncestors repo id
        | patience + 1 => Gives (gatherWithin repo firstParent steps latest (patience + 1))
            (expanded.hideAncestors repo id) found after
      else ∃ later, found = id :: later ∧
        Gives (gatherWithin repo firstParent steps (repo.commitTime id) left) expanded later
          after := by
  obtain ⟨queue, hqueue, hexpand⟩ := opens
  rw [gatherWithin, (dequeue_gives_some hqueue).bind_iff, hexpand.bind_iff, gives_get_bind]
  by_cases hmark : id ∈ expanded.unwanted
  · rw [if_pos (isUnwanted_iff.mpr hmark), if_pos hmark, gives_modify_bind, gives_get_bind]
    cases patienceLeft repo (expanded.hideAncestors repo id) latest left with
    | zero => rw [if_pos rfl, gives_pure]
    | succ patience => rw [if_neg (Nat.succ_ne_zero patience)]
  · rw [if_neg fun h => hmark (isUnwanted_iff.mp h), if_neg hmark, gives_bind]
    constructor
    · rintro ⟨later, middle, hrest, hpure⟩
      obtain ⟨rfl, rfl⟩ := gives_pure.mp hpure
      exact ⟨later, rfl, hrest⟩
    · rintro ⟨later, rfl, hrest⟩
      exact ⟨later, after, hrest, gives_pure.mpr ⟨rfl, rfl⟩⟩

theorem exists_opens_of_gatherWithin {queue : List ObjectId} (hqueue : before.queue = id :: queue)
    (hrun : Gives (gatherWithin repo firstParent (steps + 1) latest left) before found after) :
    ∃ expanded, before.Opens repo firstParent id expanded := by
  rw [gatherWithin, (dequeue_gives_some hqueue).bind_iff, gives_bind] at hrun
  obtain ⟨_, expanded, hexpand, _⟩ := hrun
  exact ⟨expanded, queue, hqueue, hexpand⟩

theorem Search.Sound.opens (sound : before.Sound repo firstParent starts hidden done)
    (opens : before.Opens repo firstParent id expanded) :
    (id ∉ expanded.unwanted → expanded.Sound repo firstParent starts hidden (done ++ [id])) ∧
      (id ∈ expanded.unwanted →
        (expanded.hideAncestors repo id).Sound repo firstParent starts hidden done) ∧
      before.seen ⊆ expanded.seen ∧ expanded.remaining repo < before.remaining repo := by
  obtain ⟨queue, hqueue, hexpand⟩ := opens
  obtain ⟨hwanted, hunwanted, hrest⟩ := expand_sound sound hqueue hexpand
  exact ⟨hwanted, fun hmark => (hunwanted hmark).hideAncestors hmark, hrest⟩

theorem gatherWithin_gives_iff (sound : before.Sound repo firstParent starts hidden done)
    (henough : before.remaining repo < steps) :
    Gives (gatherWithin repo firstParent steps latest left) before found after ↔
      Gathers repo firstParent latest left before found after := by
  induction steps generalizing before latest left done found with
  | zero => exact absurd henough (Nat.not_lt_zero _)
  | succ steps ih =>
      constructor
      · intro hrun
        cases hqueue : before.queue with
        | nil =>
            obtain ⟨rfl, rfl⟩ := (gatherWithin_of_drained hqueue).mp hrun
            exact .drained hqueue
        | cons id queue =>
            obtain ⟨expanded, opens⟩ := exists_opens_of_gatherWithin hqueue hrun
            obtain ⟨hwanted, hunwanted, _, hless⟩ := sound.opens opens
            rw [gatherWithin_of_opens opens] at hrun
            split at hrun
            · next hmark =>
                split at hrun
                · next himpatient =>
                    obtain ⟨rfl, rfl⟩ := hrun
                    exact .ended opens hmark himpatient
                · next patience hpatient =>
                    refine .passed opens hmark hpatient ((ih (hunwanted hmark) ?_).mp hrun)
                    rw [remaining_hideAncestors]
                    omega
            · next hmark =>
                obtain ⟨later, rfl, hrest⟩ := hrun
                exact .gathered opens hmark ((ih (hwanted hmark) (by omega)).mp hrest)
      · intro gathers
        cases gathers with
        | drained hempty => exact (gatherWithin_of_drained hempty).mpr ⟨rfl, rfl⟩
        | ended opens hmark himpatient =>
            rw [gatherWithin_of_opens opens, if_pos hmark, himpatient]
            exact ⟨rfl, rfl⟩
        | passed opens hmark hpatient rest =>
            obtain ⟨_, hunwanted, _, hless⟩ := sound.opens opens
            rw [gatherWithin_of_opens opens, if_pos hmark, hpatient]
            refine (ih (hunwanted hmark) ?_).mpr rest
            rw [remaining_hideAncestors]
            omega
        | gathered opens hmark rest =>
            obtain ⟨hwanted, _, _, hless⟩ := sound.opens opens
            rw [gatherWithin_of_opens opens, if_neg hmark]
            exact ⟨_, rfl, (ih (hwanted hmark) (by omega)).mpr rest⟩

theorem remaining_lt_stepBound : before.remaining repo < stepBound repo before := by
  have hsum : before.unexpanded repo ≤ (repo.commitIds.flatMap repo.parentsOf).length :=
    (List.filter_sublist.flatMap repo.parentsOf).length_le
  unfold remaining stepBound
  omega

theorem gather_gives_iff (sound : before.Sound repo firstParent starts hidden done) :
    Gives (gather repo firstParent) before found after ↔
      Gathers repo firstParent latestTime patience before found after := by
  rw [gather, gives_get_bind]
  exact gatherWithin_gives_iff sound remaining_lt_stepBound

/-- The search in which the queue holds nothing but unwanted commits has found what there is. -/
def Search.IsOver (search : Search) : Prop := ∀ id ∈ search.queue, id ∈ search.unwanted

theorem isOver_of_patienceLeft (himpatient : patienceLeft repo before latest left = 0) :
    before.IsOver := by
  intro id hid
  unfold patienceLeft at himpatient
  split at himpatient
  · next hempty => simp [hempty] at hid
  · split at himpatient
    · exact absurd himpatient (by decide)
    · next hnone =>
        by_contra hwanted
        apply hnone
        rw [Bool.or_eq_true, List.any_eq_true]
        exact .inr ⟨id, hid, by simp [isUnwanted, hwanted]⟩

/-- What a run gathers is sound, and nothing wanted is left in the queue. -/
theorem Gathers.sound (gathers : Gathers repo firstParent latest left before found after)
    (sound : before.Sound repo firstParent starts hidden done) :
    after.Sound repo firstParent starts hidden (done ++ found) ∧ after.IsOver ∧
      before.seen ⊆ after.seen := by
  induction gathers generalizing done with
  | drained hempty =>
      rw [List.append_nil]
      exact ⟨sound, by simp [IsOver, hempty], List.Subset.refl _⟩
  | ended opens hmark himpatient =>
      rw [List.append_nil]
      obtain ⟨_, hunwanted, hseen, _⟩ := sound.opens opens
      exact ⟨hunwanted hmark, isOver_of_patienceLeft himpatient, hseen⟩
  | passed opens hmark _ _ ih =>
      obtain ⟨_, hunwanted, hseen, _⟩ := sound.opens opens
      obtain ⟨hsound, hover, hlater⟩ := ih (hunwanted hmark)
      exact ⟨hsound, hover, fun _ h => hlater (hseen h)⟩
  | gathered opens hmark _ ih =>
      obtain ⟨hwanted, _, hseen, _⟩ := sound.opens opens
      obtain ⟨hsound, hover, hlater⟩ := ih (hwanted hmark)
      rw [List.append_cons]
      exact ⟨hsound, hover, fun _ h => hlater (hseen h)⟩

/-- Where all parents are there, the loop comes to an end without a fault. -/
theorem exists_gathers
    (hparents : ∀ id, ∀ parent ∈ repo.parentsOf id, repo.isCommit parent = true)
    (sound : before.Sound repo firstParent starts hidden done) :
    ∃ found after, Gathers repo firstParent latest left before found after := by
  induction hmeasure : before.remaining repo using Nat.strongRecOn
    generalizing before done latest left with
  | ind measure ih =>
      subst hmeasure
      cases hqueue : before.queue with
      | nil => exact ⟨[], before, .drained hqueue⟩
      | cons id queue =>
          obtain ⟨expanded, hexpand⟩ := exists_expand_gives (hparents id)
          have opens : before.Opens repo firstParent id expanded := ⟨queue, hqueue, hexpand⟩
          obtain ⟨hwanted, hunwanted, _, hless⟩ := sound.opens opens
          by_cases hmark : id ∈ expanded.unwanted
          · cases hleft : patienceLeft repo (expanded.hideAncestors repo id) latest left with
            | zero => exact ⟨[], _, .ended opens hmark hleft⟩
            | succ patience =>
                obtain ⟨found, after, hrest⟩ := ih _ hless (hunwanted hmark) rfl
                exact ⟨found, after, .passed opens hmark hleft hrest⟩
          · obtain ⟨found, after, hrest⟩ := ih _ hless (hwanted hmark) rfl
            exact ⟨id :: found, after, .gathered opens hmark hrest⟩

/-- When the search is over, nothing is missing that a commit it has seen leads to. -/
theorem Search.Sound.covers (sound : after.Sound repo firstParent starts hidden done)
    (hover : after.IsOver) (hseen : id ∈ after.seen) (follows : repo.Follows firstParent id target)
    (hfree : ¬ repo.ReachedBy hidden target) : target ∈ done := by
  induction follows with
  | @refl id stored =>
      rcases sound.seen id hseen with hqueued | hmark | hdone
      · exact absurd (sound.marked id (hover id hqueued)) hfree
      · exact absurd (sound.marked id hmark) hfree
      · exact hdone
  | @parent id parent target link rest ih =>
      have hunmarked : id ∉ after.unwanted := by
        intro hmark
        apply hfree
        exact ((sound.marked id hmark).trans
          (.parent (Repository.mem_parentsOf_of_mem_followed link) rest.reaches))
      have hdone : id ∈ done := by
        rcases sound.seen id hseen with hqueued | hmark | hdone
        · exact absurd (hover id hqueued) hunmarked
        · exact absurd hmark hunmarked
        · exact hdone
      have hparents := (sound.expanded id (sound.gathered id hdone).1).resolve_left hunmarked
      exact ih (hparents parent link) hfree

end GuardedRevision
