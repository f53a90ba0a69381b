import GuardedRevision.Proofs.SearchSteps
import GuardedRevision.Ancestry
import Mathlib.Data.List.Count
import Mathlib.Data.List.Nodup

/-!
# Gathering a history

`Search.Sound` is the invariant of a search: marks are set on ancestors of hidden commits only, and
what is wanted is gathered once, after which all commits it leads to have been seen. The search may
end early, but only when nothing wanted is queued, so every commit that no hidden one reaches is
gathered whatever the times are.
-/

namespace GuardedRevision

namespace Repository

/-- `Follows repo firstParent descendant ancestor`: a history goes on from the first to the second. -/
inductive Follows (repo : Repository) (firstParent : Bool) : ObjectId → ObjectId → Prop where
  | refl {id : ObjectId} (stored : repo.isCommit id = true) : Follows repo firstParent id id
  | parent {id parent ancestor : ObjectId} (link : parent ∈ repo.followed firstParent id)
      (rest : Follows repo firstParent parent ancestor) : Follows repo firstParent id ancestor

/-- `ReachedBy repo roots id`: some root reaches the commit. -/
def ReachedBy (repo : Repository) (roots : List ObjectId) (id : ObjectId) : Prop :=
  ∃ root ∈ roots, repo.Reaches root id

/-- `FollowedBy repo firstParent starts id`: a history of the starts comes to the commit. -/
def FollowedBy (repo : Repository) (firstParent : Bool) (starts : List ObjectId) (id : ObjectId) :
    Prop :=
  ∃ start ∈ starts, repo.Follows firstParent start id

variable {repo : Repository} {firstParent : Bool} {id other : ObjectId} {roots : List ObjectId}

theorem mem_parentsOf_of_mem_followed (hmem : other ∈ repo.followed firstParent id) :
    other ∈ repo.parentsOf id := by
  unfold followed at hmem
  split at hmem
  · exact List.mem_of_mem_take hmem
  · exact hmem

theorem length_followed_le : (repo.followed firstParent id).length ≤ (repo.parentsOf id).length := by
  unfold followed
  split
  · exact List.length_take_le' _ _
  · exact Nat.le_refl _

theorem Follows.reaches (follows : repo.Follows firstParent id other) : repo.Reaches id other := by
  induction follows with
  | refl stored => exact .refl stored
  | parent link _ ih => exact .parent (mem_parentsOf_of_mem_followed link) ih

theorem follows_false_iff : repo.Follows false id other ↔ repo.Reaches id other := by
  constructor
  · exact Follows.reaches
  · intro reaches
    induction reaches with
    | refl stored => exact .refl stored
    | parent link _ ih => exact .parent link ih

theorem Follows.snoc {next : ObjectId} (follows : repo.Follows firstParent id other)
    (link : next ∈ repo.followed firstParent other) (hcommit : repo.isCommit next = true) :
    repo.Follows firstParent id next := by
  induction follows with
  | refl _ => exact .parent link (.refl hcommit)
  | parent hlink _ ih => exact .parent hlink (ih link)

theorem ReachedBy.trans (reached : repo.ReachedBy roots id) (reaches : repo.Reaches id other) :
    repo.ReachedBy roots other := by
  obtain ⟨root, hroot, hpath⟩ := reached
  exact ⟨root, hroot, hpath.trans reaches⟩

theorem ReachedBy.isCommit (reached : repo.ReachedBy roots id) : repo.isCommit id = true := by
  obtain ⟨_, _, hpath⟩ := reached
  exact hpath.isCommit_right

end Repository

namespace Search

/-- What holds between two steps of a search that has gathered `done`. -/
structure Sound (repo : Repository) (firstParent : Bool) (starts hidden done : List ObjectId)
    (search : Search) : Prop where
  read : ∀ id ∈ search.read, repo.isCommit id = true
  marked : ∀ id ∈ search.unwanted, repo.ReachedBy hidden id
  queued : ∀ id ∈ search.queue, repo.isCommit id = true ∧
    (id ∈ search.unwanted ∨ repo.FollowedBy firstParent starts id)
  seen : ∀ id ∈ search.seen, id ∈ search.queue ∨ id ∈ search.unwanted ∨ id ∈ done
  expanded : ∀ id ∈ search.expanded, id ∈ search.unwanted ∨
    ∀ parent ∈ repo.followed firstParent id, parent ∈ search.seen
  gathered : ∀ id ∈ done, id ∈ search.expanded ∧ repo.FollowedBy firstParent starts id
  known : ∀ id ∈ done ++ search.queue, id ∈ search.seen
  once : ∀ id ∉ search.unwanted, (done ++ search.queue).count id ≤ 1
  nodup : done.Nodup

/-- `Picks before after id`: the first of the queue has been taken out of it to be expanded. -/
structure Picks (before after : Search) (id : ObjectId) : Prop where
  queue : before.queue = id :: after.queue
  read : after.read = before.read
  unwanted : after.unwanted = before.unwanted
  seen : after.seen = before.seen
  expanded : ∀ {other : ObjectId}, other ∈ after.expanded ↔ other = id ∨ other ∈ before.expanded

variable {repo : Repository} {firstParent : Bool} {starts hidden done added : List ObjectId}
  {before picked after : Search} {id : ObjectId}

theorem Sound.isCommit (sound : before.Sound repo firstParent starts hidden done)
    (hid : id ∈ done) : repo.isCommit id = true := by
  obtain ⟨_, _, _, follows⟩ := sound.gathered id hid
  exact follows.reaches.isCommit_right

theorem mem_queue_of_advances (advances : before.Advances repo after added) :
    id ∈ after.queue ↔ id ∈ added ∨ id ∈ before.queue := by
  rw [advances.queue.mem_iff, List.mem_append]

theorem Sound.add (sound : before.Sound repo firstParent starts hidden done)
    (advances : before.Advances repo after added) (hsubset : before.unwanted ⊆ after.unwanted)
    (hmarked : ∀ id ∈ after.unwanted, id ∈ before.unwanted ∨ repo.ReachedBy hidden id)
    (hwhy : ∀ id ∈ added, id ∈ after.unwanted ∨
      (id ∉ before.seen ∧ repo.FollowedBy firstParent starts id))
    (honce : ∀ id ∉ after.unwanted, added.count id ≤ 1) :
    after.Sound repo firstParent starts hidden done := by
  refine ⟨advances.read_commits sound.read, ?_, ?_, ?_, ?_, ?_, ?_, ?_, sound.nodup⟩
  · intro other hother
    rcases hmarked other hother with hold | hreached
    · exact sound.marked other hold
    · exact hreached
  · intro other hother
    rcases (mem_queue_of_advances advances).mp hother with hadded | hold
    · exact ⟨advances.commits other hadded, (hwhy other hadded).imp_right fun h => h.2⟩
    · obtain ⟨hcommit, hreason⟩ := sound.queued other hold
      exact ⟨hcommit, hreason.imp_left fun h => hsubset h⟩
  · intro other hother
    rw [mem_queue_of_advances advances]
    rcases advances.seen.mp hother with hadded | hold
    · exact .inl (.inl hadded)
    · exact (sound.seen other hold).imp .inr fun h => h.imp_left fun h => hsubset h
  · intro other hother
    rw [advances.expanded] at hother
    rcases sound.expanded other hother with hmark | hparents
    · exact .inl (hsubset hmark)
    · exact .inr fun parent hparent => advances.seen.mpr (.inr (hparents parent hparent))
  · rw [advances.expanded]
    exact sound.gathered
  · intro other hother
    rw [advances.seen]
    rcases List.mem_append.mp hother with hdone | hin
    · exact .inr (sound.known other (List.mem_append_left _ hdone))
    · exact ((mem_queue_of_advances advances).mp hin).imp_right fun h =>
        sound.known other (List.mem_append_right _ h)
  · intro other hother
    rw [List.count_append, advances.queue.count_eq, List.count_append]
    by_cases hadded : other ∈ added
    · -- What is added has not been seen, so it is neither gathered nor queued yet.
      have hnew : other ∉ before.seen := ((hwhy other hadded).resolve_left hother).1
      have hdone : done.count other = 0 := List.count_eq_zero.mpr fun h =>
        hnew (sound.known other (List.mem_append_left _ h))
      have hqueue : before.queue.count other = 0 := List.count_eq_zero.mpr fun h =>
        hnew (sound.known other (List.mem_append_right _ h))
      have hone := honce other hother
      omega
    · have hnone : added.count other = 0 := List.count_eq_zero.mpr hadded
      have hold := sound.once other fun h => hother (hsubset h)
      rw [List.count_append] at hold
      omega

theorem Sound.hideAncestors (sound : before.Sound repo firstParent starts hidden done)
    (hmark : id ∈ before.unwanted) :
    (before.hideAncestors repo id).Sound repo firstParent starts hidden done := by
  refine sound.add Advances.hideAncestors subset_hideAncestors ?_ (by simp) (by simp)
  intro other hother
  rcases reaches_of_mem_hideAncestors hother with hold | hpath
  · exact .inl hold
  · exact .inr ((sound.marked id hmark).trans hpath)

/-- A commit that is wanted leaves the queue and is gathered, once its parents have been seen. -/
theorem Sound.settle (sound : before.Sound repo firstParent starts hidden done)
    (picks : before.Picks after id) (hwanted : id ∉ before.unwanted)
    (hall : ∀ parent ∈ repo.followed firstParent id, parent ∈ before.seen) :
    after.Sound repo firstParent starts hidden (done ++ [id]) := by
  have hmem : id ∈ before.queue := picks.queue ▸ List.mem_cons_self
  have hrest : ∀ other ∈ after.queue, other ∈ before.queue := fun other h =>
    picks.queue ▸ List.mem_cons_of_mem _ h
  have hfollowed : repo.FollowedBy firstParent starts id :=
    (sound.queued id hmem).2.resolve_left hwanted
  have hcount : ∀ other, (done ++ [id] ++ after.queue).count other =
      (done ++ before.queue).count other := by
    intro other
    rw [picks.queue, List.append_assoc, List.singleton_append]
  have hnotDone : id ∉ done := by
    intro hdone
    have honce := sound.once id hwanted
    have hpos := List.count_pos_iff.mpr hdone
    rw [picks.queue, List.count_append, List.count_cons_self] at honce
    omega
  refine ⟨?_, ?_, ?_, ?_, ?_, ?_, ?_, ?_, ?_⟩
  · exact picks.read ▸ sound.read
  · exact picks.unwanted ▸ sound.marked
  · intro other hother
    rw [picks.unwanted]
    exact sound.queued other (hrest other hother)
  · intro other hother
    rw [picks.unwanted, List.mem_append, List.mem_singleton]
    rw [picks.seen] at hother
    rcases sound.seen other hother with hin | hmark | hdone
    · rw [picks.queue] at hin
      rcases List.mem_cons.mp hin with heq | hlater
      · exact .inr (.inr (.inr heq))
      · exact .inl hlater
    · exact .inr (.inl hmark)
    · exact .inr (.inr (.inl hdone))
  · intro other hother
    rw [picks.unwanted, picks.seen]
    rcases picks.expanded.mp hother with rfl | hold
    · exact .inr hall
    · exact sound.expanded other hold
  · intro other hother
    rw [picks.expanded]
    rcases List.mem_append.mp hother with hdone | hnew
    · exact ⟨.inr (sound.gathered other hdone).1, (sound.gathered other hdone).2⟩
    · obtain rfl := List.mem_singleton.mp hnew
      exact ⟨.inl rfl, hfollowed⟩
  · intro other hother
    rw [picks.seen]
    apply sound.known
    rwa [picks.queue, List.append_cons]
  · intro other hother
    rw [picks.unwanted] at hother
    rw [hcount]
    exact sound.once other hother
  · rw [(List.perm_append_singleton id done).nodup_iff]
    exact List.nodup_cons.mpr ⟨hnotDone, sound.nodup⟩

theorem Sound.drop (sound : before.Sound repo firstParent starts hidden done)
    (picks : before.Picks after id) (hunwanted : id ∈ before.unwanted) :
    after.Sound repo firstParent starts hidden done := by
  have hrest : ∀ other ∈ after.queue, other ∈ before.queue := fun other h =>
    picks.queue ▸ List.mem_cons_of_mem _ h
  refine ⟨?_, ?_, ?_, ?_, ?_, ?_, ?_, ?_, sound.nodup⟩
  · exact picks.read ▸ sound.read
  · exact picks.unwanted ▸ sound.marked
  · intro other hother
    rw [picks.unwanted]
    exact sound.queued other (hrest other hother)
  · intro other hother
    rw [picks.unwanted]
    rw [picks.seen] at hother
    rcases sound.seen other hother with hin | hfound
    · rw [picks.queue] at hin
      rcases List.mem_cons.mp hin with rfl | hlater
      · exact .inr (.inl hunwanted)
      · exact .inl hlater
    · exact .inr hfound
  · intro other hother
    rw [picks.unwanted, picks.seen]
    rcases picks.expanded.mp hother with rfl | hold
    · exact .inl hunwanted
    · exact sound.expanded other hold
  · intro other hother
    rw [picks.expanded]
    exact ⟨.inr (sound.gathered other hother).1, (sound.gathered other hother).2⟩
  · intro other hother
    rw [picks.seen]
    apply sound.known
    rcases List.mem_append.mp hother with hdone | hin
    · exact List.mem_append_left _ hdone
    · exact List.mem_append_right _ (hrest other hin)
  · intro other hother
    rw [picks.unwanted] at hother
    have honce := sound.once other hother
    rw [picks.queue, List.count_append, List.count_cons] at honce
    rw [List.count_append]
    omega

theorem Sound.gather (sound : before.Sound repo firstParent starts hidden done)
    (picks : before.Picks picked id) (hwanted : id ∉ before.unwanted)
    (advances : picked.Advances repo after added) (hunwanted : after.unwanted = picked.unwanted)
    (hnodup : added.Nodup)
    (hfresh : ∀ other ∈ added, other ∈ repo.followed firstParent id ∧ other ∉ picked.seen)
    (hall : ∀ parent ∈ repo.followed firstParent id, parent ∈ after.seen) :
    after.Sound repo firstParent starts hidden (done ++ [id]) := by
  have hmarks : after.unwanted = before.unwanted := hunwanted.trans picks.unwanted
  have hmem : id ∈ before.queue := picks.queue ▸ List.mem_cons_self
  obtain ⟨start, hstart, hpath⟩ := (sound.queued id hmem).2.resolve_left hwanted
  -- The parents are queued while the commit is still there, and then it is taken out.
  let queued : Search := { after with queue := id :: after.queue, expanded := before.expanded }
  have hadvance : before.Advances repo queued added :=
    ⟨picks.queue ▸ (advances.queue.cons id).trans List.perm_middle.symm,
      picks.seen ▸ advances.seen, rfl, picks.read ▸ advances.read, advances.commits⟩
  have hpicks : queued.Picks after id :=
    ⟨rfl, rfl, rfl, rfl, by
      intro other
      rw [advances.expanded]
      exact picks.expanded⟩
  have hsound : queued.Sound repo firstParent starts hidden done := by
    refine sound.add hadvance (hmarks ▸ List.Subset.refl _) ?_ ?_ ?_
    · intro other hother
      exact .inl (hmarks ▸ hother)
    · intro other hother
      obtain ⟨hparent, hnew⟩ := hfresh other hother
      exact .inr ⟨picks.seen ▸ hnew, start, hstart,
        hpath.snoc hparent (advances.commits other hother)⟩
    · intro other _
      exact List.nodup_iff_count_le_one.mp hnodup other
  refine hsound.settle hpicks ?_ hall
  rwa [hmarks]

/-- An unwanted commit is passed over. What it leads to may be queued, as unwanted as it is. -/
theorem Sound.pass (sound : before.Sound repo firstParent starts hidden done)
    (picks : before.Picks picked id) (hunwanted : id ∈ before.unwanted)
    (advances : picked.Advances repo after added) (hsubset : picked.unwanted ⊆ after.unwanted)
    (hadded : ∀ other ∈ added, other ∈ after.unwanted)
    (hmarked : ∀ other ∈ after.unwanted, other ∈ picked.unwanted ∨ repo.ReachedBy hidden other) :
    after.Sound repo firstParent starts hidden done := by
  refine (sound.drop picks hunwanted).add advances hsubset hmarked ?_ ?_
  · exact fun other hother => .inl (hadded other hother)
  · intro other hother
    rw [List.count_eq_zero.mpr fun h => hother (hadded other h)]
    exact Nat.zero_le _

/-! ### How long a search goes on -/

def unexpanded (repo : Repository) (search : Search) : Nat :=
  ((repo.commitIds.filter fun id => !search.expanded.contains id).flatMap repo.parentsOf).length

def remaining (repo : Repository) (search : Search) : Nat :=
  search.queue.length + search.unexpanded repo

theorem length_flatMap_filter_cons_le {expanded : List ObjectId} (ids : List ObjectId)
    (next : ObjectId → List ObjectId) (hnew : id ∉ expanded) :
    ((ids.filter fun other => !(id :: expanded).contains other).flatMap next).length +
        (if id ∈ ids then (next id).length else 0) ≤
      ((ids.filter fun other => !expanded.contains other).flatMap next).length := by
  induction ids with
  | nil => simp
  | cons first rest ih =>
      by_cases hfirst : first = id
      · subst hfirst
        have hleft : (first :: rest).filter (fun other => !(first :: expanded).contains other) =
            rest.filter fun other => !(first :: expanded).contains other := by
          simp
        have hright : (first :: rest).filter (fun other => !expanded.contains other) =
            first :: rest.filter fun other => !expanded.contains other := by
          simp [hnew]
        rw [hleft, hright, List.flatMap_cons, List.length_append, if_pos List.mem_cons_self]
        omega
      · have hmem : id ∈ first :: rest ↔ id ∈ rest := by
          rw [List.mem_cons]
          exact ⟨fun h => h.resolve_left fun heq => hfirst heq.symm, .inr⟩
        have hkeep : (!(id :: expanded).contains first) = !expanded.contains first := by
          rw [List.contains_cons, beq_eq_false_iff_ne.mpr hfirst, Bool.false_or]
        simp only [List.filter_cons, hmem, hkeep]
        split
        · simp only [List.flatMap_cons, List.length_append]
          omega
        · exact ih

theorem unexpanded_cons_add_le (hnew : id ∉ before.expanded)
    (hexpanded : after.expanded = id :: before.expanded) :
    after.unexpanded repo + (repo.parentsOf id).length ≤ before.unexpanded repo := by
  unfold unexpanded
  rw [hexpanded]
  have hsum := length_flatMap_filter_cons_le repo.commitIds repo.parentsOf hnew
  by_cases hcommit : repo.isCommit id = true
  · rwa [if_pos (Repository.mem_commitIds.mpr hcommit)] at hsum
  · rw [Repository.parentsOf_eq_nil (by simpa using hcommit), List.length_nil]
    omega

theorem remaining_hideAncestors :
    (before.hideAncestors repo id).remaining repo = before.remaining repo := rfl

end Search

namespace Searching

open Search

variable {repo : Repository} {firstParent : Bool} {starts hidden done : List ObjectId}
  {before after : Search} {id : ObjectId} {queue : List ObjectId}

theorem expand_gives_iff :
    Gives (expand repo firstParent id) before () after ↔
      (id ∈ before.expanded ∧ after = before) ∨
      (id ∉ before.expanded ∧ id ∈ before.unwanted ∧
        Gives (queueUnwanted repo (repo.parentsOf id))
          { before with expanded := id :: before.expanded } () after) ∨
      (id ∉ before.expanded ∧ id ∉ before.unwanted ∧
        Gives (queueWanted repo (repo.followed firstParent id))
          { before with expanded := id :: before.expanded } () after) := by
  unfold expand
  rw [gives_get_bind]
  by_cases hold : id ∈ before.expanded
  · simp [hold]
  · by_cases hmark : id ∈ before.unwanted
    · simp [hold, hmark, isUnwanted]
    · simp [hold, hmark, isUnwanted]

/-- One round of gathering: the first of the queue is gathered if it is wanted after its expansion. -/
theorem expand_sound (sound : before.Sound repo firstParent starts hidden done)
    (hqueue : before.queue = id :: queue)
    (hexpand : Gives (expand repo firstParent id) { before with queue := queue } () after) :
    (id ∉ after.unwanted → after.Sound repo firstParent starts hidden (done ++ [id])) ∧
      (id ∈ after.unwanted → after.Sound repo firstParent starts hidden done) ∧
      before.seen ⊆ after.seen ∧ after.remaining repo < before.remaining repo := by
  rcases expand_gives_iff.mp hexpand with ⟨hold, rfl⟩ | ⟨hnew, hmark, hrun⟩ | ⟨hnew, hmark, hrun⟩
  · have picks : before.Picks { before with queue := queue } id :=
      ⟨hqueue, rfl, rfl, rfl, by
        intro other
        exact ⟨.inr, by rintro (rfl | h); exacts [hold, h]⟩⟩
    refine ⟨fun hwanted => ?_, fun hunwanted => ?_, List.Subset.refl _, ?_⟩
    · refine sound.gather picks hwanted (.refl _) rfl List.nodup_nil (by simp) ?_
      exact (sound.expanded id hold).resolve_left hwanted
    · exact sound.pass picks hunwanted (.refl _) (List.Subset.refl _) (by simp) fun _ h => .inl h
    · unfold remaining
      rw [hqueue]
      exact Nat.add_lt_add_right (Nat.lt_succ_self _) _
  · have picks : before.Picks { before with queue := queue, expanded := id :: before.expanded } id :=
      ⟨hqueue, rfl, rfl, rfl, List.mem_cons⟩
    obtain ⟨hadvance, hsubset, hmarked, hreached⟩ := queueUnwanted_gives (picks.read ▸ sound.read) hrun
    have hid : id ∈ after.unwanted := hsubset hmark
    refine ⟨fun hwanted => absurd hid hwanted, fun _ => ?_, fun _ h => hadvance.seen.mpr (.inr h), ?_⟩
    · refine sound.pass picks hmark hadvance hsubset
        (fun other hother => hmarked other (List.mem_reverse.mp hother)) fun other hother => ?_
      rcases hreached other hother with hbefore | ⟨parent, hparent, hpath⟩
      · exact .inl hbefore
      · exact .inr ((sound.marked id hmark).trans (.parent hparent hpath))
    · have hlength : after.queue.length = (repo.parentsOf id).length + queue.length := by
        rw [hadvance.queue.length_eq, List.length_append, List.length_reverse]
      have hsum : after.unexpanded repo + (repo.parentsOf id).length ≤ before.unexpanded repo :=
        unexpanded_cons_add_le hnew hadvance.expanded
      unfold remaining
      rw [hlength, hqueue, List.length_cons]
      omega
  · have picks : before.Picks { before with queue := queue, expanded := id :: before.expanded } id :=
      ⟨hqueue, rfl, rfl, rfl, List.mem_cons⟩
    obtain ⟨added, hadvance, hsame, hnodup, hfresh, hall, hlength⟩ :=
      queueWanted_gives (picks.read ▸ sound.read) hrun
    have hid : id ∉ after.unwanted := hsame ▸ hmark
    refine ⟨fun _ => sound.gather picks hmark hadvance hsame hnodup hfresh hall,
      fun hunwanted => absurd hunwanted hid, fun _ h => hadvance.seen.mpr (.inr h), ?_⟩
    have hqueueLength : after.queue.length = added.length + queue.length := by
      rw [hadvance.queue.length_eq, List.length_append]
    have hsum : after.unexpanded repo + (repo.parentsOf id).length ≤ before.unexpanded repo :=
      unexpanded_cons_add_le hnew hadvance.expanded
    have hparents : (repo.followed firstParent id).length ≤ (repo.parentsOf id).length :=
      Repository.length_followed_le
    unfold remaining
    rw [hqueueLength, hqueue, List.length_cons]
    omega

theorem exists_expand_gives (hparents : ∀ parent ∈ repo.parentsOf id, repo.isCommit parent = true) :
    ∃ after, Gives (expand repo firstParent id) before () after := by
  by_cases hold : id ∈ before.expanded
  · exact ⟨before, expand_gives_iff.mpr (.inl ⟨hold, rfl⟩)⟩
  · by_cases hmark : id ∈ before.unwanted
    · obtain ⟨after, hrun⟩ := exists_queueUnwanted_gives hparents
      exact ⟨after, expand_gives_iff.mpr (.inr (.inl ⟨hold, hmark, hrun⟩))⟩
    · obtain ⟨after, hrun⟩ := exists_queueWanted_gives fun parent hparent =>
        hparents parent (Repository.mem_parentsOf_of_mem_followed hparent)
      exact ⟨after, expand_gives_iff.mpr (.inr (.inr ⟨hold, hmark, hrun⟩))⟩

end Searching

end GuardedRevision
