import GuardedRevision.Proofs.Answers
import Mathlib.Logic.Basic
import Mathlib.Tactic.ByContra

/-!
# Bookkeeping

What the counters and the two memories of a memo go through, whatever repositories it is asked about and
whatever faults come up. Keys of hidden objects are forgotten only to make room for a new one, those that
another generation of the same repository has made useless first.
-/

namespace GuardedRevision

/-- The first key was remembered in the same repository, for refs that are no longer these. -/
def HiddenKey.IsOutdatedBy (old new : HiddenKey) : Prop :=
  old.scope = new.scope ∧ old.generation ≠ new.generation

instance (old new : HiddenKey) : Decidable (old.IsOutdatedBy new) := inferInstanceAs (Decidable (_ ∧ _))

namespace VisibilityMemo

variable {memo after : VisibilityMemo} {repo : Repository} {query : VisibilityQuery}
  {result : Except Fault Bool} {scope : String} {target : ObjectId} {old new : HiddenKey}
  {policy : BrowsePolicy} {capacity : Nat}

/-- What is left of the hidden keys without those that a new one outdates. -/
def current (memo : VisibilityMemo) (new : HiddenKey) : List HiddenKey :=
  memo.hidden.filter fun old => ¬ old.IsOutdatedBy new

structure Bounded (capacity : Nat) (memo : VisibilityMemo) : Prop where
  sameCapacity : memo.capacity = capacity
  nodup : memo.hidden.Nodup
  length_le : memo.hidden.length ≤ capacity

/-- Why a key is gone: a new one was stored, all places were taken, and the key was outdated, or else not
even the outdated ones made room and everything was forgotten. -/
structure Displaces (memo after : VisibilityMemo) (old new : HiddenKey) : Prop where
  added : new ∉ memo.hidden
  stored : new ∈ after.hidden
  full : memo.capacity ≤ memo.hidden.length
  reason : old.IsOutdatedBy new ∨
    memo.capacity ≤ (memo.current new).length ∧ after.hidden = [new]

/-- What one question does to the counters and to the memories. -/
structure Books (memo : VisibilityMemo) (repo : Repository) (query : VisibilityQuery)
    (result : Except Fault Bool) (after : VisibilityMemo) : Prop where
  /-- With roots, no hidden key comes or goes. -/
  rooted : query.roots ≠ [] → after.hidden = memo.hidden
  /-- A hidden key goes only where the key of the question takes its place. -/
  dropped : ∀ old ∈ memo.hidden, old ∉ after.hidden →
    ∃ new, new.scope = repo.scope ∧ new.target = query.target ∧ memo.Displaces after old new
  /-- An answer counts once. -/
  answered : ∀ visible, result = .ok visible → after.hits + after.misses = memo.hits + memo.misses + 1
  /-- A fault is no hit, and it leaves the memories as they were. -/
  failed : ∀ fault, result = .error fault →
    after.hidden = memo.hidden ∧ after.visible = memo.visible ∧ after.hits = memo.hits ∧
      (after.misses = memo.misses ∨ after.misses = memo.misses + 1)

def checkAll (memo : VisibilityMemo) (calls : List (Repository × VisibilityQuery)) : VisibilityMemo :=
  calls.foldl (fun memo call => (memo.check call.1 call.2).2) memo

/-! ### Storing a key -/

theorem roomFor_eq : memo.roomFor new =
    if memo.hidden.length < memo.capacity then memo.hidden
    else if (memo.current new).length < memo.capacity then memo.current new else [] := by
  have hcurrent : (memo.hidden.filter fun old => old.scope ≠ new.scope ∨ old.generation = new.generation) =
      memo.current new := by
    refine List.filter_congr fun old _ => ?_
    rw [decide_eq_decide, HiddenKey.IsOutdatedBy, not_and_or, not_not]
  unfold roomFor
  rw [hcurrent]

theorem roomFor_sublist : (memo.roomFor new).Sublist memo.hidden := by
  rw [roomFor_eq]
  split
  · exact List.Sublist.refl _
  · split
    · exact List.filter_sublist
    · exact List.nil_sublist _

theorem length_roomFor_lt (hcapacity : memo.capacity ≠ 0) : (memo.roomFor new).length < memo.capacity := by
  rw [roomFor_eq]
  split
  · assumption
  · split
    · assumption
    · exact Nat.pos_of_ne_zero hcapacity

theorem hidden_rememberHidden (hcapacity : memo.capacity ≠ 0) (hnew : new ∉ memo.hidden) :
    (memo.rememberHidden new).hidden = new :: memo.roomFor new := by
  have hroom : new ∉ memo.roomFor new := fun hmem => hnew (roomFor_sublist.subset hmem)
  unfold rememberHidden
  rw [if_neg hcapacity]
  simp [hroom]

theorem rememberHidden_of_capacity (hcapacity : memo.capacity = 0) : memo.rememberHidden new = memo :=
  if_pos hcapacity

@[simp]
theorem counts_rememberHidden : (memo.rememberHidden new).capacity = memo.capacity ∧
    (memo.rememberHidden new).hits = memo.hits ∧ (memo.rememberHidden new).misses = memo.misses := by
  unfold rememberHidden
  split
  · exact ⟨rfl, rfl, rfl⟩
  · exact ⟨rfl, rfl, rfl⟩

@[simp]
theorem counts_rememberVisible : (memo.rememberVisible scope target).capacity = memo.capacity ∧
    (memo.rememberVisible scope target).hits = memo.hits ∧
    (memo.rememberVisible scope target).misses = memo.misses := by
  unfold rememberVisible
  split
  · exact ⟨rfl, rfl, rfl⟩
  · exact ⟨rfl, rfl, rfl⟩

theorem displaces_rememberHidden (hnew : new ∉ memo.hidden) (hold : old ∈ memo.hidden)
    (hgone : old ∉ (memo.rememberHidden new).hidden) :
    memo.Displaces (memo.rememberHidden new) old new := by
  by_cases hcapacity : memo.capacity = 0
  · rw [rememberHidden_of_capacity hcapacity] at hgone
    exact absurd hold hgone
  · have hhidden := hidden_rememberHidden hcapacity hnew
    rw [hhidden] at hgone
    have hroom : old ∉ memo.roomFor new := fun hmem => hgone (List.mem_cons_of_mem _ hmem)
    rw [roomFor_eq] at hroom
    have hfull : ¬ memo.hidden.length < memo.capacity := fun hspace => hroom (by rwa [if_pos hspace])
    rw [if_neg hfull] at hroom
    refine ⟨hnew, ?_, Nat.le_of_not_lt hfull, ?_⟩
    · rw [hhidden]
      exact List.mem_cons_self
    · by_cases hspace : (memo.current new).length < memo.capacity
      · rw [if_pos hspace] at hroom
        left
        by_contra hcurrent
        exact hroom (List.mem_filter.mpr ⟨hold, decide_eq_true hcurrent⟩)
      · right
        refine ⟨Nat.le_of_not_lt hspace, ?_⟩
        rw [hhidden, roomFor_eq, if_neg hfull, if_neg hspace]

theorem Bounded.rememberHidden (bounded : memo.Bounded capacity) (hnew : new ∉ memo.hidden) :
    (memo.rememberHidden new).Bounded capacity := by
  by_cases hcapacity : memo.capacity = 0
  · rwa [rememberHidden_of_capacity hcapacity]
  · have hhidden := hidden_rememberHidden hcapacity hnew
    refine ⟨counts_rememberHidden.1.trans bounded.sameCapacity, ?_, ?_⟩
    · rw [hhidden, List.nodup_cons]
      exact ⟨fun hmem => hnew (roomFor_sublist.subset hmem), roomFor_sublist.nodup bounded.nodup⟩
    · rw [hhidden, List.length_cons, ← bounded.sameCapacity]
      exact length_roomFor_lt hcapacity

/-! ### One question -/

/-- How a question ends, and what it leaves: a hit; a fault, before or after the miss is counted; a miss
that is remembered as visible, or not at all; or a miss that is remembered as hidden. -/
inductive Exits (memo : VisibilityMemo) (repo : Repository) (query : VisibilityQuery) :
    Except Fault Bool → VisibilityMemo → Prop where
  | hit (visible : Bool) : Exits memo repo query (.ok visible) memo.countHit
  | unsearched (fault : Fault) : Exits memo repo query (.error fault) memo
  | broken (fault : Fault) : Exits memo repo query (.error fault) memo.countMiss
  | shown : Exits memo repo query (.ok true) (memo.countMiss.rememberVisible repo.scope query.target)
  | unremembered : Exits memo repo query (.ok false) memo.countMiss
  | recorded {key : HiddenKey} (rootless : query.roots = []) (place : key.scope = repo.scope)
      (about : key.target = query.target) (added : key ∉ memo.hidden) :
      Exits memo repo query (.ok false) (memo.countMiss.rememberHidden key)

theorem search_exits (refs : List RefEntry) :
    memo.Exits repo query (memo.search repo refs query).1 (memo.search repo refs query).2 := by
  unfold search
  dsimp only
  split
  · exact .hit false
  · next hfree =>
      split
      · exact .broken _
      · exact .shown
      · split
        · next hroots =>
            refine .recorded (List.isEmpty_iff.mp hroots) rfl rfl fun hmem => hfree ?_
            rw [hroots, Bool.true_and]
            exact List.contains_iff_mem.mpr hmem
        · exact .unremembered

theorem check_exits (memo : VisibilityMemo) (repo : Repository) (query : VisibilityQuery) :
    memo.Exits repo query (memo.check repo query).1 (memo.check repo query).2 := by
  unfold check
  split
  · exact .hit true
  · split
    · exact .unsearched _
    · split
      · exact .shown
      · split
        · exact .unsearched _
        · exact search_exits _
        · exact .unremembered

theorem Exits.bounded (exits : memo.Exits repo query result after) (bounded : memo.Bounded capacity) :
    after.Bounded capacity := by
  cases exits with
  | hit visible => exact ⟨bounded.sameCapacity, bounded.nodup, bounded.length_le⟩
  | unsearched fault => exact bounded
  | broken fault => exact ⟨bounded.sameCapacity, bounded.nodup, bounded.length_le⟩
  | unremembered => exact ⟨bounded.sameCapacity, bounded.nodup, bounded.length_le⟩
  | recorded rootless place about added =>
      have missed : memo.countMiss.Bounded capacity := ⟨bounded.sameCapacity, bounded.nodup, bounded.length_le⟩
      exact missed.rememberHidden added
  | shown =>
      refine ⟨counts_rememberVisible.1.trans bounded.sameCapacity, ?_, ?_⟩
      · rw [hidden_rememberVisible]
        exact bounded.nodup
      · rw [hidden_rememberVisible]
        exact bounded.length_le

theorem Exits.books (exits : memo.Exits repo query result after) : memo.Books repo query result after := by
  cases exits with
  | hit visible =>
      refine ⟨fun _ => rfl, fun _ hold hgone => absurd hold hgone, fun _ _ => ?_, fun _ => nofun⟩
      exact Nat.add_right_comm _ _ _
  | unsearched fault =>
      exact ⟨fun _ => rfl, fun _ hold hgone => absurd hold hgone, fun _ => nofun,
        fun _ _ => ⟨rfl, rfl, rfl, .inl rfl⟩⟩
  | broken fault =>
      exact ⟨fun _ => rfl, fun _ hold hgone => absurd hold hgone, fun _ => nofun,
        fun _ _ => ⟨rfl, rfl, rfl, .inr rfl⟩⟩
  | unremembered =>
      exact ⟨fun _ => rfl, fun _ hold hgone => absurd hold hgone, fun _ _ => rfl, fun _ => nofun⟩
  | shown =>
      have hhidden : (memo.countMiss.rememberVisible repo.scope query.target).hidden = memo.hidden :=
        hidden_rememberVisible
      refine ⟨fun _ => hhidden, fun _ hold hgone => absurd hold (hhidden ▸ hgone), fun _ _ => ?_,
        fun _ => nofun⟩
      rw [counts_rememberVisible.2.1, counts_rememberVisible.2.2]
      rfl
  | @recorded key rootless place about added =>
      refine ⟨fun hroots => absurd rootless hroots, fun old hold hgone => ?_, fun _ _ => ?_, fun _ => nofun⟩
      · have hdisplaces : memo.countMiss.Displaces (memo.countMiss.rememberHidden key) old key :=
          displaces_rememberHidden added hold hgone
        obtain ⟨hadded, hstored, hfull, hreason⟩ := hdisplaces
        exact ⟨key, place, about, hadded, hstored, hfull, hreason⟩
      · rw [counts_rememberHidden.2.1, counts_rememberHidden.2.2]
        rfl

/-! ### Runs -/

theorem bounded_empty : (empty policy capacity).Bounded capacity :=
  ⟨rfl, List.nodup_nil, Nat.zero_le _⟩

theorem Bounded.checkAll (bounded : memo.Bounded capacity)
    (calls : List (Repository × VisibilityQuery)) : (memo.checkAll calls).Bounded capacity := by
  induction calls generalizing memo with
  | nil => exact bounded
  | cons call later ih => exact ih ((check_exits memo call.1 call.2).bounded bounded)

/-- Bookkeeping. Whatever a memo was asked before, there are never more hidden keys than its capacity, and
the next question keeps the books. -/
theorem checkAll_books (policy : BrowsePolicy) (capacity : Nat)
    (calls : List (Repository × VisibilityQuery)) :
    ((empty policy capacity).checkAll calls).Bounded capacity ∧
      ∀ (repo : Repository) (query : VisibilityQuery),
        ((empty policy capacity).checkAll calls).Books repo query
          (((empty policy capacity).checkAll calls).check repo query).1
          (((empty policy capacity).checkAll calls).check repo query).2 :=
  ⟨bounded_empty.checkAll calls, fun repo query => (check_exits _ repo query).books⟩

end VisibilityMemo

end GuardedRevision
