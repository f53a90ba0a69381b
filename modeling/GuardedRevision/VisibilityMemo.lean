import GuardedRevision.BrowsePolicy
import GuardedRevision.RefGeneration

/-!
# Visibility

Whether an object may be shown for a request, with a memory shared by requests to several
repositories. That an object is visible is remembered for good. That it is hidden is remembered for
the generation of the browsable refs it was found under, for queries without roots of their own, and
only so many times.
-/

namespace GuardedRevision

structure VisibilityQuery where
  target : ObjectId
  /-- Commits that the request has proved visible already. -/
  roots : List ObjectId

/-- What a remembered hidden object was hidden under. -/
structure HiddenKey where
  scope : String
  target : ObjectId
  generation : RefGeneration
  deriving DecidableEq

structure VisibilityMemo where
  policy : BrowsePolicy
  capacity : Nat
  visible : List (String × ObjectId)
  hidden : List HiddenKey
  /-- The counts are natural numbers: below `2 ^ 64` calls a counter of 64 bits shows the same. -/
  hits : Nat
  misses : Nat
  deriving DecidableEq

namespace VisibilityMemo

def empty (policy : BrowsePolicy) (capacity : Nat) : VisibilityMemo :=
  ⟨policy, capacity, [], [], 0, 0⟩

def countHit (memo : VisibilityMemo) : VisibilityMemo := { memo with hits := memo.hits + 1 }

def countMiss (memo : VisibilityMemo) : VisibilityMemo := { memo with misses := memo.misses + 1 }

def rememberVisible (memo : VisibilityMemo) (scope : String) (target : ObjectId) :
    VisibilityMemo :=
  if memo.visible.contains (scope, target) then memo
  else { memo with visible := (scope, target) :: memo.visible }

/-- What stays when another key is to be stored. A full memory first loses what its scope remembers
of other generations, and everything when that makes no room. -/
def roomFor (memo : VisibilityMemo) (key : HiddenKey) : List HiddenKey :=
  if memo.hidden.length < memo.capacity then
    memo.hidden
  else
    let current :=
      memo.hidden.filter fun old => old.scope ≠ key.scope ∨ old.generation = key.generation
    if current.length < memo.capacity then current else []

def rememberHidden (memo : VisibilityMemo) (key : HiddenKey) : VisibilityMemo :=
  if memo.capacity = 0 then memo
  else
    let kept := memo.roomFor key
    { memo with hidden := if kept.contains key then kept else key :: kept }

def generation (memo : VisibilityMemo) (refs : List RefEntry) : RefGeneration :=
  .ofRefs ((memo.policy.browsable refs).map fun entry => (entry.name, entry.target))

def sortedRoots (roots : List ObjectId) : List ObjectId :=
  Sorting.sortBy (fun left right => left.text ≤ right.text) roots.eraseDups

/-- The stages of a search: the roots, then the tips of branches, tags and other browsable refs. -/
def stages (memo : VisibilityMemo) (refs : List RefEntry) (roots : List ObjectId) :
    List (List ObjectId) :=
  sortedRoots roots :: (memo.policy.tips refs).stages

/-- Searches ancestry for a commit that is no tip, and remembers the answer. -/
def search (memo : VisibilityMemo) (repo : Repository) (refs : List RefEntry)
    (query : VisibilityQuery) : Except Fault Bool × VisibilityMemo :=
  let key := ⟨repo.scope, query.target, memo.generation refs⟩
  if query.roots.isEmpty && memo.hidden.contains key then
    (.ok false, memo.countHit)
  else
    let missed := memo.countMiss
    match repo.isReachableInStages query.target (memo.stages refs query.roots) [] with
    | .error fault => (.error fault, missed)
    | .ok true => (.ok true, missed.rememberVisible repo.scope query.target)
    | .ok false =>
        (.ok false, if query.roots.isEmpty then missed.rememberHidden key else missed)

/-- Whether the target may be shown: it is remembered as visible, it is the tip of some ref, or it is a
commit that the roots or the browsable tips reach. -/
def check (memo : VisibilityMemo) (repo : Repository) (query : VisibilityQuery) :
    Except Fault Bool × VisibilityMemo :=
  if memo.visible.contains (repo.scope, query.target) then
    (.ok true, memo.countHit)
  else
    match repo.listRefs with
    | .error fault => (.error fault, memo)
    | .ok refs =>
        if BrowsePolicy.isTip refs query.target then
          (.ok true, memo.countMiss.rememberVisible repo.scope query.target)
        else
          match repo.kind query.target with
          | .error fault => (.error fault, memo)
          | .ok .commit => memo.search repo refs query
          | .ok _ => (.ok false, memo.countMiss)

end VisibilityMemo

end GuardedRevision
