import GuardedRevision.HistoryWalk
import GuardedRevision.Repository.Refs

/-!
# Browse policies

A policy names the namespaces whose refs never seed a search of ancestry. It keeps no state: the
tips of a list of refs and the reachability of a commit are functions of what is passed in.
-/

namespace GuardedRevision

/-- Ref tips in the groups in which they are searched. -/
structure Tips where
  heads : List ObjectId
  tags : List ObjectId
  other : List ObjectId
  deriving DecidableEq

namespace Tips

def stages (tips : Tips) : List (List ObjectId) := [tips.heads, tips.tags, tips.other]

def isEmpty (tips : Tips) : Bool :=
  tips.heads.isEmpty && tips.tags.isEmpty && tips.other.isEmpty

end Tips

structure BrowsePolicy where
  excluded : List String
  deriving DecidableEq

namespace BrowsePolicy

/-- Whether some ref points at exactly this object, directly or at the end of a tag chain. Excluded
namespaces count: who names the exact tip of such a ref learns nothing new. -/
def isTip (refs : List RefEntry) (id : ObjectId) : Bool :=
  refs.any fun entry => entry.target == id || entry.peeled == some id

def isBrowsable (policy : BrowsePolicy) (name : RefName) : Bool := !name.isUnderAny policy.excluded

def browsable (policy : BrowsePolicy) (refs : List RefEntry) : List RefEntry :=
  refs.filter fun entry => policy.isBrowsable entry.name

/-- The tips of the browsable refs: branches, then tags, then the rest. An object that several refs
point at stays in the first group it occurs in. -/
def tips (policy : BrowsePolicy) (refs : List RefEntry) : Tips :=
  let browsable := policy.browsable refs
  let heads := (browsable.filter (·.name.isBranch)).map (·.tip)
  let tags := (browsable.filter fun entry => !entry.name.isBranch && entry.name.isTag).map (·.tip)
  let other :=
    (browsable.filter fun entry => !entry.name.isBranch && !entry.name.isTag).map (·.tip)
  { heads := heads.eraseDups
    tags := (tags.filter fun id => !heads.contains id).eraseDups
    other := (other.filter fun id => !heads.contains id && !tags.contains id).eraseDups }

end BrowsePolicy

namespace Repository

def commitsOf (repo : Repository) : List ObjectId → Except Fault (List ObjectId)
  | [] => .ok []
  | id :: rest => do
      let kind ← repo.kind id
      let later ← commitsOf repo rest
      return if kind = .commit then id :: later else later

/-- Whether the target is one of the starters or an ancestor of one, leaving out the history of
`searched`. A search in stages passes the starters of the earlier stages there: what they reach has
been found already. Starters that are no commits are passed over. -/
def isReachableBeyond (repo : Repository) (target : ObjectId) (starters searched : List ObjectId) :
    Except Fault Bool := do
  if starters.isEmpty then
    return false
  if starters.contains target then
    return true
  if (← repo.kind target) ≠ .commit then
    return false
  let pushed ← repo.commitsOf starters
  if pushed.isEmpty then
    return false
  let hidden ← repo.commitsOf searched
  let walk := hidden.foldl HistoryWalk.hideCommit (pushed.foldl HistoryWalk.pushCommit (.new repo))
  return (← walk.toList).contains target

def isReachableFrom (repo : Repository) (target : ObjectId) (starters : List ObjectId) :
    Except Fault Bool :=
  repo.isReachableBeyond target starters []

/-- Searches the stages in order, each beyond the ones before it; an empty stage is passed over. -/
def isReachableInStages (repo : Repository) (target : ObjectId) :
    List (List ObjectId) → List ObjectId → Except Fault Bool
  | [], _ => .ok false
  | stage :: later, searched =>
      if stage.isEmpty then
        isReachableInStages repo target later searched
      else
        match repo.isReachableBeyond target stage searched with
        | .error fault => .error fault
        | .ok true => .ok true
        | .ok false => isReachableInStages repo target later (searched ++ stage)

end Repository

end GuardedRevision
