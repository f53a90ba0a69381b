import GuardedRevision.Closure
import GuardedRevision.Repository

/-!
# Histories

A search gathers commits from a queue, parents after children, and marks the ancestors of hidden
commits as unwanted. What has been gathered is put into an order in which a commit comes after all its
children and, among the commits that may come next, the one with the greatest time does.

Unwanted marks go only as far as commits have been read. Once nothing but unwanted commits are queued,
all older than what was gathered last, the search goes on for a few of them and then ends. So where
times run against ancestry, a history may keep ancestors of a hidden commit.
-/

namespace GuardedRevision

namespace Repository

def commitIds (repo : Repository) : List ObjectId := repo.ids.filter repo.isCommit

def followed (repo : Repository) (firstParent : Bool) (id : ObjectId) : List ObjectId :=
  if firstParent then (repo.parentsOf id).take 1 else repo.parentsOf id

def commitTime (repo : Repository) (id : ObjectId) : Int :=
  ((repo.commit? id).map Commit.time).getD 0

/-! ### Order -/

/-- The commit with the greatest time, the first of several. -/
def newest? (repo : Repository) : List ObjectId → Option ObjectId
  | [] => none
  | id :: rest =>
      match newest? repo rest with
      | none => some id
      | some other => if repo.commitTime other ≤ repo.commitTime id then some id else some other

/-- Whether no child of a commit is still pending. -/
def isReady (repo : Repository) (pending : List ObjectId) (id : ObjectId) : Bool :=
  pending.all fun child => !(repo.parentsOf child).contains id

def orderWithin (repo : Repository) : Nat → List ObjectId → List ObjectId
  | 0, _ => []
  | steps + 1, pending =>
      match repo.newest? (pending.filter (repo.isReady pending)) with
      | none => []
      | some id => id :: orderWithin repo steps (pending.erase id)

/-- Children before parents, and the newest first as far as that allows. -/
def order (repo : Repository) (commits : List ObjectId) : List ObjectId :=
  repo.orderWithin commits.length commits

/-- Puts a commit behind all that are not older. -/
def insertByTime (repo : Repository) (id : ObjectId) : List ObjectId → List ObjectId
  | [] => [id]
  | other :: rest =>
      if repo.commitTime other < repo.commitTime id then id :: other :: rest
      else other :: insertByTime repo id rest

def readParent (repo : Repository) (id : ObjectId) : Except Fault Unit :=
  match repo.object id with
  | .ok (.commit _) => .ok ()
  | .error (.missingObject _) => .error .brokenHistory
  | _ => .error .internal

end Repository

structure Search where
  /-- The commits whose parents are known. -/
  read : List ObjectId
  /-- The hidden commits and their ancestors, as far as they have been found. -/
  unwanted : List ObjectId
  seen : List ObjectId
  /-- The commits whose parents have been queued. -/
  expanded : List ObjectId
  queue : List ObjectId

namespace Search

def isUnwanted (search : Search) (id : ObjectId) : Bool := search.unwanted.contains id

def hide (search : Search) (id : ObjectId) : Search :=
  { search with unwanted := id :: search.unwanted }

/-- Marks the ancestors of a commit, over commits that have been read and are not marked yet. -/
def hideAncestors (search : Search) (repo : Repository) (id : ObjectId) : Search :=
  let unmarked := repo.commitIds.filter fun other => !search.isUnwanted other
  let known := fun other => if search.read.contains other then repo.parentsOf other else []
  { search with unwanted := closure known unmarked (repo.parentsOf id) ++ search.unwanted }

def enqueue (search : Search) (repo : Repository) (id : ObjectId) : Search :=
  { search with seen := id :: search.seen, queue := repo.insertByTime id search.queue }

/-- Forgets everything but what was read. -/
def reset (search : Search) : Search := ⟨search.read, [], [], [], []⟩

end Search

/-- A computation that searches, which keeps what it found out also when there is a fault. -/
abbrev Searching := ExceptT Fault (StateM Search)

namespace Searching

variable (repo : Repository)

def learn (id : ObjectId) : Searching Unit := do
  unless (← get).read.contains id do
    match repo.readParent id with
    | .error fault => throw fault
    | .ok () => modify fun search => { search with read := id :: search.read }

/-- Queues the parents of an unwanted commit, whether they have been queued or not. -/
def queueUnwanted : List ObjectId → Searching Unit
  | [] => return ()
  | parent :: rest => do
      modify (·.hide parent)
      learn repo parent
      modify fun search => (search.hideAncestors repo parent).enqueue repo parent
      queueUnwanted rest

def queueWanted : List ObjectId → Searching Unit
  | [] => return ()
  | parent :: rest => do
      learn repo parent
      unless (← get).seen.contains parent do
        modify (·.enqueue repo parent)
      queueWanted rest

def expand (firstParent : Bool) (id : ObjectId) : Searching Unit := do
  unless (← get).expanded.contains id do
    modify fun search => { search with expanded := id :: search.expanded }
    if (← get).isUnwanted id then queueUnwanted repo (repo.parentsOf id)
    else queueWanted repo (repo.followed firstParent id)

def dequeue : Searching (Option ObjectId) := do
  match (← get).queue with
  | [] => return none
  | id :: rest =>
      modify fun search => { search with queue := rest }
      return some id

def seedAll : List ObjectId → Searching Unit
  | [] => return ()
  | id :: rest => do
      learn repo id
      if (← get).isUnwanted id then
        modify (·.hideAncestors repo id)
      unless (← get).seen.contains id do
        modify fun search =>
          { search with seen := id :: search.seen, queue := search.queue ++ [id] }
      seedAll rest

/-- How many unwanted commits in a row a search looks at before it ends. -/
def patience : Nat := 5

/-- The patience left after an unwanted commit: all of it while something queued is wanted or not older
than what was gathered last. -/
def patienceLeft (search : Search) (latest : Int) (left : Nat) : Nat :=
  match search.queue with
  | [] => 0
  | first :: _ =>
      if latest ≤ repo.commitTime first ||
          search.queue.any fun id => !search.isUnwanted id || latest < repo.commitTime id then
        patience
      else
        left - 1

def gatherWithin (firstParent : Bool) : Nat → Int → Nat → Searching (List ObjectId)
  | 0, _, _ => return []
  | steps + 1, latest, left => do
      match ← dequeue with
      | none => return []
      | some id =>
          expand repo firstParent id
          if (← get).isUnwanted id then
            modify (·.hideAncestors repo id)
            let left := patienceLeft repo (← get) latest left
            if left = 0 then return [] else gatherWithin firstParent steps latest left
          else
            return id :: (← gatherWithin firstParent steps (repo.commitTime id) left)

/-- No search takes more steps: what is queued, and each commit's parents once. -/
def stepBound (search : Search) : Nat :=
  search.queue.length + (repo.commitIds.flatMap repo.parentsOf).length + 1

def latestTime : Int := 9223372036854775807

def gather (firstParent : Bool) : Searching (List ObjectId) := do
  gatherWithin repo firstParent (stepBound repo (← get)) latestTime patience

end Searching

end GuardedRevision
