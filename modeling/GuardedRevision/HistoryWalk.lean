import GuardedRevision.History

/-!
# History walks

A walk is a cursor over the history of the commits pushed and hidden so far. The first step fixes the
history. After it, a push waits for `rewind`, and hiding takes out no more than the commit itself.
`rewind` starts again from all recorded seeds.

A pass that has come to its end forgets its seeds and options. What is pushed then, without a rewind,
comes in the order in which it is found.
-/

namespace GuardedRevision

structure Pass where
  search : Search
  /-- What was pushed and hidden, the last first. -/
  seeds : List ObjectId
  /-- Whether anything was pushed with effect. -/
  pushed : Bool
  firstParent : Bool
  /-- Whether everything is gathered before the first commit is yielded. -/
  gathers : Bool
  /-- Whether children come before parents. -/
  ordered : Bool
  /-- Whether the queue holds what is to be yielded. -/
  begun : Bool

namespace Pass

/-- A pass that nothing was pushed to; what was read before stays known. -/
def fresh (read : List ObjectId) : Pass :=
  ⟨⟨read, [], [], [], []⟩, [], false, false, true, true, false⟩

def spent (pass : Pass) : Pass :=
  ⟨pass.search.reset, [], false, false, false, false, false⟩

/-- A commit that is hidden already stays so. -/
def push (pass : Pass) (id : ObjectId) : Pass :=
  if pass.search.isUnwanted id then pass
  else { pass with seeds := id :: pass.seeds, pushed := true }

def hide (pass : Pass) (id : ObjectId) : Pass :=
  if pass.search.isUnwanted id then pass
  else { pass with seeds := id :: pass.seeds, gathers := true, search := pass.search.hide id }

open Searching

def prepare (pass : Pass) (repo : Repository) : Searching Unit := do
  modify fun search => { search with queue := [] }
  seedAll repo pass.seeds
  if pass.gathers then
    let commits ← gather repo pass.firstParent
    modify fun search =>
      { search with queue := if pass.ordered then repo.order commits else commits }

/-- The next commit that is not hidden. Without gathering, parents are queued on the way. -/
def yieldWithin (pass : Pass) (repo : Repository) : Nat → Searching (Option ObjectId)
  | 0 => return none
  | steps + 1 => do
      match ← dequeue with
      | none => return none
      | some id =>
          unless pass.gathers do
            expand repo pass.firstParent id
          if (← get).isUnwanted id then yieldWithin pass repo steps else return some id

def yield (pass : Pass) (repo : Repository) : Searching (Option ObjectId) := do
  pass.yieldWithin repo (stepBound repo (← get))

def started (pass : Pass) (repo : Repository) : Except Fault Unit × Pass :=
  if pass.begun then (.ok (), pass)
  else match (pass.prepare repo).run.run pass.search with
    | (.error fault, search) => (.error fault, { pass with search := search })
    | (.ok (), search) => (.ok (), { pass with search := search, begun := true })

/-- The next commit. A pass to which nothing was pushed yields none and stays as it is. -/
def next (pass : Pass) (repo : Repository) : Except Fault (Option ObjectId) × Pass :=
  if !pass.begun && !pass.pushed then (.ok none, pass)
  else match pass.started repo with
    | (.error fault, pass) => (.error fault, pass)
    | (.ok (), pass) =>
        match (pass.yield repo).run.run pass.search with
        | (.error fault, search) => (.error fault, { pass with search := search })
        | (.ok none, search) => (.ok none, spent { pass with search := search })
        | (.ok (some id), search) => (.ok (some id), { pass with search := search })

end Pass

structure HistoryWalk where
  repo : Repository
  starts : List ObjectId
  hidden : List ObjectId
  firstParent : Bool
  pass : Pass

namespace HistoryWalk

def new (repo : Repository) : HistoryWalk := ⟨repo, [], [], false, .fresh []⟩

def requireCommit (walk : HistoryWalk) (id : ObjectId) : Except Fault Unit := do
  match ← walk.repo.kind id with
  | .commit => return ()
  | kind => throw (.notCommit id kind)

def pushCommit (walk : HistoryWalk) (id : ObjectId) : HistoryWalk :=
  { walk with starts := walk.starts ++ [id], pass := walk.pass.push id }

def hideCommit (walk : HistoryWalk) (id : ObjectId) : HistoryWalk :=
  { walk with hidden := walk.hidden ++ [id], pass := walk.pass.hide id }

def push (walk : HistoryWalk) (id : ObjectId) : Except Fault HistoryWalk := do
  walk.requireCommit id
  return walk.pushCommit id

def hide (walk : HistoryWalk) (id : ObjectId) : Except Fault HistoryWalk := do
  walk.requireCommit id
  return walk.hideCommit id

def firstParentOnly (walk : HistoryWalk) : HistoryWalk :=
  { walk with firstParent := true, pass := { walk.pass with firstParent := true } }

/-- Pushes come before hidings in the new pass, whatever their order was. -/
def rewind (walk : HistoryWalk) : HistoryWalk :=
  let fresh := { Pass.fresh walk.pass.search.read with firstParent := walk.firstParent }
  { walk with pass := walk.hidden.foldl Pass.hide (walk.starts.foldl Pass.push fresh) }

def next (walk : HistoryWalk) : Except Fault (Option ObjectId) × HistoryWalk :=
  let (found, pass) := walk.pass.next walk.repo
  (found, { walk with pass := pass })

def take : Nat → HistoryWalk → Except Fault (List ObjectId) × HistoryWalk
  | 0, walk => (.ok [], walk)
  | count + 1, walk =>
      match walk.next with
      | (.error fault, walk) => (.error fault, walk)
      | (.ok none, walk) => (.ok [], walk)
      | (.ok (some id), walk) =>
          let (later, walk) := take count walk
          (later.map (id :: ·), walk)

/-- One step more than there are commits comes to the end of every pass. -/
def stepsToEnd (walk : HistoryWalk) : Nat := walk.repo.commitIds.length + 1

def toList (walk : HistoryWalk) : Except Fault (List ObjectId) := (walk.take walk.stepsToEnd).1

def skipWithin (start : ObjectId) :
    Nat → HistoryWalk → Except Fault (List ObjectId × Bool) × HistoryWalk
  | 0, walk => (.ok ([], false), walk)
  | steps + 1, walk =>
      match walk.next with
      | (.error fault, walk) => (.error fault, walk)
      | (.ok none, walk) => (.ok ([], false), walk)
      | (.ok (some id), walk) =>
          if id = start then (.ok ([], true), walk)
          else
            let (later, walk) := skipWithin start steps walk
            (later.map fun found => (id :: found.1, found.2), walk)

/-- Goes on to just behind a commit, or to the end: the commits passed over, and whether the walk came to
the one looked for. -/
def skipTo (walk : HistoryWalk) (start : ObjectId) :
    Except Fault (List ObjectId × Bool) × HistoryWalk :=
  skipWithin start walk.stepsToEnd walk

end HistoryWalk

end GuardedRevision
