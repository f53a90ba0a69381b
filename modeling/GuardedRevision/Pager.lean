import GuardedRevision.CommitRecord
import GuardedRevision.HistoryWalk
import GuardedRevision.Resolution

/-!
# Pages of a history

A pager yields one page of a walk, commit by commit. The page begins at a given commit, or at the top
when there is none or the walk does not come to it. Two markers lead to the neighbouring pages: the
commit right after the page, and the commit one page before its first.
-/

namespace GuardedRevision

structure Page where
  items : List CommitRecord
  previous : Option ObjectId
  next : Option ObjectId
  deriving DecidableEq

structure Pager where
  walk : HistoryWalk
  /-- The size of the page, at least one. -/
  limit : Nat
  start : Option ObjectId
  sought : Bool
  done : Bool
  /-- The commit that the search for the first one stopped at. -/
  pending : Option ObjectId
  returned : Nat
  previous : Option ObjectId
  next : Option ObjectId

namespace Pager

/-- A limit of zero counts as one. -/
def new (walk : HistoryWalk) (limit : Nat) (start : Option ObjectId) : Pager :=
  ⟨walk, max limit 1, start, false, false, none, 0, none, none⟩

/-- The marker of the page before one that `skipped` commits precede: a full page back, or the top when
there is less than a page, or nothing at the top itself. -/
def markerBefore (limit : Nat) (skipped : List ObjectId) : Option ObjectId :=
  if limit ≤ skipped.length then skipped[skipped.length - limit]? else skipped.head?

def seekNext (pager : Pager) : Except Fault Unit × Pager :=
  match pager.walk.next with
  | (.error fault, walk) => (.error fault, { pager with walk := walk })
  | (.ok id, walk) => (.ok (), { pager with walk := walk, pending := id })

/-- Looks for the first commit of the page. A walk that ends before it comes to `start` is replayed. -/
def seek (pager : Pager) : Except Fault Unit × Pager :=
  match pager.start with
  | none => pager.seekNext
  | some start =>
      match pager.walk.skipTo start with
      | (.error fault, walk) => (.error fault, { pager with walk := walk })
      | (.ok (skipped, true), walk) =>
          (.ok (),
            { pager with
              walk := walk
              pending := some start
              previous := markerBefore pager.limit skipped })
      | (.ok (skipped, false), walk) =>
          seekNext { pager with walk := if skipped.isEmpty then walk else walk.rewind }

def upcoming (pager : Pager) : Except Fault (Option ObjectId) × HistoryWalk :=
  match pager.pending with
  | some id => (.ok (some id), pager.walk)
  | none => if pager.returned = 0 then (.ok none, pager.walk) else pager.walk.next

def advance (pager : Pager) : Except Fault (Option CommitRecord) × Pager :=
  if pager.returned = pager.limit then
    match pager.walk.next with
    | (.error fault, walk) => (.error fault, { pager with walk := walk })
    | (.ok next, walk) => (.ok none, { pager with walk := walk, next := next, done := true })
  else
    match pager.upcoming with
    | (.error fault, walk) => (.error fault, { pager with walk := walk })
    | (.ok none, walk) => (.ok none, { pager with walk := walk, done := true })
    | (.ok (some id), walk) =>
        ((walk.repo.commitRecord id).map some,
          { pager with walk := walk, pending := none, returned := pager.returned + 1 })

def begun (pager : Pager) : Except Fault Unit × Pager :=
  if pager.sought then (.ok (), pager) else seek { pager with sought := true }

/-- The next commit of the page. The page is over at its end and after a fault. -/
def step (pager : Pager) : Except Fault (Option CommitRecord) × Pager :=
  if pager.done then
    (.ok none, pager)
  else
    match pager.begun with
    | (.error fault, pager) => (.error fault, { pager with done := true })
    | (.ok (), pager) =>
        match pager.advance with
        | (.error fault, pager) => (.error fault, { pager with done := true })
        | (.ok record, pager) => (.ok record, pager)

def take : Nat → Pager → Except Fault (List CommitRecord) × Pager
  | 0, pager => (.ok [], pager)
  | count + 1, pager =>
      match pager.step with
      | (.error fault, pager) => (.error fault, pager)
      | (.ok none, pager) => (.ok [], pager)
      | (.ok (some record), pager) =>
          let (later, pager) := take count pager
          (later.map (record :: ·), pager)

/-- Runs to the end of the page: its commits, and the step that finds the marker after them. -/
def page (pager : Pager) : Except Fault Page :=
  match pager.take (pager.limit + 1) with
  | (.error fault, _) => .error fault
  | (.ok items, pager) => .ok ⟨items, pager.previous, pager.next⟩

end Pager

/-- The walk of a resolution: the history of its revision, without that of the old side. -/
def Resolution.walk (repo : Repository) (resolution : Resolution) : Except Fault HistoryWalk := do
  let walk ← (HistoryWalk.new repo).push resolution.revision.peeledId
  match resolution.old with
  | none => return walk
  | some old => walk.hide old.peeledId

end GuardedRevision
