import GuardedRevision.Repository

/-!
# Times of objects

Any object has a time to sort by: a commit its committer's, a tag its tagger's, and a tag without a
tagger that of the object it points at. Trees and blobs have none. Times never change, so what is
remembered stays.
-/

namespace GuardedRevision

/-- The time of objects that have none, before all others. -/
def noTime : Int := -9223372036854775808

structure TimeMemo where
  times : List (ObjectId × Int)
  deriving DecidableEq

namespace TimeMemo

def empty : TimeMemo := ⟨[]⟩

def time? (memo : TimeMemo) (id : ObjectId) : Option Int := memo.times.lookup id

def remember (memo : TimeMemo) (id : ObjectId) (time : Int) : TimeMemo :=
  if (memo.time? id).isSome then memo else ⟨(id, time) :: memo.times⟩

/-- The time of an object and the ids it was inherited along, the asked one first. -/
def deriveWithin (memo : TimeMemo) (repo : Repository) :
    Nat → ObjectId → Except Fault (Int × List ObjectId)
  | 0, _ => .error .internal
  | steps + 1, id =>
      match memo.time? id with
      | some time => .ok (time, [id])
      | none => do
          match ← repo.object id with
          | .commit commit => return (commit.time, [id])
          | .tag ⟨target, none⟩ =>
              let (time, chain) ← deriveWithin memo repo steps target
              return (time, id :: chain)
          | .tag ⟨_, some time⟩ => return (time, [id])
          | _ => return (noTime, [id])

def derive (memo : TimeMemo) (repo : Repository) (id : ObjectId) :
    Except Fault (Int × List ObjectId) :=
  memo.deriveWithin repo (repo.objects.length + 1) id

def rememberAll (memo : TimeMemo) (time : Int) (ids : List ObjectId) : TimeMemo :=
  ids.foldl (fun memo id => memo.remember id time) memo

/-- The time of an object, remembered for every object that shares it. A fault leaves the memo as it
was. -/
def time (memo : TimeMemo) (repo : Repository) (id : ObjectId) : Except Fault Int × TimeMemo :=
  match memo.derive repo id with
  | .error fault => (.error fault, memo)
  | .ok (time, chain) => (.ok time, memo.rememberAll time chain)

end TimeMemo

end GuardedRevision
