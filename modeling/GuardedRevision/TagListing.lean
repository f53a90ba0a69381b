import GuardedRevision.Repository.Refs
import GuardedRevision.TimeMemo

/-!
# Listing tags

Tags are listed newest first, and by name among those of one time.
-/

namespace GuardedRevision

structure TagEntry where
  /-- The name without its namespace. -/
  name : String
  ref : RefEntry
  time : Int
  deriving DecidableEq

namespace TagEntry

def isBefore (left right : TagEntry) : Bool :=
  right.time < left.time || (left.time == right.time && left.name ≤ right.name)

end TagEntry

namespace TimeMemo

/-- The tags of some refs, in the order of the refs. A fault keeps what was learnt before it. -/
def tagEntries (memo : TimeMemo) (repo : Repository) :
    List RefEntry → Except Fault (List TagEntry) × TimeMemo
  | [] => (.ok [], memo)
  | ref :: rest =>
      match RefName.after? RefName.tags ref.name.text with
      | none => tagEntries memo repo rest
      | some name =>
          match memo.time repo ref.target with
          | (.error fault, memo) => (.error fault, memo)
          | (.ok time, memo) =>
              let (later, memo) := tagEntries memo repo rest
              (later.map (⟨name, ref, time⟩ :: ·), memo)

/-- The tags of a repository in their order, at most `limit` of them. -/
def listTags (memo : TimeMemo) (repo : Repository) (limit : Option Nat) :
    Except Fault (List TagEntry) × TimeMemo :=
  match repo.listRefsUnder RefName.tags with
  | .error fault => (.error fault, memo)
  | .ok refs =>
      let (entries, memo) := memo.tagEntries repo refs
      let sorted := entries.map (Sorting.sortBy TagEntry.isBefore)
      (sorted.map fun tags => (limit.map tags.take).getD tags, memo)

end TimeMemo

end GuardedRevision
