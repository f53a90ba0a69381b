import GuardedRevision.Ancestry
import GuardedRevision.BrowsePolicy

/-!
# Exposure

The meaning of visibility, apart from how it is searched for: what a policy lets a request see.
-/

namespace GuardedRevision

/-- `Marks repo target id`: a ref that points at `target` has `id` for a tip, which is the target
itself or what it peels to. -/
def Repository.Marks (repo : Repository) (target id : ObjectId) : Prop :=
  id = target ∨ repo.PeelsTo target id

/-- What may be shown to a request that holds some roots: exact tips of refs, and the commits that the
roots or the browsable refs reach. -/
inductive BrowsePolicy.Exposes (policy : BrowsePolicy) (repo : Repository) (refs : List RefEntry)
    (roots : List ObjectId) : ObjectId → Prop where
  | tip {target : ObjectId} {entry : RefEntry} (listed : entry ∈ refs)
      (marks : repo.Marks entry.target target) : Exposes policy repo refs roots target
  | root {target root : ObjectId} (held : root ∈ roots) (path : repo.Reaches root target) :
      Exposes policy repo refs roots target
  | ref {target tip : ObjectId} {entry : RefEntry} (listed : entry ∈ refs)
      (browsable : policy.isBrowsable entry.name = true) (peels : repo.PeelsTo entry.target tip)
      (path : repo.Reaches tip target) : Exposes policy repo refs roots target

end GuardedRevision
