import GuardedRevision.Ancestry
import GuardedRevision.Repository.Refs

/-!
# Complete repositories

A repository is complete when nothing that its refs and objects name is missing. Stores are complete
unless objects were lost; most of what is proved about answers is about complete repositories.
-/

namespace GuardedRevision

/-- The objects that an object names: its parents, or what it tags. -/
def StoredObject.links : StoredObject → List ObjectId
  | .commit stored => stored.parents
  | .tag stored => [stored.target]
  | _ => []

namespace Repository

def Holds (repo : Repository) (id : ObjectId) : Prop := ∃ object, repo.object id = .ok object

/-- `LeadsTo repo id other`: links of stored objects lead from the first to the second, in one step at
least. -/
inductive LeadsTo (repo : Repository) : ObjectId → ObjectId → Prop where
  | link {id other : ObjectId} {object : StoredObject} (stored : repo.object id = .ok object)
      (linked : other ∈ object.links) : LeadsTo repo id other
  | trans {id middle other : ObjectId} (first : LeadsTo repo id middle)
      (rest : LeadsTo repo middle other) : LeadsTo repo id other

structure Complete (repo : Repository) : Prop where
  /-- The target of every ref is stored, that of `HEAD` included. -/
  targets : ∀ {name : String} {id : ObjectId}, repo.refs.lookup name = some (.id id) → repo.Holds id
  /-- Whatever an object names is stored. -/
  links : ∀ {id other : ObjectId}, repo.LeadsTo id other → repo.Holds other
  parents : ∀ {id parent : ObjectId}, parent ∈ repo.parentsOf id → repo.isCommit parent = true
  acyclic : ∀ id : ObjectId, ¬ repo.LeadsTo id id
  names : ∀ entry ∈ repo.refs, ∃ name : RefName, name.text = entry.1
  /-- Every ref leads to an id, or to a ref that is not there. -/
  settled : ∀ entry ∈ repo.refs,
    repo.follow entry.2 = .absent ∨ ∃ id, repo.follow entry.2 = .id id

end Repository

end GuardedRevision
