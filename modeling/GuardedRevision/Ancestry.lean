import GuardedRevision.Repository

/-!
# Ancestry

The meaning of histories, apart from how they are computed: a commit reaches itself and whatever its
parents reach.
-/

namespace GuardedRevision

/-- `Reaches repo descendant ancestor`: both are stored commits, and parent links lead from the first
to the second, in any number of steps. -/
inductive Repository.Reaches (repo : Repository) : ObjectId → ObjectId → Prop where
  | refl {id : ObjectId} (stored : repo.isCommit id = true) : Reaches repo id id
  | parent {id parent ancestor : ObjectId} (link : parent ∈ repo.parentsOf id)
      (rest : Reaches repo parent ancestor) : Reaches repo id ancestor

/-- Like `Reaches`, along first parents only. -/
inductive Repository.ReachesFirst (repo : Repository) : ObjectId → ObjectId → Prop where
  | refl {id : ObjectId} (stored : repo.isCommit id = true) : ReachesFirst repo id id
  | parent {id parent ancestor : ObjectId} (link : (repo.parentsOf id).head? = some parent)
      (rest : ReachesFirst repo parent ancestor) : ReachesFirst repo id ancestor

/-- `PeelsTo repo id last`: the chain of tag targets from `id` ends at the stored object `last`, which
is no tag. -/
inductive Repository.PeelsTo (repo : Repository) : ObjectId → ObjectId → Prop where
  | stop {id : ObjectId} {object : StoredObject} (stored : repo.object id = .ok object)
      (plain : object.kind ≠ .tag) : PeelsTo repo id id
  | tag {id last : ObjectId} {tag : Tag} (stored : repo.object id = .ok (.tag tag))
      (rest : PeelsTo repo tag.target last) : PeelsTo repo id last

theorem Repository.isCommit_of_mem_parentsOf {repo : Repository} {id parent : ObjectId}
    (link : parent ∈ repo.parentsOf id) : repo.isCommit id = true := by
  unfold parentsOf at link
  unfold isCommit
  cases hcommit : repo.commit? id with
  | none => simp [hcommit] at link
  | some _ => rfl

theorem Repository.Reaches.isCommit_left {repo : Repository} {id ancestor : ObjectId}
    (h : repo.Reaches id ancestor) : repo.isCommit id = true := by
  cases h with
  | refl stored => exact stored
  | parent link _ => exact isCommit_of_mem_parentsOf link

theorem Repository.Reaches.isCommit_right {repo : Repository} {id ancestor : ObjectId}
    (h : repo.Reaches id ancestor) : repo.isCommit ancestor = true := by
  induction h with
  | refl stored => exact stored
  | parent _ _ ih => exact ih

theorem Repository.Reaches.trans {repo : Repository} {a b c : ObjectId}
    (hab : repo.Reaches a b) (hbc : repo.Reaches b c) : repo.Reaches a c := by
  induction hab with
  | refl _ => exact hbc
  | parent link _ ih => exact .parent link (ih hbc)

end GuardedRevision
