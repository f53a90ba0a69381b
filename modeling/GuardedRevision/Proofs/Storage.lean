import GuardedRevision.History
import GuardedRevision.Repository.Complete

/-!
# Stored objects

What the look-ups of a repository answer, in terms of the object that is stored under an id. A
repository grows into a larger one when every object that it holds is kept; most answers about an
object that is there stay what they were.
-/

namespace GuardedRevision

/-- `Grows repo larger`: whatever the first holds, the second holds under the same id. -/
def Repository.Grows (repo larger : Repository) : Prop :=
  ∀ {id : ObjectId} {object : StoredObject}, repo.object id = .ok object →
    larger.object id = .ok object

namespace Repository

variable {repo larger : Repository} {id : ObjectId}

theorem kind_eq_ok_iff {kind : ObjectKind} :
    repo.kind id = .ok kind ↔ ∃ object, repo.object id = .ok object ∧ object.kind = kind := by
  unfold Repository.kind
  cases repo.object id with
  | error fault => simp [bind, Except.bind]
  | ok object => simp [bind, Except.bind, pure, Except.pure]

theorem commit?_eq_some_iff {commit : Commit} :
    repo.commit? id = some commit ↔ repo.object id = .ok (.commit commit) := by
  unfold commit?
  split
  · next found hfound => simp [hfound]
  · next hother =>
      constructor
      · simp
      · intro hobject
        exact absurd hobject (hother commit)

theorem isCommit_iff : repo.isCommit id = true ↔ ∃ commit, repo.object id = .ok (.commit commit) := by
  simp only [isCommit, Option.isSome_iff_exists, commit?_eq_some_iff]

theorem parentsOf_eq {commit : Commit} (stored : repo.object id = .ok (.commit commit)) :
    repo.parentsOf id = commit.parents := by
  simp [parentsOf, commit?_eq_some_iff.mpr stored]

theorem parentsOf_eq_nil (hcommit : repo.isCommit id = false) : repo.parentsOf id = [] := by
  have hnone : repo.commit? id = none := by simpa [isCommit] using hcommit
  simp [parentsOf, hnone]

theorem kind_eq_commit_iff : repo.kind id = .ok .commit ↔ repo.isCommit id = true := by
  rw [kind_eq_ok_iff, isCommit_iff]
  constructor
  · rintro ⟨object, hobject, hkind⟩
    cases object with
    | commit commit => exact ⟨commit, hobject⟩
    | tree => simp [StoredObject.kind] at hkind
    | blob => simp [StoredObject.kind] at hkind
    | tag tag => simp [StoredObject.kind] at hkind
  · rintro ⟨commit, hobject⟩
    exact ⟨_, hobject, rfl⟩

theorem holds_of_kind {kind : ObjectKind} (hkind : repo.kind id = .ok kind) : repo.Holds id := by
  obtain ⟨object, hobject, _⟩ := kind_eq_ok_iff.mp hkind
  exact ⟨object, hobject⟩

theorem Holds.kind (holds : repo.Holds id) : ∃ kind, repo.kind id = .ok kind := by
  obtain ⟨object, hobject⟩ := holds
  exact ⟨object.kind, kind_eq_ok_iff.mpr ⟨object, hobject, rfl⟩⟩

theorem holds_of_isCommit (hcommit : repo.isCommit id = true) : repo.Holds id := by
  obtain ⟨commit, hobject⟩ := isCommit_iff.mp hcommit
  exact ⟨_, hobject⟩

theorem parents_eq_ok_iff {parents : List ObjectId} :
    repo.parents id = .ok parents ↔ repo.isCommit id = true ∧ parents = repo.parentsOf id := by
  rw [isCommit_iff]
  unfold Repository.parents
  cases hobject : repo.object id with
  | error fault => simp [bind, Except.bind]
  | ok object =>
      cases object with
      | commit commit =>
          simp [bind, Except.bind, pure, Except.pure, parentsOf_eq hobject, eq_comm]
      | tree => simp [bind, Except.bind, throw, throwThe, MonadExceptOf.throw]
      | blob => simp [bind, Except.bind, throw, throwThe, MonadExceptOf.throw]
      | tag tag => simp [bind, Except.bind, throw, throwThe, MonadExceptOf.throw]

theorem readParent_eq_ok_iff : repo.readParent id = .ok () ↔ repo.isCommit id = true := by
  rw [isCommit_iff]
  unfold readParent
  split
  · next commit hobject => simp [hobject]
  · next fault hobject => simp [hobject]
  · next hcommit _ =>
      constructor
      · simp
      · rintro ⟨commit, hobject⟩
        exact absurd hobject (hcommit commit)

theorem isStorable_of_object {object : StoredObject} (hobject : repo.object id = .ok object) :
    id.isStorable = true := by
  unfold Repository.object at hobject
  split at hobject
  · next hstorable => exact hstorable
  · simp at hobject

/-- Only the tree without entries is there without having been stored. -/
theorem mem_keys_of_object {object : StoredObject} (hobject : repo.object id = .ok object)
    (hne : object ≠ .tree) : id ∈ repo.objects.map Prod.fst := by
  unfold Repository.object at hobject
  rw [if_pos (isStorable_of_object hobject)] at hobject
  split at hobject
  · next found hlookup =>
      obtain ⟨_, _, heq, _⟩ := List.lookup_eq_some_iff.mp hlookup
      simp [heq]
  · simp at hobject
  · split at hobject
    · exact absurd (Except.ok.inj hobject).symm hne
    · simp at hobject

theorem mem_commitIds : id ∈ repo.commitIds ↔ repo.isCommit id = true := by
  unfold commitIds ids
  rw [List.mem_filter, List.mem_eraseDups, List.mem_filter]
  constructor
  · exact fun h => h.2
  · intro hcommit
    obtain ⟨commit, hobject⟩ := isCommit_iff.mp hcommit
    exact ⟨⟨mem_keys_of_object hobject (by simp), isStorable_of_object hobject⟩, hcommit⟩

theorem nodup_eraseDups (ids : List ObjectId) : ids.eraseDups.Nodup := by
  induction hlength : ids.length using Nat.strongRecOn generalizing ids with
  | _ length ih =>
      cases ids with
      | nil => simp
      | cons id rest =>
          rw [List.eraseDups_cons, List.nodup_cons, List.mem_eraseDups]
          refine ⟨by simp, ih _ ?_ _ rfl⟩
          have hle := List.length_filter_le (fun other => !other == id) rest
          rw [List.length_cons] at hlength
          omega

theorem nodup_ids : repo.ids.Nodup := nodup_eraseDups _

/-! ### Growth -/

theorem Grows.refl (repo : Repository) : repo.Grows repo := fun h => h

theorem Grows.trans {middle : Repository} (first : repo.Grows middle) (rest : middle.Grows larger) :
    repo.Grows larger := fun h => rest (first h)

theorem Grows.kind {kind : ObjectKind} (grows : repo.Grows larger)
    (hkind : repo.kind id = .ok kind) : larger.kind id = .ok kind := by
  obtain ⟨object, hobject, heq⟩ := kind_eq_ok_iff.mp hkind
  exact kind_eq_ok_iff.mpr ⟨object, grows hobject, heq⟩

theorem Grows.commit? (grows : repo.Grows larger) (hcommit : repo.isCommit id = true) :
    larger.commit? id = repo.commit? id := by
  obtain ⟨commit, hobject⟩ := isCommit_iff.mp hcommit
  rw [commit?_eq_some_iff.mpr hobject, commit?_eq_some_iff.mpr (grows hobject)]

theorem Grows.isCommit (grows : repo.Grows larger) (hcommit : repo.isCommit id = true) :
    larger.isCommit id = true := by
  unfold Repository.isCommit at hcommit ⊢
  rwa [grows.commit? hcommit]

theorem Grows.parentsOf (grows : repo.Grows larger) (hcommit : repo.isCommit id = true) :
    larger.parentsOf id = repo.parentsOf id := by
  unfold Repository.parentsOf
  rw [grows.commit? hcommit]

theorem Grows.commitTime (grows : repo.Grows larger) (hcommit : repo.isCommit id = true) :
    larger.commitTime id = repo.commitTime id := by
  unfold Repository.commitTime
  rw [grows.commit? hcommit]

end Repository

end GuardedRevision
