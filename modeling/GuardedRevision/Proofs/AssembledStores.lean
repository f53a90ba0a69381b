import GuardedRevision.Proofs.Outcome
import GuardedRevision.Proofs.Storage

/-!
# Assembled stores

Stores that are put together from others: a part of one repository, and what several repositories hold
between them when an id stands for the same object wherever it is stored.
-/

namespace GuardedRevision.Repository

/-- The store that holds what is found under some ids. -/
def assemble (ids : List ObjectId) (find : ObjectId → Option StoredObject) : Repository where
  scope := ""
  -- The tree without entries is in every store that has nothing else in its place.
  objects := (.emptyTree :: ids).map fun id => (id, ((find id).map .readable).getD (.unreadable .tree))
  refs := []
  folders := []

/-- The part of a repository that has these ids. -/
def restrict (repo : Repository) (keeps : ObjectId → Bool) : Repository :=
  assemble (repo.objects.map Prod.fst) fun id => if keeps id then (repo.object id).toOption else none

def pool (repos : List Repository) : Repository :=
  assemble (repos.flatMap fun repo => repo.objects.map Prod.fst) fun id =>
    repos.findSome? fun repo => (repo.object id).toOption

/-- An id stands for the same object in both repositories, if both have it. -/
def Agrees (left right : Repository) : Prop :=
  ∀ id object other, left.object id = .ok object → right.object id = .ok other → object = other

variable {repo : Repository} {repos : List Repository} {ids : List ObjectId}
  {find : ObjectId → Option StoredObject} {keeps : ObjectId → Bool} {id : ObjectId} {object : StoredObject}

theorem lookup_map_mk {β : Type} (value : ObjectId → β) :
    (ids.map fun id => (id, value id)).lookup id = if id ∈ ids then some (value id) else none := by
  induction ids with
  | nil => rfl
  | cons first rest ih =>
      rw [List.map_cons, List.lookup_cons, ih]
      by_cases hfirst : id = first
      · simp [hfirst]
      · rw [beq_false_of_ne hfirst]
        simp [hfirst]

theorem mem_of_object (hobject : repo.object id = .ok object) :
    id ∈ ObjectId.emptyTree :: repo.objects.map Prod.fst := by
  by_cases hempty : id = .emptyTree
  · exact hempty ▸ List.mem_cons_self
  · unfold Repository.object at hobject
    rw [if_pos (isStorable_of_object hobject)] at hobject
    cases hlookup : repo.objects.lookup id with
    | none => simp [hlookup, hempty] at hobject
    | some stored =>
        obtain ⟨before, after, heq, _⟩ := List.lookup_eq_some_iff.mp hlookup
        simp [heq]

theorem Agrees.symm {left right : Repository} (agrees : left.Agrees right) : right.Agrees left :=
  fun id object other hright hleft => (agrees id other object hleft hright).symm

theorem Grows.agrees {larger : Repository} (grows : repo.Grows larger) : repo.Agrees larger :=
  fun _ _ _ hobject hother => Except.ok.inj ((grows hobject).symm.trans hother)

theorem object_assemble_eq_ok_iff : (assemble ids find).object id = .ok object ↔
    id.isStorable = true ∧ id ∈ ObjectId.emptyTree :: ids ∧ find id = some object := by
  have hlookup : (assemble ids find).objects.lookup id =
      if id ∈ ObjectId.emptyTree :: ids then
        some (((find id).map .readable).getD (.unreadable .tree)) else none := lookup_map_mk _
  unfold Repository.object
  rw [hlookup]
  by_cases hstorable : id.isStorable = true
  · by_cases hmem : id ∈ ObjectId.emptyTree :: ids
    · rw [if_pos hstorable, if_pos hmem]
      cases find id with
      | none => simp
      | some found => simp [hstorable, hmem]
    · have hempty : id ≠ .emptyTree := fun heq => hmem (heq ▸ List.mem_cons_self)
      simp [hstorable, hmem, hempty]
  · simp [hstorable]

theorem object_restrict_eq_ok_iff : (repo.restrict keeps).object id = .ok object ↔
    keeps id = true ∧ repo.object id = .ok object := by
  unfold restrict
  rw [object_assemble_eq_ok_iff]
  by_cases hkeeps : keeps id = true
  · rw [if_pos hkeeps, except_toOption_eq_some_iff, and_iff_right hkeeps]
    exact ⟨fun h => h.2.2, fun hobject => ⟨isStorable_of_object hobject, mem_of_object hobject, hobject⟩⟩
  · simp [hkeeps]

theorem grows_of_restrict : (repo.restrict keeps).Grows repo := fun hobject =>
  (object_restrict_eq_ok_iff.mp hobject).2

theorem isCommit_restrict : (repo.restrict keeps).isCommit id = true ↔
    keeps id = true ∧ repo.isCommit id = true := by
  simp only [isCommit_iff, object_restrict_eq_ok_iff, exists_and_left]

/-- Where the repositories agree, the pool has what some of them has, and nothing else. -/
theorem object_pool_eq_ok_iff (agree : ∀ left ∈ repos, ∀ right ∈ repos, left.Agrees right) :
    (pool repos).object id = .ok object ↔ ∃ repo ∈ repos, repo.object id = .ok object := by
  unfold pool
  rw [object_assemble_eq_ok_iff]
  constructor
  · rintro ⟨_, _, hfind⟩
    obtain ⟨repo, hrepo, hfound⟩ := List.exists_of_findSome?_eq_some hfind
    exact ⟨repo, hrepo, except_toOption_eq_some_iff.mp hfound⟩
  · rintro ⟨repo, hrepo, hobject⟩
    refine ⟨isStorable_of_object hobject, ?_, ?_⟩
    · rcases List.mem_cons.mp (mem_of_object hobject) with hempty | hkey
      · exact hempty ▸ List.mem_cons_self
      · exact List.mem_cons_of_mem _ (List.mem_flatMap.mpr ⟨repo, hrepo, hkey⟩)
    · cases hfind : repos.findSome? fun repo => (repo.object id).toOption with
      | none =>
          have hnone := List.findSome?_eq_none_iff.mp hfind repo hrepo
          rw [except_toOption_eq_some_iff.mpr hobject] at hnone
          cases hnone
      | some found =>
          obtain ⟨other, hother, hfound⟩ := List.exists_of_findSome?_eq_some hfind
          rw [agree repo hrepo other hother id object found hobject (except_toOption_eq_some_iff.mp hfound)]

theorem grows_pool (agree : ∀ left ∈ repos, ∀ right ∈ repos, left.Agrees right) (hrepo : repo ∈ repos) :
    repo.Grows (pool repos) :=
  fun hobject => (object_pool_eq_ok_iff agree).mpr ⟨repo, hrepo, hobject⟩

end GuardedRevision.Repository
