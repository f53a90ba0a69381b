import GuardedRevision.Proofs.Digits
import GuardedRevision.Proofs.Disclosure
import GuardedRevision.Proofs.Growth
import GuardedRevision.Proofs.Service

/-!
# Larger stores

A complete repository, and another one with the same refs that stores more. Whatever is reached from the
refs is found in both, and looks the same. What only the larger one stores is found by its id alone.
-/

namespace GuardedRevision

structure Repository.SameRefs (repo larger : Repository) : Prop where
  refs : larger.refs = repo.refs
  folders : larger.folders = repo.folders

/-- `Within repo larger`: the same refs, and every id that already stood for something still stands for
it, for what cannot be read as well. -/
structure Repository.Within (repo larger : Repository) : Prop where
  refs : larger.refs = repo.refs
  folders : larger.folders = repo.folders
  objects : ∀ {id : ObjectId}, repo.object id ≠ .error (.missingObject id) →
    larger.object id = repo.object id

namespace Repository

variable {repo larger : Repository} {id target other base : ObjectId} {name text : String}
  {steps : List Step} {policy : BrowsePolicy} {refs : List RefEntry} {roots : List ObjectId}

theorem within_addObjects {objects : List (ObjectId × StoredEntry)}
    (faithful : (Change.addObjects objects).IsFaithful) : repo.Within (repo.addObjects objects) := by
  refine ⟨rfl, rfl, fun {id} hknown => ?_⟩
  cases hobject : repo.object id with
  | ok object =>
      have hgrows : repo.Grows (repo.addObjects objects) := faithful.grows
      exact hgrows hobject
  | error fault =>
      rw [hobject] at hknown
      unfold addObjects
      unfold Repository.object at hobject ⊢
      split at hobject
      · next hstorable =>
          rw [if_pos hstorable]
          dsimp only
          rw [List.lookup_append]
          split at hobject
          · cases hobject
          · next hlookup =>
              rw [hlookup]
              exact hobject
          · split at hobject
            · cases hobject
            · cases hobject
              exact absurd rfl hknown
      · next hstorable =>
          rw [if_neg hstorable]
          exact hobject

/-! ### Refs -/

namespace SameRefs

variable (same : repo.SameRefs larger)
include same

theorem isFolder (path : List (List Char)) : larger.isFolder path = repo.isFolder path := by
  unfold Repository.isFolder
  rw [same.refs, same.folders]

theorem fileAt (path : List (List Char)) : larger.fileAt path = repo.fileAt path := by
  unfold Repository.fileAt
  rw [same.refs]

theorem readFrom (folder path : List (List Char)) :
    larger.readFrom folder path = repo.readFrom folder path := by
  induction path generalizing folder with
  | nil => rfl
  | cons component rest ih =>
      rw [Repository.readFrom, Repository.readFrom, same.isFolder, same.fileAt, ih, ih, ih]

theorem read (path : String) : larger.read path = repo.read path := by
  unfold Repository.read
  rw [same.readFrom]

theorem followWithin (links : Nat) (path : String) :
    larger.followWithin links path = repo.followWithin links path := by
  induction links generalizing path with
  | zero =>
      unfold Repository.followWithin
      rw [same.read]
  | succ links ih =>
      unfold Repository.followWithin
      rw [same.read]
      simp only [ih]

theorem follow (value : RefTarget) : larger.follow value = repo.follow value := by
  unfold Repository.follow
  simp only [same.followWithin]

theorem refValue (name : String) : larger.refValue name = repo.refValue name := by
  unfold Repository.refValue
  simp only [same.read]

theorem listedTarget? (name : String) : larger.listedTarget? name = repo.listedTarget? name := by
  unfold Repository.listedTarget?
  simp only [same.refs, same.follow, same.refValue]

theorem refNames (folder : String) : larger.refNames folder = repo.refNames folder := by
  unfold Repository.refNames
  rw [same.refs]

end SameRefs

namespace Within

variable (within : repo.Within larger)
include within

theorem sameRefs : repo.SameRefs larger := ⟨within.refs, within.folders⟩

theorem grows : repo.Grows larger := by
  intro id object hobject
  rw [within.objects (by rw [hobject]; simp), hobject]

theorem object (holds : repo.Holds id) : larger.object id = repo.object id := by
  obtain ⟨object, hobject⟩ := holds
  rw [within.grows hobject, hobject]

end Within

/-! ### What a complete repository leads to -/

namespace Complete

variable (complete : repo.Complete)
include complete

theorem holds_of_follow {value : RefTarget} (hvalue : repo.refValue name = .ok (some value))
    (hfollow : repo.follow value = .id target) : repo.Holds target := by
  rcases exists_id_of_follow hfollow with rfl | ⟨holder, hlookup⟩
  · unfold Repository.refValue at hvalue
    split at hvalue
    · cases hvalue
    · split at hvalue
      · cases hvalue
      · split at hvalue
        · cases hvalue
        · split at hvalue
          · next hread =>
              cases hvalue
              obtain ⟨holder, hlookup⟩ := exists_lookup_of_read hread
              exact complete.targets hlookup
          · cases hvalue
          · cases hvalue
  · exact complete.targets hlookup

theorem holds_of_discloses (discloses : policy.Discloses repo id) : repo.Holds id := by
  cases discloses with
  | tip place points marks =>
      rcases marks with rfl | peels
      · exact complete.holds_of_points points
      · exact peels.holds_right
  | commit place browsable points peels path => exact holds_of_isCommit path.isCommit_right

theorem holds_of_mem_parents {parents : List ObjectId} (hparents : repo.parents id = .ok parents)
    (hmem : other ∈ parents) : repo.Holds other := by
  obtain ⟨_, rfl⟩ := parents_eq_ok_iff.mp hparents
  exact holds_of_isCommit (complete.parents hmem)

theorem holds_of_ancestor {n : Nat} (holds : repo.Holds id)
    (hreached : repo.ancestor n id = .ok (some other)) : repo.Holds other := by
  induction n generalizing id with
  | zero =>
      cases hreached
      exact holds
  | succ n ih =>
      obtain ⟨parents, hparents, hrest⟩ := except_bind_eq_ok_iff.mp hreached
      cases parents with
      | nil => cases hrest
      | cons parent later => exact ih (complete.holds_of_mem_parents hparents List.mem_cons_self) hrest

theorem holds_of_step {step : Step} (holds : repo.Holds id)
    (hreached : repo.step id step = .ok (some other)) : repo.Holds other := by
  cases step with
  | ancestor n => exact complete.holds_of_ancestor holds hreached
  | parent n =>
      obtain ⟨parents, hparents, hrest⟩ := except_bind_eq_ok_iff.mp hreached
      exact complete.holds_of_mem_parents hparents (List.mem_of_getElem? (Except.ok.inj hrest))

theorem holds_of_stepAll (holds : repo.Holds id)
    (hreached : repo.stepAll steps id = .ok (some other)) : repo.Holds other := by
  induction steps generalizing id with
  | nil =>
      cases hreached
      exact holds
  | cons step rest ih =>
      obtain ⟨found, hstep, hrest⟩ := except_bind_eq_ok_iff.mp hreached
      cases found with
      | none => cases hrest
      | some next => exact ih (complete.holds_of_step holds hstep) hrest

theorem holds_of_destination (holds : repo.Holds base)
    (hreached : repo.destination base steps = .ok (some other)) : repo.Holds other := by
  unfold Repository.destination at hreached
  split at hreached
  · cases hreached
    exact holds
  · obtain ⟨found, hpeel, hrest⟩ := except_bind_eq_ok_iff.mp hreached
    cases found with
    | none => cases hrest
    | some start => exact complete.holds_of_stepAll (peelToCommit_eq hpeel).holds_right hrest

end Complete

/-! ### The same look-ups in both -/

namespace Within

variable (within : repo.Within larger) (complete : repo.Complete)
include within complete

theorem peel (holds : repo.Holds id) : larger.peel id = repo.peel id := by
  obtain ⟨last, peels⟩ := complete.exists_peelsTo holds
  rw [peel_eq_ok_iff.mpr peels, peel_eq_ok_iff.mpr (peels.grow within.grows)]

theorem peelTag (holds : repo.Holds id) : larger.peelTag id = repo.peelTag id := by
  obtain ⟨last, peels⟩ := complete.exists_peelsTo holds
  obtain ⟨peeled, hpeeled⟩ := peels.exists_peelTag
  rw [hpeeled, Grows.peelTag within.grows hpeeled]

theorem findRef (name : String) : larger.findRef name = repo.findRef name := by
  unfold Repository.findRef
  rw [within.sameRefs.refValue]
  cases hvalue : repo.refValue name with
  | error fault => rfl
  | ok found =>
      cases found with
      | none => rfl
      | some value =>
          simp only [bind, Except.bind, within.sameRefs.follow]
          cases hfollow : repo.follow value with
          | absent => rfl
          | broken => rfl
          | misnamed => rfl
          | id target => simp only [within.peelTag complete (complete.holds_of_follow hvalue hfollow)]

theorem firstRef (names : List String) : larger.firstRef names = repo.firstRef names := by
  induction names with
  | nil => rfl
  | cons name rest ih => rw [Repository.firstRef, Repository.firstRef, within.findRef complete, ih]

theorem entries (names : List RefName) : larger.entries names = repo.entries names := by
  induction names with
  | nil => rfl
  | cons name rest ih =>
      rw [Repository.entries, Repository.entries, within.sameRefs.listedTarget?, ih]
      cases hlisted : repo.listedTarget? name.text with
      | none => rfl
      | some target =>
          have holds : repo.Holds target :=
            complete.holds_of_points (points_of_listedTarget? hlisted)
          simp only [within.peelTag complete holds]

theorem listRefs : larger.listRefs = repo.listRefs := by
  unfold Repository.listRefs
  rw [within.sameRefs.refNames, within.entries complete]

theorem listRefsUnder (space : String) : larger.listRefsUnder space = repo.listRefsUnder space := by
  unfold Repository.listRefsUnder
  simp only [within.sameRefs.refNames, within.entries complete]

omit complete in
theorem kind (holds : repo.Holds id) : larger.kind id = repo.kind id := by
  unfold Repository.kind
  rw [within.object holds]

omit complete in
theorem parents (holds : repo.Holds id) : larger.parents id = repo.parents id := by
  unfold Repository.parents
  rw [within.object holds]

theorem peelToCommit (holds : repo.Holds id) : larger.peelToCommit id = repo.peelToCommit id := by
  obtain ⟨last, peels⟩ := complete.exists_peelsTo holds
  unfold Repository.peelToCommit
  rw [within.peel complete holds, peel_eq_ok_iff.mpr peels]
  simp only [bind, Except.bind, within.object peels.holds_right]

theorem ancestor (n : Nat) (holds : repo.Holds id) : larger.ancestor n id = repo.ancestor n id := by
  induction n generalizing id with
  | zero => rfl
  | succ n ih =>
      rw [Repository.ancestor, Repository.ancestor, within.parents holds]
      cases hparents : repo.parents id with
      | error fault => rfl
      | ok parents =>
          cases parents with
          | nil => rfl
          | cons parent rest => exact ih (complete.holds_of_mem_parents hparents List.mem_cons_self)

theorem step (step : Step) (holds : repo.Holds id) : larger.step id step = repo.step id step := by
  cases step with
  | ancestor n => exact within.ancestor complete n holds
  | parent n => rw [Repository.step, Repository.step, within.parents holds]

theorem stepAll (steps : List Step) (holds : repo.Holds id) :
    larger.stepAll steps id = repo.stepAll steps id := by
  induction steps generalizing id with
  | nil => rfl
  | cons step rest ih =>
      rw [Repository.stepAll, Repository.stepAll, within.step complete step holds]
      cases hstep : repo.step id step with
      | error fault => rfl
      | ok found =>
          cases found with
          | none => rfl
          | some next => exact ih (complete.holds_of_step holds hstep)

theorem destination (steps : List Step) (holds : repo.Holds base) :
    larger.destination base steps = repo.destination base steps := by
  unfold Repository.destination
  rw [within.peelToCommit complete holds]
  cases hpeel : repo.peelToCommit base with
  | error fault => rfl
  | ok found =>
      cases found with
      | none => rfl
      | some start =>
          simp only [bind, Except.bind, within.stepAll complete steps (peelToCommit_eq hpeel).holds_right]

theorem revision (name : String) (holds : repo.Holds id) :
    larger.revision name id = repo.revision name id := by
  obtain ⟨last, peels⟩ := complete.exists_peelsTo holds
  unfold Repository.revision
  rw [within.kind holds, within.peel complete holds, peel_eq_ok_iff.mpr peels]
  simp only [bind, Except.bind, within.kind peels.holds_right]

end Within

/-! ### What only the larger store has -/

/-- Only the larger store has an object under this id. -/
structure Gains (repo larger : Repository) (id : ObjectId) : Prop where
  missing : repo.object id = .error (.missingObject id)
  stored : larger.Holds id

/-- Looking for a base can tell the stores apart: the base fits the digits of several ids, or it is the
id of an object that the larger store has and cannot read. -/
def MayTell (repo larger : Repository) (base : String) : Prop :=
  ObjectId.isAbbreviation base = true ∨
    ∃ id, ObjectId.parse base = .ok id ∧ repo.object id = .error (.missingObject id) ∧
      larger.object id = .error .internal

theorem Gains.not_holds (gains : repo.Gains larger id) : ¬ repo.Holds id := by
  rintro ⟨object, hobject⟩
  rw [gains.missing] at hobject
  cases hobject

theorem holds_of_present (hpresent : repo.present id = .ok (some other)) : repo.Holds other := by
  unfold present at hpresent
  split at hpresent
  · next object hobject =>
      cases hpresent
      exact ⟨object, hobject⟩
  · cases hpresent
  · cases hpresent

theorem holds_of_withDigits? (hfound : repo.withDigits? text = .ok (some id)) : repo.Holds id := by
  unfold withDigits? at hfound
  split at hfound
  · split at hfound
    · exact holds_of_present hfound
    · dsimp only at hfound
      split at hfound
      · exact holds_of_present hfound
      · cases hfound
  · cases hfound

theorem object_error {fault : Fault} (hobject : repo.object id = .error fault) :
    fault = .missingObject id ∨ fault = .internal := by
  unfold Repository.object at hobject
  split at hobject
  · split at hobject
    · cases hobject
    · cases hobject
      exact .inr rfl
    · split at hobject
      · cases hobject
      · cases hobject
        exact .inl rfl
  · cases hobject
    exact .inr rfl

theorem Within.withDigits?_cases (within : repo.Within larger) (hquiet : ¬ repo.MayTell larger text) :
    larger.withDigits? text = repo.withDigits? text ∨
      ∃ id, repo.withDigits? text = .ok none ∧ larger.withDigits? text = .ok (some id) ∧
        repo.Gains larger id := by
  have hfull : ObjectId.isAbbreviation text = false := by
    rw [Bool.eq_false_iff]
    exact fun hshort => hquiet (.inl hshort)
  rcases ObjectId.withDigits?_cases hfull with hnone | ⟨id, hparse, hpresent⟩
  · exact .inl ((hnone larger).trans (hnone repo).symm)
  · rw [hpresent, hpresent]
    by_cases hmissing : repo.object id = .error (.missingObject id)
    · cases hlarger : larger.object id with
      | ok object =>
          right
          refine ⟨id, ?_, ?_, hmissing, object, hlarger⟩
          · simp only [present, hmissing]
          · simp only [present, hlarger]
      | error fault =>
          left
          rcases object_error hlarger with rfl | rfl
          · simp only [present, hmissing, hlarger]
          · exact absurd (.inr ⟨id, hparse, hmissing, hlarger⟩) hquiet
    · left
      unfold present
      rw [within.objects hmissing]

end Repository

end GuardedRevision
