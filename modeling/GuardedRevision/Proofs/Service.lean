import GuardedRevision.Proofs.Answers
import GuardedRevision.Proofs.Generations
import Mathlib.Logic.Function.Basic

/-!
# Services

A service answers questions about several repositories through one memo, while their refs are moved
and objects are added to them.
-/

namespace GuardedRevision

inductive Change where
  | setRef (name : String) (target : RefTarget)
  | deleteRef (name : String)
  | addObjects (objects : List (ObjectId × StoredEntry))

namespace Change

def apply (repo : Repository) : Change → Repository
  | .setRef name target => repo.setRef name target
  | .deleteRef name => repo.deleteRef name
  | .addObjects objects => repo.addObjects objects

/-- Ids identify contents: what an id already stands for cannot change when objects are added. The tree
without entries is the one object that is there without having been stored. -/
def IsFaithful : Change → Prop
  | .addObjects objects =>
      objects.lookup .emptyTree = none ∨ objects.lookup .emptyTree = some (.readable .tree)
  | _ => True

variable {repo : Repository} {change : Change}

theorem scope_apply : (change.apply repo).scope = repo.scope := by
  cases change with
  | setRef name target => rfl
  | addObjects objects => rfl
  | deleteRef name =>
      unfold apply Repository.deleteRef
      dsimp only
      split
      · rfl
      · rfl

theorem object_deleteRef (name : String) (id : ObjectId) :
    (repo.deleteRef name).object id = repo.object id := by
  unfold Repository.deleteRef
  dsimp only
  split
  · rfl
  · rfl

theorem IsFaithful.grows (faithful : change.IsFaithful) : repo.Grows (change.apply repo) := by
  intro id object hobject
  cases change with
  | setRef name target => exact hobject
  | deleteRef name => exact (object_deleteRef name id).trans hobject
  | addObjects objects =>
      unfold apply Repository.addObjects
      unfold Repository.object at hobject ⊢
      split at hobject
      · next hstorable =>
          rw [if_pos hstorable]
          dsimp only
          rw [List.lookup_append]
          split at hobject
          · next stored hlookup =>
              rw [hlookup]
              exact hobject
          · cases hobject
          · next hnone =>
              rw [hnone]
              split at hobject
              · next hempty =>
                  subst hempty
                  rcases faithful with hadded | hadded
                  · rw [hadded, if_pos rfl]
                    exact hobject
                  · rw [hadded]
                    exact hobject
              · cases hobject
      · cases hobject

end Change

/-- Repositories, and the memo through which they are asked about. -/
structure Service (ι : Type) where
  repo : ι → Repository
  memo : VisibilityMemo

inductive Event (ι : Type) where
  | ask (place : ι) (query : VisibilityQuery)
  | change (place : ι) (made : Change)

def Event.IsFaithful {ι : Type} : Event ι → Prop
  | .ask _ _ => True
  | .change _ made => made.IsFaithful

namespace Service

variable {ι : Type} [DecidableEq ι]

def opened (policy : BrowsePolicy) (capacity : Nat) (repo : ι → Repository) : Service ι :=
  ⟨repo, .empty policy capacity⟩

def after (service : Service ι) : Event ι → Service ι
  | .ask place query => { service with memo := (service.memo.check (service.repo place) query).2 }
  | .change place made =>
      { service with repo := Function.update service.repo place (made.apply (service.repo place)) }

def run (service : Service ι) (events : List (Event ι)) : Service ι := events.foldl after service

def IsScoped (service : Service ι) : Prop := Function.Injective fun place => (service.repo place).scope

variable {service : Service ι} {event : Event ι} {place : ι}

theorem scope_after : ((service.after event).repo place).scope = (service.repo place).scope := by
  cases event with
  | ask other query => rfl
  | change other made =>
      unfold after
      dsimp only
      by_cases hplace : place = other
      · subst hplace
        rw [Function.update_self, Change.scope_apply]
      · rw [Function.update_of_ne hplace]

theorem IsScoped.after (hscopes : service.IsScoped) : (service.after event).IsScoped := by
  intro left right heq
  simp only [scope_after] at heq
  exact hscopes heq

theorem grows_after (faithful : event.IsFaithful) :
    (service.repo place).Grows ((service.after event).repo place) := by
  cases event with
  | ask other query => exact Repository.Grows.refl _
  | change other made =>
      unfold Service.after
      dsimp only
      by_cases hplace : place = other
      · subst hplace
        rw [Function.update_self]
        exact Change.IsFaithful.grows faithful
      · rw [Function.update_of_ne hplace]
        exact Repository.Grows.refl _

end Service

/-! ### Hashed texts -/

/-- The digest tells the texts of a list apart. -/
def Sha256.TellsApart (texts : List String) : Prop :=
  ∀ left ∈ texts, ∀ right ∈ texts, hexDigest left = hexDigest right → left = right

instance (texts : List String) : Decidable (Sha256.TellsApart texts) :=
  inferInstanceAs (Decidable (∀ left ∈ texts, ∀ right ∈ texts, _ → _))

/-- The text that a question hashes, if it comes to that. -/
def VisibilityMemo.hashedText? (memo : VisibilityMemo) (repo : Repository) (query : VisibilityQuery) :
    Option String :=
  if memo.visible.contains (repo.scope, query.target) then none
  else match repo.listRefs with
    | .error _ => none
    | .ok refs =>
        if !BrowsePolicy.isTip refs query.target && repo.isCommit query.target then
          some (memo.policy.generationText refs)
        else none

theorem VisibilityMemo.hashedText?_of_searches {memo : VisibilityMemo} {repo : Repository}
    {query : VisibilityQuery} {refs : List RefEntry}
    (searches : BrowsePolicy.Searches repo refs query.target)
    (hnew : (repo.scope, query.target) ∉ memo.visible) :
    memo.hashedText? repo query = some (memo.policy.generationText refs) := by
  unfold hashedText?
  rw [if_neg fun h => hnew (List.contains_iff_mem.mp h), searches.listed]
  simp only [searches.noTip, searches.commit, Bool.not_false, Bool.and_true, if_true]

namespace Service

variable {ι : Type} [DecidableEq ι]

def hashedTexts (service : Service ι) : List (Event ι) → List String
  | [] => []
  | .ask place query :: later =>
      (service.memo.hashedText? (service.repo place) query).toList ++
        (service.after (.ask place query)).hashedTexts later
  | .change place made :: later => (service.after (.change place made)).hashedTexts later

theorem hashedTexts_append (service : Service ι) (events more : List (Event ι)) :
    service.hashedTexts (events ++ more) =
      service.hashedTexts events ++ (service.run events).hashedTexts more := by
  induction events generalizing service with
  | nil => rfl
  | cons event later ih =>
      cases event with
      | ask place query =>
          rw [List.cons_append, hashedTexts, hashedTexts, ih, List.append_assoc]
          rfl
      | change place made =>
          rw [List.cons_append, hashedTexts, hashedTexts, ih]
          rfl

end Service

end GuardedRevision
