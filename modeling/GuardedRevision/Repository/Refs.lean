import GuardedRevision.Repository.Paths
import GuardedRevision.Sorting
import GuardedRevision.Text.Glob

/-!
# Finding and listing refs

A ref resolves through symbolic refs to an id, over a bounded number of them. A chain that ends at a
ref that is not there leads nowhere; one that is too long, as every loop is, is broken. Finding a ref
reports a broken chain as a fault, listing leaves the ref out.
-/

namespace GuardedRevision

structure RefEntry where
  name : RefName
  target : ObjectId
  /-- The end of the tag chain, when the target is a tag. -/
  peeled : Option ObjectId
  deriving DecidableEq

def RefEntry.tip (entry : RefEntry) : ObjectId := entry.peeled.getD entry.target

inductive RefEnd where
  | id (id : ObjectId)
  | absent
  | broken
  /-- The ref is symbolic and points at what cannot be the name of a ref. -/
  | misnamed
  deriving DecidableEq

namespace Repository

def maxNameBytes : Nat := 1023

/-- How many symbolic refs are followed after the first. -/
def maxLinks : Nat := 5

/-- Where a path leads over at most so many further symbolic refs. An empty symbolic value and an id that
no store holds cannot be read. -/
def followWithin (repo : Repository) (links : Nat) (path : String) : RefEnd :=
  match repo.read path with
  | .absent => .absent
  | .overlong => .misnamed
  | .foreign => .broken
  | .ref (.id id) => if id.isStorable then .id id else .broken
  | .ref (.symbolic next) =>
      match links with
      | 0 => .broken
      | links + 1 => if next.isEmpty then .broken else followWithin repo links next

/-- Where a value of a ref leads. Only the first name on the way has to be one of a ref. -/
def follow (repo : Repository) : RefTarget → RefEnd
  | .id id => if id.isStorable then .id id else .broken
  | .symbolic next =>
      if next.isEmpty then .broken
      else match RefName.storeName? next with
        | none => .misnamed
        | some name =>
            if maxNameBytes < name.utf8ByteSize then .broken else repo.followWithin maxLinks name

def refValue (repo : Repository) (name : String) : Except Fault (Option RefTarget) :=
  if name.toList.contains '\x00' then .error .internal
  else match RefName.storeName? name with
    | none => .ok none
    | some stored =>
        if maxNameBytes < stored.utf8ByteSize then .error .internal
        else match repo.read stored with
          | .ref value => .ok (some value)
          | .foreign => .error .internal
          | _ => .ok none

/-- The ref of this name. A text with a NUL, and a name that is too long, cannot be handed to a store;
slashes in a row count as one for the store, but not in a ref name. -/
def findRef (repo : Repository) (name : String) : Except Fault (Option RefEntry) := do
  match ← repo.refValue name with
  | none => return none
  | some value =>
      match repo.follow value with
      | .absent => return none
      | .broken => throw .internal
      | .misnamed => throw (.misnamedTarget name)
      | .id target =>
          let parsed ← (RefName.parse name).mapError .badName
          return some ⟨parsed, target, ← repo.peelTag target⟩

/-- What a listed ref leads to. Unlike a symbolic ref, one with an id is found again by its name. -/
def listedTarget? (repo : Repository) (name : String) : Option ObjectId :=
  match repo.refs.lookup name with
  | none => none
  | some value =>
      match value, repo.follow value with
      | .symbolic _, .id target => some target
      | .id _, .id target =>
          match repo.refValue name with
          | .ok (some _) => some target
          | _ => none
      | _, _ => none

def refNames (repo : Repository) (folder : String) : List RefName :=
  (Sorting.distinctNames (repo.refs.map Prod.fst)).filterMap fun name =>
    if RefName.isUnder folder name then (RefName.parse name).toOption else none

def entries (repo : Repository) : List RefName → Except Fault (List RefEntry)
  | [] => .ok []
  | name :: rest =>
      match repo.listedTarget? name.text with
      | some target => do
          let peeled ← repo.peelTag target
          return ⟨name, target, peeled⟩ :: (← entries repo rest)
      | none => entries repo rest

def refFolder : String := "refs/"

/-- Every ref below `refs/` that resolves, in the order of names. -/
def listRefs (repo : Repository) : Except Fault (List RefEntry) :=
  repo.entries (repo.refNames refFolder)

/-- The refs whose name begins with what `space` matches as a pattern. They are looked for in the folder
that the pattern spells out, which is the folder of the refs if it spells out none. -/
def listRefsUnder (repo : Repository) (space : String) : Except Fault (List RefEntry) :=
  if space.toList.contains '\x00' then .error .internal
  else
    let pattern := space ++ "*"
    let names := repo.refNames ((Text.plainFolder? pattern).getD refFolder)
    repo.entries (names.filter fun name => Text.matchesGlob pattern name.text)

/-- Stores further objects; an object that is there already stays as it is. -/
def addObjects (repo : Repository) (objects : List (ObjectId × StoredEntry)) : Repository :=
  { repo with objects := repo.objects ++ objects }

end Repository

end GuardedRevision
