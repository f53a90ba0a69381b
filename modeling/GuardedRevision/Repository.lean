import GuardedRevision.ObjectId
import GuardedRevision.RefName

/-!
# Repositories

A repository is a list of stored objects and a list of refs, `HEAD` among them. The first entry for
an id or a name counts. What a caller names and does not find is `none`; what the store promises and
does not hold, or holds in a form that cannot be read, is a `Fault`.
-/

namespace GuardedRevision

-- The instance of the core library, whatever other one is in scope.
instance bytesDecidableEq : DecidableEq ByteArray := ByteArray.instDecidableEq

/-- Who wrote a commit and when, in seconds since the epoch. The texts may be in any encoding. -/
structure Signature where
  name : ByteArray
  email : ByteArray
  time : Int
  deriving DecidableEq

structure Commit where
  parents : List ObjectId
  author : Signature
  /-- The committer's time, by which histories are ordered. -/
  time : Int
  message : ByteArray
  deriving DecidableEq

/-- An annotated tag, with the tagger's time if it has a tagger. -/
structure Tag where
  target : ObjectId
  time : Option Int
  deriving DecidableEq

/-- Of trees and blobs nothing but their kind matters. -/
inductive StoredObject where
  | commit (commit : Commit)
  | tree
  | blob
  | tag (tag : Tag)
  deriving DecidableEq

def StoredObject.kind : StoredObject → ObjectKind
  | .commit _ => .commit
  | .tree => .tree
  | .blob => .blob
  | .tag _ => .tag

/-- What is stored under an id. Of an object whose text cannot be read the kind is known. -/
inductive StoredEntry where
  | readable (object : StoredObject)
  | unreadable (kind : ObjectKind)
  deriving DecidableEq

def StoredEntry.kind : StoredEntry → ObjectKind
  | .readable object => object.kind
  | .unreadable kind => kind

inductive RefTarget where
  | id (id : ObjectId)
  | symbolic (name : String)
  deriving DecidableEq

/-- What is wrong with a store, or with the kind of object a caller insists on. -/
inductive Fault where
  | missingObject (id : ObjectId)
  | brokenHistory
  | notCommit (id : ObjectId) (kind : ObjectKind)
  /-- A symbolic ref, asked for by this name, points at what cannot be one. -/
  | misnamedTarget (name : String)
  /-- A ref was found under a text that is no ref name. -/
  | badName (error : RefNameError)
  | internal
  deriving DecidableEq

def Fault.message : Fault → String
  | .missingObject id => "object not found: " ++ id.text
  | .brokenHistory => "object not found: revwalk"
  | .notCommit id kind => "object " ++ id.text ++ " is a " ++ kind.name ++ ", not a commit"
  | .misnamedTarget name => "invalid object id: " ++ name
  | .badName error => error.message
  | .internal => "internal repository error"

structure Repository where
  /-- Tells repositories apart where answers about several are remembered together. -/
  scope : String
  objects : List (ObjectId × StoredEntry)
  refs : List (String × RefTarget)
  /-- Folders that stayed when the refs in them were deleted. -/
  folders : List String

namespace Repository

/-- The object stored under an id. The tree without entries is there even if nobody stored it; an id
that no store can hold is an internal fault. -/
def object (repo : Repository) (id : ObjectId) : Except Fault StoredObject :=
  if id.isStorable then
    match repo.objects.lookup id with
    | some (.readable object) => .ok object
    | some (.unreadable _) => .error .internal
    | none => if id = .emptyTree then .ok .tree else .error (.missingObject id)
  else
    .error .internal

def kind (repo : Repository) (id : ObjectId) : Except Fault ObjectKind :=
  return (← repo.object id).kind

def ids (repo : Repository) : List ObjectId :=
  ((repo.objects.map Prod.fst).filter ObjectId.isStorable).eraseDups

/-- The kind under which an id is stored, whether its object can be read or not. -/
def storedKind? (repo : Repository) (id : ObjectId) : Option ObjectKind :=
  (repo.objects.lookup id).map StoredEntry.kind

def commit? (repo : Repository) (id : ObjectId) : Option Commit :=
  match repo.object id with
  | .ok (.commit commit) => some commit
  | _ => none

def isCommit (repo : Repository) (id : ObjectId) : Bool := (repo.commit? id).isSome

/-- The parents of a commit, and none for any other id. -/
def parentsOf (repo : Repository) (id : ObjectId) : List ObjectId :=
  ((repo.commit? id).map Commit.parents).getD []

/-- The parents of a commit; any other object is refused. -/
def parents (repo : Repository) (id : ObjectId) : Except Fault (List ObjectId) := do
  match ← repo.object id with
  | .commit commit => return commit.parents
  | other => throw (.notCommit id other.kind)

def peelWithin (repo : Repository) : Nat → ObjectId → Except Fault ObjectId
  | 0, _ => .error .internal
  | steps + 1, id => do
      match ← repo.object id with
      | .tag tag => peelWithin repo steps tag.target
      | _ => return id

/-- The first object that is no tag on the chain of tag targets from an id on. A chain without
cycles visits each stored object at most once, so this many steps reach its end. -/
def peel (repo : Repository) (id : ObjectId) : Except Fault ObjectId :=
  repo.peelWithin (repo.objects.length + 1) id

/-- The end of the tag chain, if the id is a tag. -/
def peelTag (repo : Repository) (id : ObjectId) : Except Fault (Option ObjectId) := do
  match ← repo.object id with
  | .tag _ => return some (← repo.peel id)
  | _ => return none

def peelToCommit (repo : Repository) (id : ObjectId) : Except Fault (Option ObjectId) := do
  let peeled ← repo.peel id
  match ← repo.object peeled with
  | .commit _ => return some peeled
  | _ => return none

/-- The id of an object that can be read, or none if there is no such object. -/
def present (repo : Repository) (id : ObjectId) : Except Fault (Option ObjectId) :=
  match repo.object id with
  | .ok _ => .ok (some id)
  | .error (.missingObject _) => .ok none
  | .error fault => .error fault

/-- The stored object whose id begins with the given digits, in upper or lower case. Fewer than four
digits, more than an id has, and digits that fit several objects name nothing. -/
def withDigits? (repo : Repository) (digits : String) : Except Fault (Option ObjectId) :=
  if ObjectId.isHashLike digits && digits.utf8ByteSize ≤ ObjectId.storeDigits then
    match ObjectId.parse digits with
    | .ok id => repo.present id
    | .error _ =>
        let lead := digits.toLower.toList
        match repo.ids.filter fun id => lead.isPrefixOf id.text.toList with
        | [id] => repo.present id
        | _ => .ok none
  else
    .ok none

end Repository

/-- The header of any object; only the fields that its kind has are set. -/
structure ObjectHeader where
  id : ObjectId
  kind : ObjectKind
  target : Option ObjectId
  taggedAt : Option Int
  committedAt : Option Int
  parents : List ObjectId

def Repository.header (repo : Repository) (id : ObjectId) : Except Fault ObjectHeader := do
  match ← repo.object id with
  | .commit commit => return ⟨id, .commit, none, none, some commit.time, commit.parents⟩
  | .tag tag => return ⟨id, .tag, some tag.target, tag.time, none, []⟩
  | other => return ⟨id, other.kind, none, none, none, []⟩

end GuardedRevision
