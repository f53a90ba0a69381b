import GuardedRevision.Expression
import GuardedRevision.Fragment
import GuardedRevision.VisibilityMemo

/-!
# Resolving expressions

An expression resolves to a revision, or two of them, and a path. Texts that are malformed, name
nothing, or name something hidden all resolve to `none`, so that a caller cannot tell them apart;
only faults of the store are reported.
-/

namespace GuardedRevision

/-- An object and the text that named it. The peeled fields are those of the end of the tag chain. -/
structure Revision where
  name : String
  id : ObjectId
  kind : ObjectKind
  peeledId : ObjectId
  peeledKind : ObjectKind
  deriving DecidableEq

namespace Revision

def isNamedById (revision : Revision) : Bool := revision.name == revision.id.text

def ofCommit (name : String) (id : ObjectId) : Revision := ⟨name, id, .commit, id, .commit⟩

end Revision

/-- What an expression resolves to; `old` is the other side of a comparison. -/
structure Resolution where
  revision : Revision
  old : Option Revision
  path : String
  deriving DecidableEq

def Resolution.isComparison (resolution : Resolution) : Bool := resolution.old.isSome

def Repository.revision (repo : Repository) (name : String) (id : ObjectId) :
    Except Fault Revision := do
  let kind ← repo.kind id
  let peeledId ← repo.peel id
  return ⟨name, id, kind, peeledId, ← repo.kind peeledId⟩

/-- Where a base was found. Only a base found by its digits needs a look at its visibility: a ref
shows where it points. -/
inductive BaseSource where
  | ref
  | digits
  deriving DecidableEq

namespace Repository

def refNamesOf (base : String) : List String :=
  if RefName.isUnder "refs/" base || base == "HEAD" then [base]
  else [RefName.tags ++ base, RefName.heads ++ base]

def firstRef (repo : Repository) : List String → Except Fault (Option RefEntry)
  | [] => .ok none
  | name :: rest => do
      match ← repo.findRef name with
      | some entry => return some entry
      | none => firstRef repo rest

/-- The object of a base: a ref of that name, else the object with these digits. -/
def base (repo : Repository) (base : String) : Except Fault (Option (ObjectId × BaseSource)) := do
  match ← repo.firstRef (refNamesOf base) with
  | some entry => return some (entry.target, .ref)
  | none => return (← repo.withDigits? base).map fun id => (id, .digits)

def ancestor (repo : Repository) : Nat → ObjectId → Except Fault (Option ObjectId)
  | 0, id => .ok (some id)
  | n + 1, id => do
      match ← repo.parents id with
      | [] => return none
      | parent :: _ => ancestor repo n parent

def step (repo : Repository) (id : ObjectId) : Step → Except Fault (Option ObjectId)
  | .parent n => return (← repo.parents id)[n - 1]?
  | .ancestor n => repo.ancestor n id

def stepAll (repo : Repository) : List Step → ObjectId → Except Fault (Option ObjectId)
  | [], id => .ok (some id)
  | step :: rest, id => do
      match ← repo.step id step with
      | none => return none
      | some next => stepAll repo rest next

/-- The object that steps from a base lead to; without steps the base itself, a tag included. -/
def destination (repo : Repository) (base : ObjectId) (steps : List Step) :
    Except Fault (Option ObjectId) :=
  if steps.isEmpty then .ok (some base)
  else do
    match ← repo.peelToCommit base with
    | none => return none
    | some start => repo.stepAll steps start

end Repository

/-- A computation that asks a visibility memo, which keeps what it learns also when there is a fault. -/
abbrev Asking := ExceptT Fault (StateM VisibilityMemo)

namespace Repository

def isVisible (repo : Repository) (id : ObjectId) (roots : List ObjectId) : Asking Bool :=
  ExceptT.mk fun memo => memo.check repo ⟨id, roots⟩

/-- The revision of a fragment. What its steps lead to is looked at again: the tip of an excluded
namespace is visible while its ancestors are not. -/
def resolveFragment (repo : Repository) (roots : List ObjectId) (text : List Char) :
    Asking (Option Revision) := do
  let some fragment := Fragment.read? text | return none
  let some (base, source) ← repo.base (String.ofList fragment.base) | return none
  if source = .digits then
    unless ← repo.isVisible base roots do return none
  let some id ← repo.destination base fragment.steps | return none
  if fragment.moves then
    unless ← repo.isVisible id roots do return none
  return some (← repo.revision (String.ofList text) id)

def resolveFirst (repo : Repository) :
    List (List Char × List Char) → Asking (Option (Revision × List Char))
  | [] => return none
  | (text, path) :: shorter => do
      match ← repo.resolveFragment [] text with
      | some revision => return some (revision, path)
      | none => resolveFirst repo shorter

def resolveWithPath (repo : Repository) (text : List Char) :
    Asking (Option (Revision × List Char)) :=
  repo.resolveFirst (Expression.candidates text)

/-- The new side comes first; its commit is then a root for the old side. -/
def resolveRange (repo : Repository) (old new : List Char) : Asking (Option Resolution) := do
  if old.isEmpty || new.isEmpty then
    return none
  let some (revision, path) ← repo.resolveWithPath new | return none
  let some oldRevision ← repo.resolveFragment [revision.peeledId] old | return none
  return some ⟨revision, some oldRevision, String.ofList path⟩

/-- A commit against its first parent, which is visible through it; a root has no old side. -/
def resolveAgainstParent (repo : Repository) (name rest : List Char) :
    Asking (Option Resolution) := do
  if name.isEmpty || !(rest.isEmpty || rest.head? == some '/') then
    return none
  let some revision ← repo.resolveFragment [] name | return none
  let some commit ← repo.peelToCommit revision.id | return none
  let old := (← repo.parents commit).head?.map (.ofCommit (String.ofList (name ++ ['^'])))
  return some ⟨revision, old, String.ofList rest⟩

def resolveExpression (repo : Repository) : Expression → Asking (Option Resolution)
  | .range old new => repo.resolveRange old new
  | .againstParent name rest => repo.resolveAgainstParent name rest
  | .single text =>
      return (← repo.resolveWithPath text).map fun found =>
        ⟨found.1, none, String.ofList found.2⟩

/-- What an expression names, for anyone who may see the browsable refs. -/
def resolve (repo : Repository) (text : String) : Asking (Option Resolution) :=
  match Expression.read? text.toList with
  | none => return none
  | some expression => repo.resolveExpression expression

end Repository

/-- Runs a computation on a memo. -/
def Asking.on {α : Type} (asking : Asking α) (memo : VisibilityMemo) :
    Except Fault α × VisibilityMemo :=
  asking.run memo

end GuardedRevision
