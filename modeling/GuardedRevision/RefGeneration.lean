import GuardedRevision.ObjectId
import GuardedRevision.RefName
import GuardedRevision.Sorting
import GuardedRevision.Digest.Sha256

/-!
# Ref generations

A generation stands for a whole list of refs and their targets: creating, moving or deleting a ref
gives another one. It is the digest of a text with one record for each ref, in the order of names,
so that the order of the given list does not matter.
-/

namespace GuardedRevision

structure RefGeneration where
  digest : String
  deriving DecidableEq

namespace RefGeneration

def byName (refs : List (RefName × ObjectId)) : List (RefName × ObjectId) :=
  Sorting.sortBy (fun left right => left.1.text ≤ right.1.text) refs

/-- A NUL ends the name and a newline the id; no ref name and no id contains either. -/
def record (entry : RefName × ObjectId) : String :=
  entry.1.text ++ "\x00" ++ entry.2.text ++ "\n"

def serialize (refs : List (RefName × ObjectId)) : String :=
  String.join ((byName refs).map record)

def ofRefs (refs : List (RefName × ObjectId)) : RefGeneration :=
  ⟨Sha256.hexDigest (serialize refs)⟩

end RefGeneration

end GuardedRevision
