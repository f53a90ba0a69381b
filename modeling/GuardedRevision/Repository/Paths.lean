import GuardedRevision.Repository

/-!
# Paths of refs

A store keeps each ref in a file of its name, so a name is a path through folders. `Repository.read`
follows a path as it is written, dots included: every folder on the way has to be there, and a component
that is too long for a file is told apart from one that is not there.
-/

namespace GuardedRevision

inductive RefFile where
  | ref (target : RefTarget)
  | absent
  /-- The path, or a component of it, is too long for a file. -/
  | overlong
  /-- A file that holds no ref. -/
  | foreign
  deriving DecidableEq

namespace Repository

def ownFolders : List String :=
  ["hooks", "info", "objects", "objects/info", "objects/pack", "refs", "refs/heads", "refs/tags"]

/-- The files of every repository that hold no ref. -/
def ownFiles : List String := ["config", "description", "hooks/README.sample", "info/exclude"]

def maxComponentBytes : Nat := 255

def maxPathBytes : Nat := 4000

def foldersTo (path : List (List Char)) : List String :=
  (List.range path.length).map fun depth => RefName.ofComponents (path.take depth)

def isFolder (repo : Repository) (path : List (List Char)) : Bool :=
  let name := RefName.ofComponents path
  path.isEmpty || ownFolders.contains name || repo.folders.contains name ||
    repo.refs.any fun ref => RefName.isUnder (name ++ "/") ref.1

def fileAt (repo : Repository) (path : List (List Char)) : RefFile :=
  let name := RefName.ofComponents path
  match repo.refs.lookup name with
  | some target => .ref target
  | none => if ownFiles.contains name then .foreign else .absent

/-- Follows components from a folder on. Nothing lies above the repository. -/
def readFrom (repo : Repository) (folder : List (List Char)) : List (List Char) → RefFile
  | [] => .absent
  | component :: rest =>
      if component = [] || component = ['.'] then readFrom repo folder rest
      else if component = ['.', '.'] then
        if folder.isEmpty then .absent else readFrom repo folder.dropLast rest
      else if maxComponentBytes < (String.ofList component).utf8ByteSize then .overlong
      else if rest.isEmpty then repo.fileAt (folder ++ [component])
      else if repo.isFolder (folder ++ [component]) then
        readFrom repo (folder ++ [component]) rest
      else .absent

def read (repo : Repository) (path : String) : RefFile :=
  if maxPathBytes < path.utf8ByteSize then .overlong
  else repo.readFrom [] (path.toList.splitOn '/')

/-- The components of a path without empty ones and dots. -/
def plainFrom (folder : List (List Char)) : List (List Char) → List (List Char)
  | [] => folder
  | component :: rest =>
      if component = [] || component = ['.'] then plainFrom folder rest
      else if component = ['.', '.'] then plainFrom folder.dropLast rest
      else plainFrom (folder ++ [component]) rest

def plain (path : String) : List (List Char) := plainFrom [] (path.toList.splitOn '/')

def setRef (repo : Repository) (name : String) (target : RefTarget) : Repository :=
  let name := RefName.ofComponents (plain name)
  { repo with refs := (name, target) :: repo.refs.filter (·.1 ≠ name) }

/-- Deletes a ref; the folders on the way to it stay. -/
def deleteRef (repo : Repository) (name : String) : Repository :=
  let path := plain name
  let name := RefName.ofComponents path
  match repo.refs.lookup name with
  | none => repo
  | some _ =>
      { repo with
        refs := repo.refs.filter (·.1 ≠ name)
        folders := foldersTo path ++ repo.folders }

/-- A repository of these objects and refs, the later refs replacing the earlier ones of a name. -/
def create (scope : String) (objects : List (ObjectId × StoredEntry))
    (refs : List (String × RefTarget)) : Repository :=
  refs.foldl (fun repo ref => repo.setRef ref.1 ref.2) ⟨scope, objects, [], []⟩

end Repository

end GuardedRevision
