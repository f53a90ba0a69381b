import GuardedRevision.ObjectText
import GuardedRevision.Repository.Refs
import GuardedRevision.Toml.Reader

/-!
# Repository descriptions

A repository written out as a TOML document: a table of objects by id, a table of refs by name, where
`ref: ` begins a symbolic value, and the value of `HEAD`. A document that leaves something out,
misspells an id or has a commit that cannot be read describes nothing.
-/

namespace GuardedRevision

namespace Description

def string? (entries : Toml.Entries) (key : String) : Option String :=
  (entries.lookup key).bind Toml.Item.string?

def integer? (entries : Toml.Entries) (key : String) : Option Int :=
  (entries.lookup key).bind Toml.Item.integer?

/-- The entries of a table; a table that is not there is empty. -/
def table? (entries : Toml.Entries) (key : String) : Option Toml.Entries :=
  match entries.lookup key with
  | none => some []
  | some item => item.entries?

def id? (text : String) : Option ObjectId := (ObjectId.parse text).toOption

def signature? (entries : Toml.Entries) : Option Signature := do
  return ⟨(← string? entries "name").toUTF8, (← string? entries "email").toUTF8,
    ← integer? entries "time"⟩

def commit? (entries : Toml.Entries) : Option Commit := do
  let parents ← (entries.lookup "parents").bind Toml.Item.strings?
  let author ← signature? (← table? entries "author")
  let committer := { author with time := ← integer? entries "time" }
  Commit.stored? .emptyTree (← parents.mapM id?) author committer (← string? entries "message").toUTF8

/-- A tag without a time has no tagger. -/
def tag? (entries : Toml.Entries) : Option Tag := do
  return ⟨← (string? entries "target").bind id?, integer? entries "time"⟩

def object? (item : Toml.Item) : Option StoredObject := do
  let entries ← item.entries?
  match ← (string? entries "type").bind ObjectKind.ofName? with
  | .commit => (commit? entries).map .commit
  | .tag => (tag? entries).map .tag
  | .tree => some .tree
  | .blob => some .blob

def target? (value : String) : Option RefTarget :=
  match RefName.after? "ref: " value with
  | some name => some (.symbolic name)
  | none => (id? value).map .id

def namedTarget? (entry : String × Toml.Item) : Option (String × RefTarget) := do
  return (entry.1, ← entry.2.string?.bind target?)

def storedObject? (entry : String × Toml.Item) : Option (ObjectId × StoredEntry) := do
  return (← id? entry.1, .readable (← object? entry.2))

end Description

open Description in
def Repository.ofDescription? (scope text : String) : Option Repository := do
  let entries ← Toml.read? text
  let head ← target? ((string? entries "head").getD "ref: refs/heads/main")
  let objects ← (← table? entries "objects").mapM storedObject?
  let refs ← (← table? entries "refs").mapM namedTarget?
  return .create scope objects (("HEAD", head) :: refs)

end GuardedRevision
