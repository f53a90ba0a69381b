import GuardedRevision.RefName
import GuardedRevision.Toml.Reader

/-!
# Settings files

What one settings file sets: a TOML document with a section on visibility and one on history pages.
Every section and every key may be missing, and no other keys are accepted. `FileSettings.problem?` is
the first value that a well-written file must not hold.
-/

namespace GuardedRevision

structure FileSettings where
  excluded : Option (List String)
  capacity : Option Nat
  pageSize : Option Nat
  deriving DecidableEq

inductive SettingsProblem where
  | shape (space : String)
  | needed (space : String)
  | emptyPage
  deriving DecidableEq

def SettingsProblem.message : SettingsProblem → String
  | .shape space =>
      "invalid config value: invalid excluded namespace '" ++ space ++
        "', must look like 'refs/<name>/'"
  | .needed space => "invalid config value: namespace '" ++ space ++ "' cannot be excluded"
  | .emptyPage => "invalid config value: page_size must be greater than zero"

namespace FileSettings

def empty : FileSettings := ⟨none, none, none⟩

def count? (item : Toml.Item) : Option Nat :=
  item.integer?.bind fun n => if 0 ≤ n then some n.toNat else none

/-- The entries of a section with these keys. A section that is written as an array gives the values of
its keys in their order, and what is too much in it does not count. -/
def sectionEntries? (keys : List String) : Toml.Item → Option Toml.Entries
  | .table _ entries => if entries.all fun entry => keys.contains entry.1 then some entries else none
  | .array items => some (keys.zip items)
  | .tables tables => some (keys.zip (tables.map fun entries => .table .header entries))
  | _ => none

def value? {α : Type} (read : Toml.Item → Option α) (entries : Toml.Entries) (key : String) :
    Option (Option α) :=
  match entries.lookup key with
  | none => some none
  | some item => (read item).map some

def nested? (keys : List String) (entries : Toml.Entries) (key : String) : Option Toml.Entries :=
  (value? (sectionEntries? keys) entries key).map fun found => found.getD []

def ofEntries? (entries : Toml.Entries) : Option FileSettings := do
  let sections ← sectionEntries? ["visibility", "log"] (.table .header entries)
  let visibility ←
    nested? ["excluded_namespaces", "negative_cache_entries"] sections "visibility"
  let log ← nested? ["page_size"] sections "log"
  return ⟨← value? Toml.Item.strings? visibility "excluded_namespaces",
    ← value? count? visibility "negative_cache_entries", ← value? count? log "page_size"⟩

def read? (text : String) : Option FileSettings := (Toml.read? text).bind ofEntries?

/-- A namespace to exclude is a directory below `refs/`, and never all of them, all branches or all
tags. -/
def namespaceProblem? (space : String) : Option SettingsProblem :=
  if !RefName.isUnder "refs/" space || space.toList.getLast? != some '/' then some (.shape space)
  else if space == "refs/" || space == RefName.heads || space == RefName.tags then
    some (.needed space)
  else none

def problem? (file : FileSettings) : Option SettingsProblem :=
  match (file.excluded.getD []).findSome? namespaceProblem? with
  | some problem => some problem
  | none => if file.pageSize = some 0 then some .emptyPage else none

end FileSettings

end GuardedRevision
