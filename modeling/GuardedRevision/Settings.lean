import GuardedRevision.Settings.File
import GuardedRevision.VisibilityMemo

/-!
# Settings

Settings come from a global file and from a file in the repository's own directory. Each value is
taken from the repository's file if it is set there, else from the global one, else it is the
default. All files are read before any value is judged.
-/

namespace GuardedRevision

abbrev FileView := String → Option ByteArray

def FileView.has (files : FileView) (path : String) : Bool := (files path).isSome

def pathBelow (directory path : String) : String :=
  if directory.isEmpty || directory.toList.getLast? == some '/' then directory ++ path
  else directory ++ "/" ++ path

inductive SettingsError where
  /-- No such file, or not a text in UTF-8. -/
  | unreadable (path : String)
  | unparsable (path : String)
  | invalid (problem : SettingsProblem)
  deriving DecidableEq

def SettingsError.message : SettingsError → String
  | .unreadable path => "failed to read config file '" ++ path ++ "'"
  | .unparsable path => "failed to parse config file '" ++ path ++ "'"
  | .invalid problem => problem.message

structure SettingsWarning where
  message : String
  path : String
  deriving DecidableEq

structure Settings where
  global : FileSettings
  repo : FileSettings
  globalPath : Option String
  repoPath : Option String
  warnings : List SettingsWarning
  deriving DecidableEq

/-- Where the environment says that a global file may be. -/
structure SettingsPlaces where
  /-- A file named outright. -/
  explicit : Option String
  userSettings : Option String
  home : Option String

/-- The first of the places with a file; a file that is named and is not there is passed over. -/
def SettingsPlaces.find? (places : SettingsPlaces) (files : FileView) : Option String :=
  let paths := [places.explicit,
    places.userSettings.map fun directory => pathBelow directory "revgate/config.toml",
    places.home.map fun directory => pathBelow directory ".revgate/config.toml"]
  (paths.filterMap id).find? files.has

namespace Settings

def defaultExcluded : List String := ["refs/changes/"]

def defaultCapacity : Nat := 1024

def defaultPageSize : Nat := 100

def repoFile (gitDirectory : String) : String := pathBelow gitDirectory "revgate/config.toml"

/-- Where a file for the repository does not count. -/
def misplacedFile (gitDirectory : String) : String := pathBelow gitDirectory "revgate.toml"

def readFile (files : FileView) (path : String) : Except SettingsError FileSettings :=
  match (files path).bind fun bytes => String.fromUTF8? bytes with
  | none => .error (.unreadable path)
  | some text =>
      match FileSettings.read? text with
      | none => .error (.unparsable path)
      | some file => .ok file

def readOptional (files : FileView) : Option String → Except SettingsError FileSettings
  | none => .ok .empty
  | some path => readFile files path

def warningsFor (files : FileView) (gitDirectory : String) : List SettingsWarning :=
  if !files.has (repoFile gitDirectory) && files.has (misplacedFile gitDirectory) then
    [⟨"Ignoring config file. Please move it to '" ++ repoFile gitDirectory ++ "'",
      misplacedFile gitDirectory⟩]
  else
    []

def validate (file : FileSettings) : Except SettingsError Unit :=
  match file.problem? with
  | some problem => .error (.invalid problem)
  | none => .ok ()

/-- Reads both files, then judges both. -/
def load (files : FileView) (globalPath gitDirectory : Option String) :
    Except SettingsError Settings := do
  let repoPath := (gitDirectory.map repoFile).filter files.has
  let global ← readOptional files globalPath
  let repo ← readOptional files repoPath
  validate global
  validate repo
  return ⟨global, repo, globalPath, repoPath, (gitDirectory.map (warningsFor files)).getD []⟩

def excluded (settings : Settings) : List String :=
  (settings.repo.excluded <|> settings.global.excluded).getD defaultExcluded

def capacity (settings : Settings) : Nat :=
  (settings.repo.capacity <|> settings.global.capacity).getD defaultCapacity

def pageSize (settings : Settings) : Nat :=
  (settings.repo.pageSize <|> settings.global.pageSize).getD defaultPageSize

def memo (settings : Settings) : VisibilityMemo := .empty ⟨settings.excluded⟩ settings.capacity

end Settings

end GuardedRevision
