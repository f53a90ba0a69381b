import GuardedRevision.Command
import GuardedRevision.Command.Report
import GuardedRevision.Settings

/-!
# Running commands

A command runs on one repository under its settings and gives the text to print. Nothing is printed
when it fails.
-/

namespace GuardedRevision

inductive Cause where
  | notFound
  | notRepository (path : String)
  | settings (error : SettingsError)
  | badId (error : ObjectIdError)
  | fault (inner : Fault)
  deriving DecidableEq

def Cause.message : Cause → String
  | .notFound => "not found"
  | .notRepository path => "not a git repository: " ++ path
  | .settings error => error.message
  | .badId error => error.message
  | .fault inner => inner.message

structure Failure where
  context : Option String
  cause : Cause
  deriving DecidableEq

namespace Failure

def of (cause : Cause) : Failure := ⟨none, cause⟩

def during (context : String) (cause : Cause) : Failure := ⟨some context, cause⟩

/-- The texts of a failure, the widest first. -/
def messages (failure : Failure) : List String :=
  failure.context.toList ++ [failure.cause.message]

end Failure

structure Session where
  repo : Repository
  settings : Settings

namespace Session

def resolve (session : Session) (expression : String) : Except Fault (Option Resolution) :=
  ((session.repo.resolve expression).on session.settings.memo).1

def parse (session : Session) (expression : String) : Except Failure String :=
  match session.resolve expression with
  | .error fault => .error (.during ("failed to resolve '" ++ expression ++ "'") (.fault fault))
  | .ok none => .error (.of .notFound)
  | .ok (some resolution) => .ok (ofLines [resolution.json.text])

def start? : Option String → Except Failure (Option ObjectId)
  | none => .ok none
  | some text =>
      match ObjectId.parse text with
      | .error error => .error (.during "--start must be a full object id" (.badId error))
      | .ok id => .ok (some id)

def walk (session : Session) (expression : String) (resolution : Resolution) :
    Except Failure HistoryWalk :=
  (resolution.walk session.repo).mapError fun fault =>
    .during ("'" ++ expression ++ "' does not name a commit") (.fault fault)

def page (session : Session) (expression : String) (options : LogOptions) :
    Except Failure Page := do
  match session.resolve expression with
  | .error fault => throw (.of (.fault fault))
  | .ok none => throw (.of .notFound)
  | .ok (some resolution) =>
      let start ← start? options.start
      let walk ← session.walk expression resolution
      let walk := if options.firstParent then walk.firstParentOnly else walk
      (Pager.new walk (options.limit.getD session.settings.pageSize) start).page.mapError
        fun fault => .of (.fault fault)

def log (session : Session) (expression : String) (options : LogOptions) :
    Except Failure String := do
  let page ← session.page expression options
  return ofLines (if options.json then [page.json.text] else page.lines)

def tags (session : Session) (limit : Option Nat) : Except Failure String :=
  match (TimeMemo.empty.listTags session.repo limit).1 with
  | .error fault => .error (.of (.fault fault))
  | .ok tags => .ok (ofLines (TagEntry.lines tags))

/-- Digits that name no object, or several, name nothing visible. -/
def isVisible (session : Session) (digits : String) : Except Fault Bool :=
  match session.repo.withDigits? digits with
  | .error fault => .error fault
  | .ok none => .ok false
  | .ok (some id) => (session.settings.memo.check session.repo ⟨id, []⟩).1

def visible (session : Session) (digits : String) : Except Failure String :=
  match session.isVisible digits with
  | .error fault => .error (.of (.fault fault))
  | .ok visible => .ok (ofLines [if visible then "visible" else "not visible"])

def run (session : Session) : Command → Except Failure String
  | .parse expression => session.parse expression
  | .log expression options => session.log expression options
  | .tags limit => session.tags limit
  | .visible digits => session.visible digits

end Session

/-- Where commands run: the repositories by the directories they are found from, each with its own
directory, and the files with settings. -/
structure Surroundings where
  current : String
  repository? : String → Option (Repository × String)
  files : FileView
  places : SettingsPlaces

namespace Surroundings

def session (world : Surroundings) (path : String) : Except Failure Session :=
  match world.repository? path with
  | none => .error (.during "failed to open repository" (.notRepository path))
  | some (repo, gitDirectory) =>
      match Settings.load world.files (world.places.find? world.files) (some gitDirectory) with
      | .error error => .error (.during "failed to load config" (.settings error))
      | .ok settings => .ok ⟨repo, settings⟩

def run (world : Surroundings) (invocation : Invocation) : Except Failure String := do
  (← world.session (invocation.directory.getD world.current)).run invocation.command

end Surroundings

end GuardedRevision
