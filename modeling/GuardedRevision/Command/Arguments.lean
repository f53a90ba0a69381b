import GuardedRevision.Command
import GuardedRevision.Text.Search

/-!
# Command lines

`Invocation.ofArguments` reads a command line or says why there is nothing to run. A command line has
two levels: the options before the command, and the command's own options with its one positional
argument. An option's value is judged only when the next option, a positional argument or the end
shows that it is complete, so an unknown argument before that is reported first.
-/

namespace GuardedRevision

/-- Why a command line runs nothing. -/
inductive Usage where
  | help
  | version
  | nothingGiven
  | missingCommand
  | unknownCommand
  | unknownArgument
  | missingArgument
  | missingValue
  /-- A value for an option that takes none. -/
  | surplusValue
  | invalidValue
  | repeated
  deriving DecidableEq

namespace Usage

def message : Usage → String
  | .help => "commands: parse EXPRESSION, log EXPRESSION, tags, visible DIGITS"
  | .version => "0.1.0"
  | .nothingGiven => "no arguments"
  | .missingCommand => "a command is missing"
  | .unknownCommand => "no such command"
  | .unknownArgument => "no such argument"
  | .missingArgument => "the command needs an argument"
  | .missingValue => "an option needs a value"
  | .surplusValue => "an option takes no value"
  | .invalidValue => "an option has a value that does not suit it"
  | .repeated => "an option is given twice"

def isAnswer (usage : Usage) : Bool := usage == .help || usage == .version

inductive OptionName where
  | directory
  | debug
  | limit
  | start
  | firstParent
  | json
  | help
  | version
  deriving DecidableEq

def OptionName.takesValue : OptionName → Bool
  | .directory => true
  | .limit => true
  | .start => true
  | _ => false

inductive Level where
  | top
  | parse
  | log
  | tags
  | visible
  deriving DecidableEq

def Level.ofCommand? : String → Option Level
  | "parse" => some .parse
  | "log" => some .log
  | "tags" => some .tags
  | "visible" => some .visible
  | _ => none

def helpWord : String := "help"

def isCommandWord (word : String) : Bool := (Level.ofCommand? word).isSome || word == helpWord

def sharedOption? : String → Option OptionName
  | "--cwd" => some .directory
  | "--debug" => some .debug
  | "-h" => some .help
  | "--help" => some .help
  | _ => none

def limitOption? : String → Option OptionName
  | "-n" => some .limit
  | "--limit" => some .limit
  | _ => none

def logOption? : String → Option OptionName
  | "--start" => some .start
  | "--first-parent" => some .firstParent
  | "--json" => some .json
  | _ => none

def versionOption? : String → Option OptionName
  | "-V" => some .version
  | "--version" => some .version
  | _ => none

def Level.option? (level : Level) (word : String) : Option OptionName :=
  sharedOption? word <|>
    match level with
    | .top => versionOption? word
    | .log => limitOption? word <|> logOption? word
    | .tags => limitOption? word
    | _ => none

def Level.takesPositional : Level → Bool
  | .top => false
  | .tags => false
  | _ => true

/-- One argument by its shape. -/
inductive Argument where
  /-- `--`, after which nothing is an option. -/
  | separator
  /-- `--name` or `--name=value`. -/
  | long (word : String) (attached : Option String)
  /-- `-n`, `-nvalue` or `-n=value`. -/
  | short (word : String) (attached : Option String)
  | plain (text : String)

def Argument.ofText (text : String) : Argument :=
  match text.toList with
  | ['-', '-'] => .separator
  | '-' :: '-' :: rest =>
      match Text.breakOn ['='] rest with
      | some (name, value) => .long (String.ofList ('-' :: '-' :: name)) (some (String.ofList value))
      | none => .long text none
  | ['-', c] => .short (String.ofList ['-', c]) none
  | '-' :: c :: '=' :: value => .short (String.ofList ['-', c]) (some (String.ofList value))
  | '-' :: c :: value => .short (String.ofList ['-', c]) (some (String.ofList value))
  | _ => .plain text

/-- A count is written in decimal digits, after a plus sign or none, and fits in 64 bits. -/
def count? (text : String) : Option Nat :=
  let digits := (Text.afterLead? ['+'] text.toList).getD text.toList
  let n := digits.foldl (fun n c => 10 * n + (c.toNat - '0'.toNat)) 0
  if !digits.isEmpty && digits.all Char.isDigit && n < UInt64.size then some n else none

structure Reading where
  flags : List OptionName
  values : List (OptionName × String)
  /-- The last option with a value, and the value once it has been read. -/
  pending : Option (OptionName × Option String)
  positional : Option String
  plainOnly : Bool

namespace Reading

def empty : Reading := ⟨[], [], none, none, false⟩

def awaitsValue (reading : Reading) : Bool :=
  match reading.pending with
  | some (_, none) => true
  | _ => false

def value? (reading : Reading) (name : OptionName) : Option String := reading.values.lookup name

def problem? (name : OptionName) (value : String) : Option Usage :=
  match name with
  | .directory => if value.isEmpty then some .missingValue else none
  | .limit => if (count? value).isSome then none else some .invalidValue
  | _ => none

def give (reading : Reading) (name : OptionName) (value : String) : Except Usage Reading :=
  if (reading.value? name).isSome then .error .repeated
  else match problem? name value with
    | some usage => .error usage
    | none => .ok { reading with values := (name, value) :: reading.values }

def settle (reading : Reading) : Except Usage Reading :=
  match reading.pending with
  | none => .ok reading
  | some (_, none) => .error .missingValue
  | some (name, some value) => { reading with pending := none }.give name value

def raise (reading : Reading) (name : OptionName) : Except Usage Reading :=
  match name with
  | .help => .error .help
  | .version => .error .version
  | _ =>
      if reading.flags.contains name then .error .repeated
      else .ok { reading with flags := name :: reading.flags }

def takeValued (reading : Reading) (name : OptionName) (attached : Option String) :
    Except Usage Reading := do
  let settled ← reading.settle
  match attached with
  | none => return { settled with pending := some (name, none) }
  | some value => settled.give name value

def takePlain (reading : Reading) (level : Level) (text : String) : Except Usage Reading :=
  if level = .top then
    .error (if reading.plainOnly && isCommandWord text then .unknownArgument else .unknownCommand)
  else if !level.takesPositional || reading.positional.isSome then .error .unknownArgument
  else do
    let settled ← reading.settle
    return { settled with positional := some text }

def takeArgument (reading : Reading) (level : Level) : Argument → Except Usage Reading
  | .separator => .ok { reading with plainOnly := true }
  | .long word attached =>
      match level.option? word with
      | none => .error .unknownArgument
      | some name =>
          if name.takesValue then reading.takeValued name attached
          else if attached.isSome then .error .surplusValue
          else do (← reading.settle).raise name
  | .short word attached =>
      match level.option? word with
      | none => .error .unknownArgument
      | some name =>
          if name.takesValue then reading.takeValued name attached
          else do (← reading.settle).raise name
  | .plain text =>
      match reading.pending with
      | some (name, none) => .ok { reading with pending := some (name, some text) }
      | _ => reading.takePlain level text

def take (reading : Reading) (level : Level) (text : String) : Except Usage Reading :=
  if reading.plainOnly then reading.takePlain level text
  else reading.takeArgument level (.ofText text)

def takeAll (reading : Reading) (level : Level) : List String → Except Usage Reading
  | [] => reading.settle
  | text :: rest => do (← reading.take level text).takeAll level rest

/-- Reads options up to the word of a command; the word and what follows it are left. -/
def takeOptions (reading : Reading) : List String → Except Usage (Reading × List String)
  | [] => .ok (reading, [])
  | text :: rest =>
      if !reading.plainOnly && !reading.awaitsValue && isCommandWord text then
        .ok (reading, text :: rest)
      else do (← reading.take .top text).takeOptions rest

def limit? (reading : Reading) : Option Nat := (reading.value? .limit).bind count?

def isRaised (reading : Reading) (name : OptionName) : Bool := reading.flags.contains name

def command (reading : Reading) : Level → Except Usage Command
  | .top => .error .missingCommand
  | .tags => .ok (.tags reading.limit?)
  | level =>
      match reading.positional with
      | none => .error .missingArgument
      | some text =>
          match level with
          | .log =>
              .ok (.log text ⟨reading.limit?, reading.value? .start, reading.isRaised .firstParent,
                reading.isRaised .json⟩)
          | .visible => .ok (.visible text)
          | _ => .ok (.parse text)

def withoutCommand (reading : Reading) : Usage :=
  if reading.flags.isEmpty && reading.values.isEmpty then .nothingGiven else .missingCommand

end Reading

/-- Help is given on the program or on one command. -/
def ofHelpWords : List String → Usage
  | [] => .help
  | [word] => if isCommandWord word then .help else .unknownCommand
  | _ => .unknownCommand

end Usage

open Usage in
/-- Reads a command line. What is given both before and after the command's word counts as given after
it. -/
def Invocation.ofArguments (arguments : List String) : Except Usage Invocation := do
  let (before, rest) ← Reading.empty.takeOptions arguments
  match rest with
  | [] => throw (← before.settle).withoutCommand
  | word :: rest =>
      match Level.ofCommand? word with
      | none => throw (ofHelpWords rest)
      | some level =>
          let after ← Reading.empty.takeAll level rest
          let command ← after.command level
          let before ← before.settle
          return ⟨after.value? .directory <|> before.value? .directory,
            before.isRaised .debug || after.isRaised .debug, command⟩

end GuardedRevision
