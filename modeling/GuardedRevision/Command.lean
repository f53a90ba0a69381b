/-!
# Commands

What can be asked for on a command line.
-/

namespace GuardedRevision

structure LogOptions where
  /-- The size of the page, where the settings do not decide. -/
  limit : Option Nat
  start : Option String
  firstParent : Bool
  json : Bool
  deriving DecidableEq

inductive Command where
  | parse (expression : String)
  | log (expression : String) (options : LogOptions)
  | tags (limit : Option Nat)
  | visible (digits : String)
  deriving DecidableEq

/-- A command and where it is to run, if not in the current directory. -/
structure Invocation where
  directory : Option String
  debug : Bool
  command : Command
  deriving DecidableEq

end GuardedRevision
