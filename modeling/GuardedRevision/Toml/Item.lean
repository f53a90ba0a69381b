/-!
# TOML documents as data

A document is built statement by statement. Every table knows how it came to be, since that decides
who may add to it: a table that was written out in braces or under its own header is closed to dotted
keys, and one that dotted keys made is closed to headers.
-/

namespace GuardedRevision.Toml

inductive Origin where
  /-- As the parent of a table with a header. -/
  | implied
  /-- Under a header of its own. -/
  | header
  /-- By a dotted key. -/
  | dotted
  /-- In braces. -/
  | inline
  deriving DecidableEq

inductive Item where
  | string (text : String)
  | integer (n : Int)
  | float (text : String)
  | boolean (b : Bool)
  | dateTime (text : String)
  | array (items : List Item)
  | table (origin : Origin) (entries : List (String × Item))
  /-- The tables under the headers in double brackets. -/
  | tables (tables : List (List (String × Item)))

abbrev Entries := List (String × Item)

namespace Item

def string? : Item → Option String
  | .string text => some text
  | _ => none

def integer? : Item → Option Int
  | .integer n => some n
  | _ => none

def strings? : Item → Option (List String)
  | .array items => items.mapM string?
  | _ => none

def entries? : Item → Option Entries
  | .table _ entries => some entries
  | _ => none

end Item

namespace Entries

def put (entries : Entries) (key : String) (item : Item) : Entries :=
  if (entries.lookup key).isSome then
    entries.map fun entry => if entry.1 = key then (key, item) else entry
  else
    entries ++ [(key, item)]

/-- Changes the table at a path, making the tables on the way that are not there. Dotted keys do not
enter a table that has its own header; nothing enters a value in braces. The last table of an array
of tables stands for the array. -/
def changeAt (dotted : Bool) (change : Origin → Entries → Option Entries) :
    List String → Origin → Entries → Option Entries
  | [], origin, entries => change origin entries
  | key :: path, _, entries =>
      match entries.lookup key with
      | none => do
          let origin := if dotted then .dotted else .implied
          let inner ← changeAt dotted change path origin []
          return entries.put key (.table origin inner)
      | some (.table .inline _) => none
      | some (.table origin inner) =>
          if dotted && origin == .header then none
          else do
            let inner ← changeAt dotted change path origin inner
            return entries.put key (.table origin inner)
      | some (.tables tables) => do
          let inner ← changeAt dotted change path .header (← tables.getLast?)
          return entries.put key (.tables (tables.dropLast ++ [inner]))
      | some _ => none

/-- Adds a new key under a path of dotted keys. Dotted keys and plain ones do not share a table. -/
def addDotted (path : List String) (key : String) (item : Item) (origin : Origin)
    (entries : Entries) : Option Entries :=
  changeAt true
    (fun innermost inner =>
      if (innermost == .dotted) == path.isEmpty then none
      else if (inner.lookup key).isSome then none
      else some (inner ++ [(key, item)]))
    path origin entries

/-- Like `addDotted` inside braces, where all tables on the way come from dotted keys. -/
def addInline (path : List String) (key : String) (item : Item) (entries : Entries) :
    Option Entries :=
  addDotted path key item .inline entries

/-- Begins the table of a header; a table that was only implied so far gets its header now. -/
def openTable (path : List String) (key : String) (entries : Entries) : Option Entries :=
  changeAt false
    (fun _ inner =>
      match inner.lookup key with
      | none => some (inner ++ [(key, .table .header [])])
      | some (.table .implied below) => some (inner.put key (.table .header below))
      | some _ => none)
    path .header entries

def openArrayTable (path : List String) (key : String) (entries : Entries) : Option Entries :=
  changeAt false
    (fun _ inner =>
      match inner.lookup key with
      | none => some (inner ++ [(key, .tables [[]])])
      | some (.tables tables) => some (inner.put key (.tables (tables ++ [[]])))
      | some _ => none)
    path .header entries

def addUnder (header path : List String) (key : String) (item : Item) (entries : Entries) :
    Option Entries :=
  changeAt false (addDotted path key item) header .header entries

end Entries

end GuardedRevision.Toml
