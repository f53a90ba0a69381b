import GuardedRevision.Calendar
import GuardedRevision.Repository

/-!
# What is shown of a commit

The subject of a commit is the first paragraph of its message on one line. Texts that are not UTF-8
are shown as empty, and an author time without a date as the epoch.
-/

namespace GuardedRevision

namespace Subject

def newline : UInt8 := 10

/-- Space, tab, vertical tab, form feed or carriage return. -/
def isBlank (c : UInt8) : Bool := c == 32 || c == 9 || c == 11 || c == 12 || c == 13

def isSpace (c : UInt8) : Bool := isBlank c || c == newline

/-- Whether nothing but white space stands before the end of the line or of the message. -/
def blankLine (rest : List UInt8) : Bool :=
  match rest.dropWhile isBlank with
  | [] => true
  | c :: _ => c == newline

/-- The part before the first newline that a blank line or the end of the message follows. -/
def firstParagraph : List UInt8 → List UInt8
  | [] => []
  | c :: rest => if c == newline && blankLine rest then [] else c :: firstParagraph rest

/-- Turns each run of white space with a newline in it into one space and drops a run at the end;
`run` is the white space just read, last byte first. -/
def joinLines (run : List UInt8) : List UInt8 → List UInt8
  | [] => []
  | c :: rest =>
      if isSpace c then
        joinLines (c :: run) rest
      else
        (if run.contains newline then [32] else run.reverse) ++ c :: joinLines [] rest

def ofMessage (message : List UInt8) : List UInt8 :=
  joinLines [] (firstParagraph ((message.takeWhile (· != 0)).dropWhile (· == newline)))

end Subject

/-- A text in UTF-8 up to its first NUL, or nothing. -/
def decoded (bytes : List UInt8) : String :=
  (String.fromUTF8? ⟨(bytes.takeWhile (· != 0)).toArray⟩).getD ""

structure CommitRecord where
  id : ObjectId
  parents : List ObjectId
  subject : String
  authorName : String
  authorEmail : String
  authorTime : DateTime
  commitTime : Int
  deriving DecidableEq

def CommitRecord.ofCommit (id : ObjectId) (commit : Commit) : CommitRecord where
  id := id
  parents := commit.parents
  subject := decoded (Subject.ofMessage commit.message.data.toList)
  authorName := decoded commit.author.name.data.toList
  authorEmail := decoded commit.author.email.data.toList
  authorTime := (DateTime.ofSeconds? commit.author.time).getD DateTime.epoch
  commitTime := commit.time

/-- The record of a commit. An object of another kind counts as missing, also one that cannot be read. -/
def Repository.commitRecord (repo : Repository) (id : ObjectId) : Except Fault CommitRecord :=
  match repo.object id with
  | .ok (.commit commit) => .ok (.ofCommit id commit)
  | .ok _ => .error (.missingObject id)
  | .error fault =>
      match repo.storedKind? id with
      | some .tree | some .blob | some .tag => .error (.missingObject id)
      | _ => .error fault

end GuardedRevision
