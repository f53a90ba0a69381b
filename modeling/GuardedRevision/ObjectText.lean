import GuardedRevision.Repository

/-!
# The text of an object

A store keeps a commit or a tag as text: header lines, a blank line and the message. `Commit.stored?`
and `Tag.stored?` write the fields of an object out and read them back. Names that hold angle brackets
or line ends are read back differently, or make the object unreadable, as ids do that no store holds.
-/

namespace GuardedRevision

namespace ObjectText

def newline : UInt8 := 10

def openBracket : UInt8 := 60

def closeBracket : UInt8 := 62

def bytes (text : String) : List UInt8 := text.toUTF8.data.toList

/-! ### Writing -/

def signatureLine (label : String) (signature : Signature) : List UInt8 :=
  bytes label ++ signature.name.data.toList ++ bytes " <" ++ signature.email.data.toList ++
    bytes ("> " ++ toString signature.time ++ " +0000\n")

/-- The text of a commit after the lines that name tree and parents. -/
def writeCommit (author committer : Signature) (message : ByteArray) : List UInt8 :=
  signatureLine "author " author ++ signatureLine "committer " committer ++ bytes "\n" ++
    message.data.toList

/-- The text of a tag from its name on, up to the message. A tag without a time has no tagger. -/
def writeTag (name : String) (time : Option Int) : List UInt8 :=
  let tagger := time.map fun time => signatureLine "tagger " ⟨"name".toUTF8, "address".toUTF8, time⟩
  bytes name ++ [newline] ++ tagger.getD [] ++ [newline]

/-! ### Reading -/

/-- Blanks and control characters, and the marks that set off a name or an address. -/
def isFraming (c : UInt8) : Bool := c ≤ 32 || (bytes ",:;<>\"\\'").contains c

def trimmed (text : List UInt8) : List UInt8 :=
  ((text.dropWhile isFraming).reverse.dropWhile isFraming).reverse

/-- The text before the last occurrence of a byte and the text after it. -/
def cutAtLast? (mark : UInt8) (text : List UInt8) : Option (List UInt8 × List UInt8) :=
  let after := text.reverse.takeWhile (· != mark)
  match text.reverse.drop after.length with
  | [] => none
  | _ :: before => some (before.reverse, after.reverse)

def isDigit (c : UInt8) : Bool := 48 ≤ c && c ≤ 57

def isSpace (c : UInt8) : Bool := c == 32 || (9 ≤ c && c ≤ 13)

/-- The number at the front of a text, after white space and a sign. It has to fit in 64 bits. -/
def time? (text : List UInt8) : Option Int :=
  let text := text.dropWhile isSpace
  let negative := text.head? = some 45
  let unsigned := if negative || text.head? = some 43 then text.drop 1 else text
  let digits := unsigned.takeWhile isDigit
  let n : Nat := digits.foldl (fun n c => 10 * n + (c.toNat - 48)) 0
  let value : Int := if negative then -n else n
  if !digits.isEmpty && -9223372036854775808 ≤ value && value < 9223372036854775808 then some value
  else none

/-- A signature between its label and the end of its line. The last brackets count; without anything
after them the time is zero. -/
def signature? (text : List UInt8) : Option Signature := do
  let (name, _) ← cutAtLast? openBracket text
  let (before, after) ← cutAtLast? closeBracket text
  if before.length < name.length then none
  else
    let time ← if after.length ≤ 1 then some 0 else time? (after.drop 1)
    let email := trimmed (before.drop (name.length + 1))
    return ⟨⟨(trimmed name).toArray⟩, ⟨email.toArray⟩, time⟩

/-- A line at the front of a text that goes on after its label, and what follows the line. -/
def labelled? (label : String) (text : List UInt8) : Option (List UInt8 × List UInt8) :=
  let line := text.takeWhile (· != newline)
  let lead := bytes label
  match text.drop line.length with
  | [] => none
  | _ :: rest =>
      if lead.isPrefixOf line && lead.length < line.length then some (line.drop lead.length, rest)
      else none

def signatureLine? (label : String) (text : List UInt8) : Option (Signature × List UInt8) := do
  let (line, rest) ← labelled? label text
  return (← signature? line, rest)

/-- Passes over further lines with authors; each has to be readable. -/
def skipAuthors? : Nat → List UInt8 → Option (List UInt8)
  | 0, _ => none
  | steps + 1, text =>
      if (bytes "author ").isPrefixOf text then
        (signatureLine? "author " text).bind fun found => skipAuthors? steps found.2
      else
        some text

def message : Nat → List UInt8 → List UInt8
  | 0, _ => []
  | _, [] => []
  | steps + 1, c :: rest =>
      if c == newline then rest
      else message steps (((c :: rest).dropWhile (· != newline)).drop 1)

def readCommit? (parents : List ObjectId) (text : List UInt8) : Option Commit := do
  let (author, rest) ← signatureLine? "author " text
  let rest ← skipAuthors? (rest.length + 1) rest
  let (committer, rest) ← signatureLine? "committer " rest
  return ⟨parents, author, committer.time, ⟨(message rest.length rest).toArray⟩⟩

/-- The name ends with its line, and a tag has a tagger unless a blank line follows. -/
def readTag? (target : ObjectId) (text : List UInt8) : Option Tag :=
  match text.dropWhile (· != newline) with
  | _ :: c :: rest =>
      if c == newline then some ⟨target, none⟩
      else (signatureLine? "tagger " (c :: rest)).map fun found => ⟨target, some found.1.time⟩
  | _ => some ⟨target, none⟩

end ObjectText

/-- What a store gives back of a commit with these fields. -/
def Commit.stored? (tree : ObjectId) (parents : List ObjectId) (author committer : Signature)
    (message : ByteArray) : Option Commit :=
  if (tree :: parents).all ObjectId.isStorable then
    ObjectText.readCommit? parents (ObjectText.writeCommit author committer message)
  else
    none

def Tag.stored? (target : ObjectId) (name : String) (time : Option Int) : Option Tag :=
  if target.isStorable then ObjectText.readTag? target (ObjectText.writeTag name time) else none

/-- A commit or a tag as it is stored, whether it can be read or not. -/
def StoredEntry.ofCommit? : Option Commit → StoredEntry
  | some commit => .readable (.commit commit)
  | none => .unreadable .commit

def StoredEntry.ofTag? : Option Tag → StoredEntry
  | some tag => .readable (.tag tag)
  | none => .unreadable .tag

end GuardedRevision
