/-!
# Object ids and object kinds

An object id is a hexadecimal text of 40 or 64 digits in lower case. `ObjectId.parse` lowers what it
is given and is the only way from a text to an id.
-/

namespace GuardedRevision

inductive ObjectKind where
  | commit
  | tree
  | blob
  | tag
  deriving DecidableEq

def ObjectKind.name : ObjectKind → String
  | .commit => "commit"
  | .tree => "tree"
  | .blob => "blob"
  | .tag => "tag"

def ObjectKind.ofName? : String → Option ObjectKind
  | "commit" => some .commit
  | "tree" => some .tree
  | "blob" => some .blob
  | "tag" => some .tag
  | _ => none

inductive ObjectIdError where
  | length (bytes : Nat)
  | notHex
  deriving DecidableEq

def ObjectIdError.message : ObjectIdError → String
  | .length bytes =>
      "invalid object id: expected 40 or 64 hex characters, got " ++ toString bytes
  | .notHex => "invalid object id: object id must be hexadecimal"

def isHexDigit (c : Char) : Bool :=
  c.isDigit || ('a' ≤ c && c ≤ 'f') || ('A' ≤ c && c ≤ 'F')

namespace ObjectId

/-- The number of digits of an id in a repository's store. -/
def storeDigits : Nat := 40

/-- The number of digits of the longer kind of id, which no store holds. -/
def longDigits : Nat := 64

/-- Whether a text is an id as it is written down: the right number of digits, none in upper case. -/
def isCanonical (text : String) : Bool :=
  (text.utf8ByteSize == storeDigits || text.utf8ByteSize == longDigits) &&
    text.toList.all fun c => isHexDigit c && !c.isUpper

end ObjectId

structure ObjectId where
  text : String
  canonical : ObjectId.isCanonical text = true
  deriving DecidableEq

namespace ObjectId

/-- Lengths are counted in bytes, and a wrong length is reported before a wrong digit. -/
def parse (text : String) : Except ObjectIdError ObjectId :=
  let lowered := text.toLower
  if lowered.utf8ByteSize ≠ storeDigits ∧ lowered.utf8ByteSize ≠ longDigits then
    .error (.length lowered.utf8ByteSize)
  else if canonical : isCanonical lowered = true then
    .ok ⟨lowered, canonical⟩
  else
    .error .notHex

def zero : ObjectId :=
  ⟨"0000000000000000000000000000000000000000", by decide⟩

def emptyTree : ObjectId :=
  ⟨"4b825dc642cb6eb9a060e54bf8d69288fbee4904", by decide⟩

def isZero (id : ObjectId) : Bool := id.text.toList.all (· == '0')

/-- The first `count` digits, or all of them. -/
def short (id : ObjectId) (count : Nat) : String := String.ofList (id.text.toList.take count)

def isStorable (id : ObjectId) : Bool := id.text.utf8ByteSize == storeDigits

/-- Whether a text may stand for an id or the beginning of one: four digits at least. -/
def isHashLike (text : String) : Bool :=
  4 ≤ text.utf8ByteSize && text.utf8ByteSize ≤ longDigits && text.toList.all isHexDigit

@[ext]
theorem ext {left right : ObjectId} (htext : left.text = right.text) : left = right := by
  cases left
  cases right
  simp_all

end ObjectId

end GuardedRevision
