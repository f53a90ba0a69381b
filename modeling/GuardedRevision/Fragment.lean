import GuardedRevision.Text.Search

/-!
# Fragments

A fragment names one object: a base, which is a ref name or the digits of an id, and steps to
ancestors. `Fragment.read?` reads exactly the texts that the grammar of fragments allows and
`Fragment.text` writes the plainest of them.
-/

namespace GuardedRevision

inductive Step where
  /-- `^n`: the n-th parent, counted from one. -/
  | parent (n : Nat)
  /-- `~n`: the n-th ancestor along first parents. -/
  | ancestor (n : Nat)
  deriving DecidableEq

structure Fragment where
  base : List Char
  steps : List Step
  deriving DecidableEq

namespace Step

/-- Numbers of steps are 32 bits wide. -/
def bound : Nat := UInt32.size

def isMark (c : Char) : Bool := c == '^' || c == '~'

def numberOf (digits : List Char) : Nat :=
  digits.foldl (fun n c => 10 * n + (c.toNat - '0'.toNat)) 0

/-- The step of a mark and the digits after it, where no digits mean one. -/
def ofMark? (mark : Char) (digits : List Char) : Option Step :=
  let n := if digits.isEmpty then 1 else numberOf digits
  if bound ≤ n then none
  else if mark = '~' then some (.ancestor n)
  else if mark = '^' then if n = 0 then none else some (.parent n)
  else none

/-- Reads steps from the right: the digits that no mark has claimed yet, and the steps after them. -/
def readTail? : List Char → Option (List Char × List Step)
  | [] => some ([], [])
  | c :: rest =>
      match readTail? rest with
      | none => none
      | some (digits, steps) =>
          if c.isDigit then some (c :: digits, steps)
          else (ofMark? c digits).map fun step => ([], step :: steps)

def readAll? (text : List Char) : Option (List Step) :=
  match readTail? text with
  | some ([], steps) => some steps
  | _ => none

def text : Step → List Char
  | .parent n => '^' :: Nat.toDigits 10 n
  | .ancestor n => '~' :: Nat.toDigits 10 n

end Step

namespace Fragment

/-- Characters of forms that are never fragments: dereference marks, paths in trees, reflogs. -/
def forbidden : List Char := [':', '@', '{', '}', '!']

/-- A base has no empty part between slashes. -/
def isBase (base : List Char) : Bool :=
  !base.isEmpty && base.head? != some '/' && base.getLast? != some '/' &&
    !Text.occursIn ['/', '/'] base

/-- The base ends at the first step mark, as no ref name holds one. -/
def read? (text : List Char) : Option Fragment :=
  if text.any forbidden.contains || Text.occursIn ['.', '.'] text then none
  else
    let base := text.takeWhile (!Step.isMark ·)
    if isBase base then
      (Step.readAll? (text.dropWhile (!Step.isMark ·))).map fun steps => ⟨base, steps⟩
    else
      none

def text (fragment : Fragment) : List Char := fragment.base ++ fragment.steps.flatMap Step.text

/-- Whether the steps lead away from the base; `~0` alone does not. -/
def moves (fragment : Fragment) : Bool := fragment.steps.any (· ≠ .ancestor 0)

end Fragment

end GuardedRevision
