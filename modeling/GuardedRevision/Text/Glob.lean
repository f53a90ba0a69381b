/-!
# Glob patterns

A pattern is read once into parts, and a text matches when the parts cover it from end to end. Both are
taken byte by byte, so a question mark stands for one byte, and slashes have no special place.
-/

namespace GuardedRevision.Text

inductive GlobMember where
  | byte (b : UInt8)
  | range (low high : UInt8)
  | named (members : UInt8 → Bool)

def GlobMember.holds (b : UInt8) : GlobMember → Bool
  | .byte c => b == c
  | .range low high => low ≤ b && b ≤ high
  | .named members => members b

inductive GlobPart where
  | byte (b : UInt8)
  | any
  | many
  | oneOf (negated : Bool) (members : List GlobMember)

namespace Glob

def isBetween (low high : Char) (b : UInt8) : Bool := low.toNat ≤ b.toNat && b.toNat ≤ high.toNat

def isDigit : UInt8 → Bool := isBetween '0' '9'

def isLower : UInt8 → Bool := isBetween 'a' 'z'

def isUpper : UInt8 → Bool := isBetween 'A' 'Z'

def isLetter (b : UInt8) : Bool := isLower b || isUpper b

def isGraphic : UInt8 → Bool := isBetween '!' '~'

/-- The class of a name between `[:` and `:]`; all classes are of ASCII characters. -/
def class? (name : String) : Option (UInt8 → Bool) :=
  match name with
  | "alnum" => some fun b => isLetter b || isDigit b
  | "alpha" => some isLetter
  | "blank" => some fun b => b == 32 || b == 9
  | "cntrl" => some fun b => b < 32 || b == 127
  | "digit" => some isDigit
  | "graph" => some isGraphic
  | "lower" => some isLower
  | "print" => some fun b => isGraphic b || b == 32
  | "punct" => some fun b => isGraphic b && !isLetter b && !isDigit b
  | "space" => some fun b => b == 32 || (9 ≤ b && b ≤ 13)
  | "upper" => some isUpper
  | "xdigit" => some fun b => isDigit b || isBetween 'a' 'f' b || isBetween 'A' 'F' b
  | _ => none

def code (c : Char) : UInt8 := c.toNat.toUInt8

/-- A byte that a backslash may stand before. -/
def escaped? : List UInt8 → Option (UInt8 × List UInt8)
  | [] => none
  | b :: rest =>
      if b == code '\\' then
        match rest with
        | [] => none
        | c :: rest => some (c, rest)
      else
        some (b, rest)

/-- The name of a class after `[:`, and what follows `:]`. Without `:]` before the next bracket the
opening bracket is an ordinary member, and nothing is read; brackets that never close read nothing. -/
def className? (text : List UInt8) : Option (Option (String × List UInt8)) :=
  let name := text.takeWhile (· != code ']')
  match text.drop name.length with
  | [] => none
  | _ :: rest =>
      if name.getLast? = some (code ':') then
        some (some (String.ofList (name.dropLast.map fun b => Char.ofNat b.toNat), rest))
      else
        some none

/-- The members of brackets up to the closing one, which is ordinary in the first place. `before` is the
member a range may begin at. -/
def members? : Nat → Bool → Option UInt8 → List UInt8 → Option (List GlobMember × List UInt8)
  | 0, _, _, _ => none
  | _, _, _, [] => none
  | steps + 1, first, before, b :: rest =>
      if b == code ']' && !first then
        some ([], rest)
      else if b == code '-' && before.isSome && !rest.isEmpty && rest.head? != some (code ']') then do
        let (high, rest) ← escaped? rest
        let (later, rest) ← members? steps false none rest
        return (.range (before.getD 0) high :: later, rest)
      else if b == code '[' && rest.head? = some (code ':') then
        match className? (rest.drop 1) with
        | none => none
        | some none => do
            let (later, rest) ← members? steps false (some b) rest
            return (.byte b :: later, rest)
        | some (some (name, rest)) => do
            let members ← class? name
            let (later, rest) ← members? steps false none rest
            return (.named members :: later, rest)
      else do
        let (c, rest) ← escaped? (b :: rest)
        let (later, rest) ← members? steps false (some c) rest
        return (.byte c :: later, rest)

def brackets? (text : List UInt8) : Option (GlobPart × List UInt8) := do
  let negated := text.head? = some (code '!') || text.head? = some (code '^')
  let inside := if negated then text.drop 1 else text
  let (members, rest) ← members? (inside.length + 1) true none inside
  return (.oneOf negated members, rest)

def parts? : Nat → List UInt8 → Option (List GlobPart)
  | 0, _ => none
  | _, [] => some []
  | steps + 1, b :: rest =>
      if b == code '*' then (parts? steps (rest.dropWhile (· == code '*'))).map (.many :: ·)
      else if b == code '?' then (parts? steps rest).map (.any :: ·)
      else if b == code '[' then do
        let (part, rest) ← brackets? rest
        return part :: (← parts? steps rest)
      else do
        let (c, rest) ← escaped? (b :: rest)
        return .byte c :: (← parts? steps rest)

/-- For every tail of a text, the text itself first and the empty one last, whether the parts cover it. -/
def coveredTails (text : List UInt8) : List GlobPart → List Bool
  | [] => text.map (fun _ => false) ++ [true]
  | .many :: parts =>
      (coveredTails text parts).foldr (fun here later => (here || later.headD false) :: later) []
  | .byte b :: parts => oneMore (· == b) (coveredTails text parts)
  | .any :: parts => oneMore (fun _ => true) (coveredTails text parts)
  | .oneOf negated members :: parts =>
      oneMore (fun c => members.any (GlobMember.holds c) != negated) (coveredTails text parts)
where
  /-- From the tails after a byte to those that begin with it. -/
  oneMore (holds : UInt8 → Bool) (covered : List Bool) : List Bool :=
    List.zipWith (fun c later => holds c && later) text covered.tail ++ [false]

end Glob

/-- Whether a text matches a pattern. Nothing matches a pattern that breaks off, in brackets or after a
backslash, or that names an unknown class. -/
def matchesGlob (pattern text : String) : Bool :=
  let bytes := pattern.toUTF8.data.toList
  match Glob.parts? (bytes.length + 1) bytes with
  | none => false
  | some parts => (Glob.coveredTails text.toUTF8.data.toList parts).headD false

/-- A character with a meaning of its own in a pattern. -/
def isSpecial (c : Char) : Bool := c == '?' || c == '*' || c == '[' || c == '\\'

/-- The folder that a pattern spells out: what stands before its first special character, up to the last
slash in that. -/
def plainFolder? (pattern : String) : Option String :=
  let literal := pattern.toList.takeWhile (!isSpecial ·)
  match literal.reverse.dropWhile (· != '/') with
  | [] => none
  | folder => some (String.ofList folder.reverse)

end GuardedRevision.Text
