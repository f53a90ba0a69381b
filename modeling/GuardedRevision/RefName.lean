import GuardedRevision.Text.Search

/-!
# Ref names

`RefName.problem?` finds the first rule that a text breaks, in a fixed order of rules; a ref name is
a text without a problem. Namespaces are plain leading texts such as `refs/heads/`.
-/

namespace GuardedRevision

inductive RefNameError where
  | empty
  | leadingSlash
  | trailingSlash
  | trailingLock
  | doubleDot
  | reflogMark
  | doubleSlash
  | character (c : Char)
  | control
  | componentDot
  | componentLock
  deriving DecidableEq

def RefNameError.detail : RefNameError → String
  | .empty => "ref name cannot be empty"
  | .leadingSlash => "ref name cannot start with '/'"
  | .trailingSlash => "ref name cannot end with '/'"
  | .trailingLock => "ref name cannot end with '.lock'"
  | .doubleDot => "ref name cannot contain '..'"
  | .reflogMark => "ref name cannot contain '@\x7b'"
  | .doubleSlash => "ref name cannot contain '//'"
  | .character c => "ref name cannot contain '" ++ String.singleton c ++ "'"
  | .control => "ref name cannot contain control characters"
  | .componentDot => "path component cannot start with '.'"
  | .componentLock => "path component cannot end with '.lock'"

def RefNameError.message (error : RefNameError) : String := "invalid ref name: " ++ error.detail

def isControl (c : Char) : Bool := c.val < 32 || c.val == 127

namespace RefName

def forbidden : List Char := [' ', '~', '^', ':', '\\', '?', '*', '[']

def lockSuffix : List Char := ".lock".toList

def componentProblem? (component : List Char) : Option RefNameError :=
  if component.head? = some '.' then some .componentDot
  else if lockSuffix.isSuffixOf component then some .componentLock
  else none

/-- The first rule that a text breaks. Forbidden characters are looked for in the order of
`forbidden`, not in the order of the text. -/
def problem? (text : List Char) : Option RefNameError :=
  if text.isEmpty then some .empty
  else if text.head? = some '/' then some .leadingSlash
  else if text.getLast? = some '/' then some .trailingSlash
  else if lockSuffix.isSuffixOf text then some .trailingLock
  else if Text.occursIn ['.', '.'] text then some .doubleDot
  else if Text.occursIn ['@', '{'] text then some .reflogMark
  else if Text.occursIn ['/', '/'] text then some .doubleSlash
  else match forbidden.find? text.contains with
    | some c => some (.character c)
    | none =>
        if text.any isControl then some .control
        else (text.splitOn '/').findSome? componentProblem?

end RefName

structure RefName where
  text : String
  wellFormed : RefName.problem? text.toList = none
  deriving DecidableEq

namespace RefName

def parse (text : String) : Except RefNameError RefName :=
  match found : problem? text.toList with
  | some error => .error error
  | none => .ok ⟨text, found⟩

def heads : String := "refs/heads/"

def tags : String := "refs/tags/"

def isUnder (space name : String) : Bool := space.toList.isPrefixOf name.toList

def after? (space name : String) : Option String :=
  (Text.afterLead? space.toList name.toList).map String.ofList

def isBranch (name : RefName) : Bool := isUnder heads name.text

def isTag (name : RefName) : Bool := isUnder tags name.text

def isUnderAny (spaces : List String) (name : RefName) : Bool :=
  spaces.any fun space => isUnder space name.text

def withoutCaret (text : List Char) : List Char :=
  if text.head? = some '^' then text.drop 1 else text

/-- A text in capitals and underscores with a capital at each end, as `HEAD` is. A caret may stand in
front, and `@` alone is another word for `HEAD`. -/
def isCapitals (text : List Char) : Bool :=
  text = ['@'] ||
    !text.isEmpty && (withoutCaret text).all (fun c => c.isUpper || c == '_') &&
      text.head? != some '_' && text.getLast? != some '_'

def isStorableComponent (component : List Char) : Bool :=
  (componentProblem? component).isNone && !Text.occursIn ['.', '.'] component &&
    !Text.occursIn ['@', '{'] component &&
    component.all fun c => c != ' ' && !isControl c && !forbidden.contains c

/-- The components of a text between its slashes, leaving out empty ones. -/
def components (text : String) : List (List Char) :=
  (text.toList.splitOn '/').filter fun component => !component.isEmpty

def ofComponents (components : List (List Char)) : String :=
  String.ofList (['/'].intercalate components)

/-- Whether components make a name that a store can hold: one alone is written in capitals, and the
first of several is not. -/
def isStorableShape : List (List Char) → Bool
  | [] => false
  | [only] => isCapitals only
  | first :: _ => !isCapitals first

/-- The name that a store keeps a ref of this name under, if it can hold one. Each run of slashes counts
as one. A caret is taken in front of the whole name only. -/
def storeName? (text : String) : Option String :=
  if text.toList.head? = some '/' || text.toList.getLast? = some '/' ||
      text.toList.getLast? = some '.' then none
  else if (components (String.ofList (withoutCaret text.toList))).all isStorableComponent &&
      isStorableShape (components text) then
    some (if text = "@" then "HEAD" else ofComponents (components text))
  else none

@[ext]
theorem ext {left right : RefName} (htext : left.text = right.text) : left = right := by
  cases left
  cases right
  simp_all

end RefName

end GuardedRevision
