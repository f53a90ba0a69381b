import GuardedRevision.Text.Search

/-!
# Revision expressions

An expression is a range, a commit against its first parent, or a single revision, each with a path
after it. The form is found by the marks alone; whether the parts name anything is decided later.
-/

namespace GuardedRevision

inductive Expression where
  /-- `old..new`, where the path belongs to the new side. -/
  | range (old new : List Char)
  /-- `name^!`, and what follows the mark. -/
  | againstParent (name rest : List Char)
  | single (text : List Char)
  deriving DecidableEq

namespace Expression

/-- One slash before the expression does not count. -/
def body (text : List Char) : List Char := (Text.afterLead? ['/'] text).getD text

/-- The form of an expression that is not empty. The first `..` decides before any `^!` does. -/
def ofBody (text : List Char) : Expression :=
  match Text.breakOn ['.', '.'] text with
  | some (old, new) => .range old new
  | none =>
      match Text.breakOn ['^', '!'] text with
      | some (name, rest) => .againstParent name rest
      | none => .single text

def read? (text : List Char) : Option Expression :=
  if (body text).isEmpty then none else some (ofBody (body text))

/-- The texts that may name the revision of a text with a path, longest first, each with the path
that is left. -/
def candidates (text : List Char) : List (List Char × List Char) :=
  (Text.pathSplits text).reverse.filter fun cut => !cut.1.isEmpty

end Expression

end GuardedRevision
