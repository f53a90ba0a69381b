/-!
# Insertion sort

Listings have an order that answers show, so they are sorted by a stable insertion sort that reduces
on closed lists. `insertName` keeps a strictly increasing list of names, which also removes repeats.
-/

namespace GuardedRevision.Sorting

/-- Inserts before the first element that is not smaller. -/
def insertBy {α : Type} (le : α → α → Bool) (item : α) : List α → List α
  | [] => [item]
  | head :: rest =>
      if le item head then item :: head :: rest else head :: insertBy le item rest

/-- Stable: elements that are equal under `le` keep their order. -/
def sortBy {α : Type} (le : α → α → Bool) : List α → List α
  | [] => []
  | head :: rest => insertBy le head (sortBy le rest)

def insertName (name : String) : List String → List String
  | [] => [name]
  | head :: rest =>
      if name < head then name :: head :: rest
      else if name = head then head :: rest
      else head :: insertName name rest

def distinctNames : List String → List String
  | [] => []
  | head :: rest => insertName head (distinctNames rest)

theorem insertBy_perm {α : Type} (le : α → α → Bool) (item : α) (items : List α) :
    (insertBy le item items).Perm (item :: items) := by
  induction items with
  | nil => exact List.Perm.refl _
  | cons head rest ih =>
      simp only [insertBy]
      split
      · exact List.Perm.refl _
      · exact (ih.cons head).trans (List.Perm.swap item head rest)

theorem sortBy_perm {α : Type} (le : α → α → Bool) (items : List α) : (sortBy le items).Perm items := by
  induction items with
  | nil => exact List.Perm.refl _
  | cons head rest ih => exact (insertBy_perm le head _).trans (ih.cons head)

theorem mem_insertName {name : String} {names : List String} {other : String} :
    other ∈ insertName name names ↔ other = name ∨ other ∈ names := by
  induction names with
  | nil => simp [insertName]
  | cons head rest ih =>
      simp only [insertName]
      split
      · simp
      · split
        · next heq => simp [heq]
        · simp only [List.mem_cons, ih]
          constructor <;> rintro (h | h | h) <;> simp [h]

theorem mem_distinctNames {names : List String} {name : String} :
    name ∈ distinctNames names ↔ name ∈ names := by
  induction names with
  | nil => simp [distinctNames]
  | cons head rest ih => simp [distinctNames, mem_insertName, ih]

end GuardedRevision.Sorting
