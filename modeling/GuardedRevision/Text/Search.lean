/-!
# Searching text

Texts are searched as lists of characters. `breakOn` cuts a text at the first occurrence of a mark and
`pathSplits` lists the places where a trailing path may begin.
-/

namespace GuardedRevision.Text

/-- What follows `lead`, when the text begins with it. -/
def afterLead? (lead text : List Char) : Option (List Char) :=
  if lead.isPrefixOf text then some (text.drop lead.length) else none

/-- The text before the first occurrence of `mark` and the text after it. -/
def breakOn (mark : List Char) : List Char → Option (List Char × List Char)
  | [] => if mark.isEmpty then some ([], []) else none
  | c :: rest =>
      if mark.isPrefixOf (c :: rest) then
        some ([], (c :: rest).drop mark.length)
      else
        (breakOn mark rest).map fun cut => (c :: cut.1, cut.2)

def occursIn (mark text : List Char) : Bool := (breakOn mark text).isSome

/-- Every cut of a text into a head and a path, where the path is empty or begins with `/`, the
shortest head first. -/
def pathSplits : List Char → List (List Char × List Char)
  | [] => [([], [])]
  | c :: rest =>
      let longer := (pathSplits rest).map fun cut => (c :: cut.1, cut.2)
      if c = '/' then ([], c :: rest) :: longer else longer

theorem breakOn_append {mark text before after : List Char}
    (hcut : breakOn mark text = some (before, after)) :
    text = before ++ mark ++ after := by
  induction text generalizing before after with
  | nil =>
      simp only [breakOn] at hcut
      split at hcut
      · next hempty => simp_all
      · simp at hcut
  | cons c rest ih =>
      simp only [breakOn] at hcut
      split at hcut
      · next hlead =>
          obtain ⟨tail, htail⟩ := List.isPrefixOf_iff_prefix.mp hlead
          simp only [Option.some.injEq, Prod.mk.injEq] at hcut
          obtain ⟨rfl, rfl⟩ := hcut
          simp [← htail]
      · obtain ⟨cut, hrest, heq⟩ := Option.map_eq_some_iff.mp hcut
        obtain ⟨rfl, rfl⟩ := Prod.mk.inj heq
        simpa using ih hrest

theorem breakOn_eq_none {c : Char} {mark text : List Char} (hnot : c ∉ text) :
    breakOn (c :: mark) text = none := by
  induction text with
  | nil => rfl
  | cons d rest ih =>
      obtain ⟨hne, hrest⟩ := List.ne_and_not_mem_of_not_mem_cons hnot
      have hlead : (c :: mark).isPrefixOf (d :: rest) = false := by
        simp [List.isPrefixOf, hne]
      rw [breakOn, hlead, ih hrest]
      rfl

theorem pathSplits_eq_singleton {text : List Char} (hflat : '/' ∉ text) :
    pathSplits text = [(text, [])] := by
  induction text with
  | nil => rfl
  | cons c rest ih =>
      obtain ⟨hne, hrest⟩ := List.ne_and_not_mem_of_not_mem_cons hflat
      rw [pathSplits, ih hrest, if_neg (Ne.symm hne)]
      rfl

end GuardedRevision.Text
