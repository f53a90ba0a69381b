import GuardedRevision.Sorting
import Mathlib.Data.List.Basic

/-!
# Sorted listings

What sorting promises: the result is in order, what is in order already stays as it is, and elements that
may stand in either order keep the one they had.
-/

namespace GuardedRevision.Sorting

/-! ### Increasing names -/

theorem pairwise_insertName {name : String} {names : List String} (increasing : names.Pairwise (· < ·)) :
    (insertName name names).Pairwise (· < ·) := by
  induction names with
  | nil => exact List.pairwise_singleton _ _
  | cons head rest ih =>
      obtain ⟨hhead, hrest⟩ := List.pairwise_cons.mp increasing
      simp only [insertName]
      split
      · next hless =>
          refine List.pairwise_cons.mpr ⟨fun other hother => ?_, increasing⟩
          rcases List.mem_cons.mp hother with rfl | hmem
          · exact hless
          · exact String.lt_trans hless (hhead other hmem)
      · next hnot =>
          split
          · exact increasing
          · next hne =>
              have hless : head < name := by
                by_contra hgreater
                exact hne (String.le_antisymm hgreater hnot)
              refine List.pairwise_cons.mpr ⟨fun other hother => ?_, ih hrest⟩
              rcases mem_insertName.mp hother with rfl | hmem
              · exact hless
              · exact hhead other hmem

theorem pairwise_distinctNames (names : List String) : (distinctNames names).Pairwise (· < ·) := by
  induction names with
  | nil => exact List.Pairwise.nil
  | cons head rest ih => exact pairwise_insertName ih

/-! ### Sorting by an order -/

variable {α : Type} {le : α → α → Bool} {item : α} {items : List α}

theorem pairwise_insertBy (total : ∀ left right, le left right = false → le right left = true)
    (trans : ∀ left middle right, le left middle = true → le middle right = true → le left right = true)
    (sorted : items.Pairwise fun left right => le left right = true) :
    (insertBy le item items).Pairwise fun left right => le left right = true := by
  induction items with
  | nil => exact List.pairwise_singleton _ _
  | cons head rest ih =>
      obtain ⟨hhead, hrest⟩ := List.pairwise_cons.mp sorted
      rw [insertBy]
      split
      · next hless =>
          refine List.pairwise_cons.mpr ⟨fun other hother => ?_, sorted⟩
          rcases List.mem_cons.mp hother with rfl | hmem
          · exact hless
          · exact trans _ _ _ hless (hhead other hmem)
      · next hnot =>
          refine List.pairwise_cons.mpr ⟨fun other hother => ?_, ih hrest⟩
          rcases List.mem_cons.mp ((insertBy_perm le item rest).mem_iff.mp hother) with rfl | hmem
          · exact total _ _ (Bool.eq_false_iff.mpr hnot)
          · exact hhead other hmem

theorem pairwise_sortBy (le : α → α → Bool)
    (total : ∀ left right, le left right = false → le right left = true)
    (trans : ∀ left middle right, le left middle = true → le middle right = true → le left right = true)
    (items : List α) : (sortBy le items).Pairwise fun left right => le left right = true := by
  induction items with
  | nil => exact List.Pairwise.nil
  | cons head rest ih => exact pairwise_insertBy total trans ih

theorem sortBy_of_pairwise (sorted : items.Pairwise fun left right => le left right = true) :
    sortBy le items = items := by
  induction items with
  | nil => rfl
  | cons head rest ih =>
      obtain ⟨hhead, hrest⟩ := List.pairwise_cons.mp sorted
      rw [sortBy, ih hrest]
      cases rest with
      | nil => rfl
      | cons next later => rw [insertBy, if_pos (hhead next List.mem_cons_self)]

/-! ### Stability -/

section Stable

variable {keeps : α → Bool}

theorem filter_insertBy
    (hitem : keeps item = true → ∀ other ∈ items, keeps other = true → le item other = true) :
    (insertBy le item items).filter keeps = (item :: items).filter keeps := by
  induction items with
  | nil => rfl
  | cons head rest ih =>
      rw [insertBy]
      split
      · rfl
      · next hnot =>
          have hrest := ih fun hkeeps other hother => hitem hkeeps other (List.mem_cons_of_mem head hother)
          by_cases hkeeps : keeps item = true
          · -- An element that the item is not put before is none of those that are kept.
            have hhead : ¬ keeps head = true := fun hhead => hnot (hitem hkeeps head List.mem_cons_self hhead)
            rw [List.filter_cons_of_neg hhead, hrest, List.filter_cons_of_pos hkeeps,
              List.filter_cons_of_pos hkeeps, List.filter_cons_of_neg hhead]
          · rw [List.filter_cons_of_neg hkeeps] at hrest ⊢
            rw [List.filter_cons, List.filter_cons, hrest]

/-- Elements of which each may stand before each keep the order they had. -/
theorem filter_sortBy (htied : ∀ left ∈ items, ∀ right ∈ items,
      keeps left = true → keeps right = true → le left right = true) :
    (sortBy le items).filter keeps = items.filter keeps := by
  induction items with
  | nil => rfl
  | cons head rest ih =>
      have hrest := ih fun left hleft right hright =>
        htied left (List.mem_cons_of_mem head hleft) right (List.mem_cons_of_mem head hright)
      have hhead : keeps head = true → ∀ other ∈ sortBy le rest, keeps other = true → le head other = true :=
        fun hkeeps other hother => htied head List.mem_cons_self other
          (List.mem_cons_of_mem head ((sortBy_perm le rest).mem_iff.mp hother)) hkeeps
      rw [sortBy, filter_insertBy hhead, List.filter_cons, List.filter_cons, hrest]

end Stable

end GuardedRevision.Sorting
