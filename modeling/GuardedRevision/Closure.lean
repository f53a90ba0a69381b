/-!
# Closures of finite relations

`closure` collects what can be reached from some seeds inside a finite domain. Each step takes a new
element out of the domain, so cycles and repeated edges cost nothing. `mem_closure_iff` says that it
finds exactly the elements with a path inside the domain.
-/

namespace GuardedRevision

/-- A path from a seed to an element, all of it inside the domain. -/
inductive PathWithin {α : Type} (next : α → List α) (domain seeds : List α) : α → Prop where
  | seed {x : α} (inside : x ∈ domain) (seeded : x ∈ seeds) : PathWithin next domain seeds x
  | step {x y : α} (path : PathWithin next domain seeds x) (inside : y ∈ domain)
      (edge : y ∈ next x) : PathWithin next domain seeds y

/-- At most `steps` elements of the domain that the pending ones lead to. -/
def closureWithin {α : Type} [DecidableEq α] (next : α → List α) :
    Nat → List α → List α → List α
  | 0, _, _ => []
  | steps + 1, domain, pending =>
      match pending.find? fun x => decide (x ∈ domain) with
      | none => []
      | some x => x :: closureWithin next steps (domain.erase x) (next x ++ pending)

def closure {α : Type} [DecidableEq α] (next : α → List α) (domain seeds : List α) : List α :=
  closureWithin next domain.length domain seeds

theorem PathWithin.mem_domain {α : Type} {next : α → List α} {domain seeds : List α} {x : α}
    (path : PathWithin next domain seeds x) : x ∈ domain := by
  cases path with
  | seed inside _ => exact inside
  | step _ inside _ => exact inside

variable {α : Type} [DecidableEq α] {next : α → List α}

private theorem PathWithin.widen {domain seeds : List α} {x y : α} (inside : x ∈ domain)
    (seeded : x ∈ seeds) (path : PathWithin next (domain.erase x) (next x ++ seeds) y) :
    PathWithin next domain seeds y := by
  induction path with
  | seed hdomain hseed =>
      have hmem := List.mem_of_mem_erase hdomain
      rcases List.mem_append.mp hseed with hnext | hold
      · exact .step (.seed inside seeded) hmem hnext
      · exact .seed hmem hold
  | step _ hdomain hedge ih => exact .step ih (List.mem_of_mem_erase hdomain) hedge

private theorem PathWithin.narrow {domain seeds : List α} {x y : α} (hne : y ≠ x)
    (path : PathWithin next domain seeds y) :
    PathWithin next (domain.erase x) (next x ++ seeds) y := by
  induction path with
  | seed hdomain hseed =>
      exact .seed ((List.mem_erase_of_ne hne).mpr hdomain) (List.mem_append_right _ hseed)
  | @step before after _ hdomain hedge ih =>
      have hmem : after ∈ domain.erase x := (List.mem_erase_of_ne hne).mpr hdomain
      by_cases heq : before = x
      · exact .seed hmem (List.mem_append_left _ (heq ▸ hedge))
      · exact .step (ih heq) hmem hedge

theorem mem_closureWithin_iff {steps : Nat} {domain pending : List α}
    (henough : domain.length ≤ steps) (y : α) :
    y ∈ closureWithin next steps domain pending ↔ PathWithin next domain pending y := by
  induction steps generalizing domain pending with
  | zero =>
      have hempty : domain = [] := List.eq_nil_of_length_eq_zero (by omega)
      subst hempty
      constructor
      · simp [closureWithin]
      · intro path
        exact absurd path.mem_domain (by simp)
  | succ steps ih =>
      simp only [closureWithin]
      split
      · next hnone =>
          constructor
          · simp
          · intro path
            clear ih
            exfalso
            induction path with
            | seed hdomain hseed => simpa [hdomain] using List.find?_eq_none.mp hnone _ hseed
            | step _ _ _ hfalse => exact hfalse
      · next x hsome =>
          have inside : x ∈ domain := by simpa using List.find?_some hsome
          have seeded : x ∈ pending := List.mem_of_find?_eq_some hsome
          have hlength := List.length_erase_of_mem inside
          have hshorter : (domain.erase x).length ≤ steps := by omega
          rw [List.mem_cons, ih hshorter]
          constructor
          · rintro (rfl | path)
            · exact .seed inside seeded
            · exact path.widen inside seeded
          · intro path
            by_cases heq : y = x
            · exact .inl heq
            · exact .inr (path.narrow heq)

theorem mem_closure_iff {domain seeds : List α} (y : α) :
    y ∈ closure next domain seeds ↔ PathWithin next domain seeds y :=
  mem_closureWithin_iff (Nat.le_refl _) y

end GuardedRevision
