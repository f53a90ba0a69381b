/-!
# Outcomes of computations with a state

A computation with a state and faults is described by what it ends with: `Gives` says that it ends
without a fault, with some value and some state. Sequences of computations are taken apart with
`gives_bind`. `Leaves` says what is known of the end when there may have been a fault.
-/

namespace GuardedRevision

/-- Run from the state `before`, the action ends with this value, and in the state `after`. -/
def Gives {σ ε α : Type} (action : ExceptT ε (StateM σ) α) (before : σ) (value : α) (after : σ) :
    Prop :=
  action.run.run before = (.ok value, after)

section Gives

variable {σ ε α β : Type} {before after : σ}

@[simp]
theorem gives_pure {found value : α} :
    Gives (pure found : ExceptT ε (StateM σ) α) before value after ↔
      value = found ∧ after = before := by
  constructor
  · intro h
    cases h
    exact ⟨rfl, rfl⟩
  · rintro ⟨rfl, rfl⟩
    rfl

theorem gives_throw {fault : ε} {value : α} :
    ¬ Gives (throw fault : ExceptT ε (StateM σ) α) before value after := by
  intro h
  cases h

theorem gives_bind {first : ExceptT ε (StateM σ) α} {rest : α → ExceptT ε (StateM σ) β}
    {value : β} :
    Gives (first >>= rest) before value after ↔
      ∃ found middle, Gives first before found middle ∧ Gives (rest found) middle value after := by
  unfold Gives
  change (fun ended : Except ε α × σ => StateT.run (ExceptT.bindCont rest ended.1) ended.2)
    (first.run.run before) = _ ↔ _
  obtain ⟨result, middle⟩ := first.run.run before
  cases result with
  | error fault =>
      constructor
      · intro h
        cases h
      · rintro ⟨_, _, h, _⟩
        cases h
  | ok found =>
      constructor
      · intro h
        exact ⟨found, middle, rfl, h⟩
      · rintro ⟨_, _, h, hrest⟩
        cases h
        exact hrest

theorem Gives.unique {action : ExceptT ε (StateM σ) α} {value other : α} {ended : σ}
    (hleft : Gives action before value after) (hright : Gives action before other ended) :
    value = other ∧ after = ended := by
  unfold Gives at hleft hright
  rw [hleft, Prod.mk.injEq, Except.ok.injEq] at hright
  exact hright

theorem Gives.bind_iff {first : ExceptT ε (StateM σ) α} {rest : α → ExceptT ε (StateM σ) β}
    {found : α} {middle : σ} {value : β} (hfirst : Gives first before found middle) :
    Gives (first >>= rest) before value after ↔ Gives (rest found) middle value after := by
  rw [gives_bind]
  constructor
  · rintro ⟨_, _, hother, hrest⟩
    obtain ⟨rfl, rfl⟩ := hfirst.unique hother
    exact hrest
  · intro hrest
    exact ⟨found, middle, hfirst, hrest⟩

@[simp]
theorem gives_get {value : σ} :
    Gives (get : ExceptT ε (StateM σ) σ) before value after ↔
      value = before ∧ after = before := by
  constructor
  · intro h
    cases h
    exact ⟨rfl, rfl⟩
  · rintro ⟨rfl, rfl⟩
    rfl

@[simp]
theorem gives_modify {change : σ → σ} {value : Unit} :
    Gives (modify change : ExceptT ε (StateM σ) Unit) before value after ↔
      after = change before := by
  constructor
  · intro h
    cases h
    rfl
  · rintro rfl
    rfl

@[simp]
theorem gives_liftM {found : Except ε α} {value : α} :
    Gives (liftM found : ExceptT ε (StateM σ) α) before value after ↔
      found = .ok value ∧ after = before := by
  constructor
  · intro h
    cases found with
    | error fault => cases h
    | ok found =>
        cases h
        exact ⟨rfl, rfl⟩
  · rintro ⟨rfl, rfl⟩
    rfl

@[simp]
theorem gives_get_bind {rest : σ → ExceptT ε (StateM σ) β} {value : β} :
    Gives (get >>= rest) before value after ↔ Gives (rest before) before value after := by
  rw [gives_bind]
  constructor
  · rintro ⟨_, _, hget, hrest⟩
    obtain ⟨rfl, rfl⟩ := gives_get.mp hget
    exact hrest
  · intro hrest
    exact ⟨before, before, gives_get.mpr ⟨rfl, rfl⟩, hrest⟩

@[simp]
theorem gives_modify_bind {change : σ → σ} {rest : Unit → ExceptT ε (StateM σ) β} {value : β} :
    Gives (modify change >>= rest) before value after ↔
      Gives (rest ()) (change before) value after := by
  rw [gives_bind]
  constructor
  · rintro ⟨_, _, hmodify, hrest⟩
    rw [gives_modify.mp hmodify] at hrest
    exact hrest
  · intro hrest
    exact ⟨(), _, gives_modify.mpr rfl, hrest⟩

theorem gives_liftM_bind {found : Except ε α} {rest : α → ExceptT ε (StateM σ) β} {value : β} :
    Gives (liftM found >>= rest) before value after ↔
      ∃ result, found = .ok result ∧ Gives (rest result) before value after := by
  rw [gives_bind]
  constructor
  · rintro ⟨result, _, hlift, hrest⟩
    obtain ⟨hfound, rfl⟩ := gives_liftM.mp hlift
    exact ⟨result, hfound, hrest⟩
  · rintro ⟨result, hfound, hrest⟩
    exact ⟨result, before, gives_liftM.mpr ⟨hfound, rfl⟩, hrest⟩

end Gives

/-- Run from the state `before`, the action ends with an outcome and in a state of which this holds. -/
def Leaves {σ ε α : Type} (action : ExceptT ε (StateM σ) α) (before : σ) (post : Except ε α → σ → Prop) :
    Prop :=
  post (action.run.run before).1 (action.run.run before).2

section Leaves

variable {σ ε α β : Type} {before after : σ} {post : Except ε β → σ → Prop}

theorem Leaves.of_gives {action : ExceptT ε (StateM σ) β} {value : β}
    (leaves : Leaves action before post) (hgives : Gives action before value after) :
    post (.ok value) after := by
  unfold Leaves at leaves
  unfold Gives at hgives
  rwa [hgives] at leaves

theorem leaves_pure {value : β} :
    Leaves (pure value : ExceptT ε (StateM σ) β) before post ↔ post (.ok value) before := Iff.rfl

theorem leaves_get_bind {rest : σ → ExceptT ε (StateM σ) β} :
    Leaves (get >>= rest) before post ↔ Leaves (rest before) before post := Iff.rfl

theorem leaves_modify_bind {change : σ → σ} {rest : Unit → ExceptT ε (StateM σ) β} :
    Leaves (modify change >>= rest) before post ↔ Leaves (rest ()) (change before) post := Iff.rfl

theorem Leaves.bind {first : ExceptT ε (StateM σ) α} {rest : α → ExceptT ε (StateM σ) β}
    {reached : Except ε α → σ → Prop} (leaves : Leaves first before reached)
    (hfault : ∀ fault middle, reached (.error fault) middle → post (.error fault) middle)
    (hrest : ∀ found middle, reached (.ok found) middle → Leaves (rest found) middle post) :
    Leaves (first >>= rest) before post := by
  unfold Leaves at leaves
  change (fun ended : Except ε α × σ =>
    post (StateT.run (ExceptT.bindCont rest ended.1) ended.2).1
      (StateT.run (ExceptT.bindCont rest ended.1) ended.2).2) (first.run.run before)
  generalize first.run.run before = ended at leaves ⊢
  obtain ⟨result, middle⟩ := ended
  cases result with
  | error fault => exact hfault fault middle leaves
  | ok found => exact hrest found middle leaves

theorem Gives.leaves_bind_iff {first : ExceptT ε (StateM σ) α} {rest : α → ExceptT ε (StateM σ) β}
    {found : α} (hfirst : Gives first before found after) :
    Leaves (first >>= rest) before post ↔ Leaves (rest found) after post := by
  unfold Gives at hfirst
  change (fun ended : Except ε α × σ =>
    post (StateT.run (ExceptT.bindCont rest ended.1) ended.2).1
      (StateT.run (ExceptT.bindCont rest ended.1) ended.2).2) (first.run.run before) ↔ _
  rw [hfirst]
  exact Iff.rfl

end Leaves

theorem except_toOption_eq_some_iff {ε α : Type} {result : Except ε α} {value : α} :
    result.toOption = some value ↔ result = .ok value := by
  cases result with
  | error fault => simp [Except.toOption]
  | ok found => simp [Except.toOption]

theorem except_bind_eq_ok_iff {ε α β : Type} {first : Except ε α} {rest : α → Except ε β} {value : β} :
    first >>= rest = .ok value ↔ ∃ found, first = .ok found ∧ rest found = .ok value := by
  cases first with
  | error fault =>
      constructor
      · intro h
        cases h
      · rintro ⟨_, h, _⟩
        cases h
  | ok found =>
      constructor
      · intro h
        exact ⟨found, rfl, h⟩
      · rintro ⟨_, h, hrest⟩
        cases h
        exact hrest

theorem except_bind_eq_error_iff {ε α β : Type} {first : Except ε α} {rest : α → Except ε β} {fault : ε} :
    first >>= rest = .error fault ↔
      first = .error fault ∨ ∃ found, first = .ok found ∧ rest found = .error fault := by
  cases first with
  | error other =>
      constructor
      · intro h
        cases h
        exact .inl rfl
      · rintro (h | ⟨_, h, _⟩)
        · cases h
          rfl
        · cases h
  | ok found =>
      constructor
      · intro h
        exact .inr ⟨found, rfl, h⟩
      · rintro (h | ⟨_, h, hrest⟩)
        · cases h
        · cases h
          exact hrest

end GuardedRevision
