import GuardedRevision.Proofs.Completeness

/-!
# The order of a history

`Repository.order` chooses, again and again, the newest of the commits that no other pending one names
as a parent. It gives only commits that it is given, each as often as it is given at most, and where
no object leads to itself it gives all of them. Whatever the times are, no commit comes before one whose
parent it is.
-/

namespace GuardedRevision.Repository

variable {repo : Repository} {id : ObjectId} {pending commits : List ObjectId} {steps : Nat}

theorem mem_of_newest? (hnewest : repo.newest? pending = some id) : id ∈ pending := by
  induction pending generalizing id with
  | nil => simp [newest?] at hnewest
  | cons first rest ih =>
      simp only [newest?] at hnewest
      split at hnewest
      · cases hnewest
        exact List.mem_cons_self
      · next other hother =>
          split at hnewest
          · cases hnewest
            exact List.mem_cons_self
          · cases hnewest
            exact List.mem_cons_of_mem _ (ih hother)

theorem exists_newest? (hne : pending ≠ []) : ∃ id, repo.newest? pending = some id := by
  cases pending with
  | nil => exact absurd rfl hne
  | cons first rest =>
      simp only [newest?]
      split
      · exact ⟨first, rfl⟩
      · split
        · exact ⟨first, rfl⟩
        · exact ⟨_, rfl⟩

theorem isReady_iff : repo.isReady pending id = true ↔ ∀ child ∈ pending, id ∉ repo.parentsOf child := by
  simp [isReady]

theorem exists_isReady (acyclic : ∀ id, ¬ repo.LeadsTo id id) (hne : pending ≠ []) :
    ∃ id ∈ pending, repo.isReady pending id = true := by
  obtain ⟨id, hid, hfree⟩ := exists_unlinked acyclic hne
  refine ⟨id, hid, isReady_iff.mpr fun child hchild hparent => ?_⟩
  exact hfree child hchild (leadsTo_of_mem_parentsOf hparent)

theorem orderWithin_cons {rest : List ObjectId} (horder : repo.orderWithin (steps + 1) pending = id :: rest) :
    id ∈ pending ∧ repo.isReady pending id = true ∧
      rest = repo.orderWithin steps (pending.erase id) := by
  simp only [orderWithin] at horder
  split at horder
  · simp at horder
  · next chosen hchosen =>
      obtain ⟨rfl, rfl⟩ := List.cons.inj horder
      obtain ⟨hmem, hready⟩ := List.mem_filter.mp (mem_of_newest? hchosen)
      exact ⟨hmem, hready, rfl⟩

theorem orderWithin_subperm (steps : Nat) (pending : List ObjectId) :
    (repo.orderWithin steps pending).Subperm pending := by
  induction steps generalizing pending with
  | zero => exact List.nil_subperm
  | succ steps ih =>
      cases horder : repo.orderWithin (steps + 1) pending with
      | nil => exact List.nil_subperm
      | cons id rest =>
          obtain ⟨hmem, _, rfl⟩ := orderWithin_cons horder
          have hrest : (id :: repo.orderWithin steps (pending.erase id)).Subperm
              (id :: pending.erase id) := (List.subperm_cons id).mpr (ih (pending.erase id))
          exact hrest.trans (List.perm_cons_erase hmem).symm.subperm

theorem order_subperm (commits : List ObjectId) : (repo.order commits).Subperm commits :=
  orderWithin_subperm commits.length commits

theorem mem_of_mem_order (hid : id ∈ repo.order commits) : id ∈ commits :=
  (order_subperm commits).subset hid

theorem nodup_order (hnodup : commits.Nodup) : (repo.order commits).Nodup := by
  obtain ⟨same, hperm, hsublist⟩ : (repo.order commits).Subperm commits := order_subperm commits
  exact hperm.nodup_iff.mp (hsublist.nodup hnodup)

theorem orderWithin_perm (acyclic : ∀ id, ¬ repo.LeadsTo id id) (henough : pending.length ≤ steps) :
    (repo.orderWithin steps pending).Perm pending := by
  induction steps generalizing pending with
  | zero =>
      rw [List.eq_nil_of_length_eq_zero (Nat.le_zero.mp henough)]
      exact List.Perm.refl _
  | succ steps ih =>
      by_cases hne : pending = []
      · subst hne
        exact List.Perm.refl _
      · obtain ⟨ready, hready, hfree⟩ := exists_isReady acyclic hne
        have hsome : pending.filter (repo.isReady pending) ≠ [] :=
          List.ne_nil_of_mem (List.mem_filter.mpr ⟨hready, hfree⟩)
        obtain ⟨id, hid⟩ : ∃ id, repo.newest? (pending.filter (repo.isReady pending)) = some id :=
          exists_newest? hsome
        have hmem : id ∈ pending := List.mem_of_mem_filter (mem_of_newest? hid)
        have hlength : (pending.erase id).length ≤ steps := by
          rw [List.length_erase_of_mem hmem]
          omega
        simp only [orderWithin, hid]
        exact ((ih hlength).cons id).trans (List.perm_cons_erase hmem).symm

theorem order_perm (acyclic : ∀ id, ¬ repo.LeadsTo id id) (commits : List ObjectId) :
    (repo.order commits).Perm commits :=
  orderWithin_perm acyclic (Nat.le_refl _)

theorem mem_order (acyclic : ∀ id, ¬ repo.LeadsTo id id) : id ∈ repo.order commits ↔ id ∈ commits :=
  (order_perm acyclic commits).mem_iff

theorem orderWithin_pairwise (steps : Nat) (pending : List ObjectId) :
    (repo.orderWithin steps pending).Pairwise fun earlier later => earlier ∉ repo.parentsOf later := by
  induction steps generalizing pending with
  | zero => exact List.Pairwise.nil
  | succ steps ih =>
      cases horder : repo.orderWithin (steps + 1) pending with
      | nil => exact List.Pairwise.nil
      | cons id rest =>
          obtain ⟨_, hready, rfl⟩ := orderWithin_cons horder
          refine List.pairwise_cons.mpr ⟨fun later hlater => ?_, ih (pending.erase id)⟩
          -- What comes later was pending when the choice was made.
          apply isReady_iff.mp hready
          exact List.mem_of_mem_erase ((orderWithin_subperm steps (pending.erase id)).subset hlater)

theorem order_pairwise (commits : List ObjectId) :
    (repo.order commits).Pairwise fun earlier later => earlier ∉ repo.parentsOf later :=
  orderWithin_pairwise commits.length commits

end GuardedRevision.Repository
