import GuardedRevision.Proofs.Independence
import GuardedRevision.Proofs.LongestPrefix

/-!
# What a fragment names

Where nothing is remembered that is wrong, a fragment resolves to what it names. What it names is said
without a memo, in terms of what is exposed, so that what more steps after it name can be said in terms of
what it names itself.
-/

namespace GuardedRevision

/-- What a text names for a request that holds some roots. The base has to be exposed when it is given by
digits, and the object that the steps lead to when they move. -/
inductive BrowsePolicy.Names (policy : BrowsePolicy) (repo : Repository) (refs : List RefEntry)
    (roots : List ObjectId) (text : List Char) (revision : Revision) : Prop where
  | intro {fragment : Fragment} {base id : ObjectId} {source : BaseSource}
      (reads : Fragment.read? text = some fragment)
      (named : repo.base (String.ofList fragment.base) = .ok (some (base, source)))
      (shown : source = .digits → policy.Exposes repo refs roots base)
      (reached : repo.destination base fragment.steps = .ok (some id))
      (kept : fragment.moves = true → policy.Exposes repo refs roots id)
      (revises : repo.revision (String.ofList text) id = .ok revision)

def Revision.renamed (revision : Revision) (name : String) : Revision := { revision with name }

variable {policy : BrowsePolicy} {repo : Repository} {refs : List RefEntry} {roots more : List ObjectId}
  {base id last : ObjectId} {memo after : VisibilityMemo} {text other : List Char}
  {texts : List (List Char)} {fragment : Fragment} {steps later : List Step} {revision : Revision}
  {name : String}

namespace Repository

theorem revision_of_isCommit (hcommit : repo.isCommit id = true) (name : String) :
    repo.revision name id = .ok (.ofCommit name id) := by
  have hkind := kind_eq_commit_iff.mpr hcommit
  unfold Repository.revision
  rw [hkind, peel_eq_ok_iff.mpr (.of_isCommit hcommit)]
  simp only [bind, Except.bind, hkind]
  rfl

theorem revision_renamed (hrevision : repo.revision name id = .ok revision) (other : String) :
    repo.revision other id = .ok (revision.renamed other) := by
  obtain ⟨kind, hkind, hrest⟩ := except_bind_eq_ok_iff.mp hrevision
  obtain ⟨peeled, hpeeled, hrest⟩ := except_bind_eq_ok_iff.mp hrest
  obtain ⟨peeledKind, hpeeledKind, hrest⟩ := except_bind_eq_ok_iff.mp hrest
  cases hrest
  exact except_bind_eq_ok_iff.mpr ⟨kind, hkind, except_bind_eq_ok_iff.mpr
    ⟨peeled, hpeeled, except_bind_eq_ok_iff.mpr ⟨peeledKind, hpeeledKind, rfl⟩⟩⟩

/-! ### Steps after steps -/

theorem stepAll_append (steps later : List Step) (id : ObjectId) :
    repo.stepAll (steps ++ later) id = (do
      match ← repo.stepAll steps id with
      | none => return none
      | some next => repo.stepAll later next) := by
  induction steps generalizing id with
  | nil => rfl
  | cons step rest ih =>
      rw [List.cons_append, stepAll, stepAll]
      rcases repo.step id step with fault | reached
      · rfl
      · cases reached with
        | none => rfl
        | some next => exact ih next

theorem stepAll_singleton (step : Step) (id : ObjectId) : repo.stepAll [step] id = repo.step id step := by
  rw [stepAll]
  rcases repo.step id step with fault | reached
  · rfl
  · cases reached with
    | none => rfl
    | some next => rfl

theorem ancestor_add (n m : Nat) (id : ObjectId) :
    repo.ancestor (n + m) id = (do
      match ← repo.ancestor n id with
      | none => return none
      | some next => repo.ancestor m next) := by
  induction n generalizing id with
  | zero => rw [Nat.zero_add]; rfl
  | succ n ih =>
      rw [Nat.succ_add, ancestor, ancestor]
      rcases repo.parents id with fault | parents
      · rfl
      · cases parents with
        | nil => rfl
        | cons parent rest => exact ih parent

theorem step_parent_one (hcommit : repo.isCommit id = true) :
    repo.step id (.parent 1) = .ok (repo.parentsOf id).head? := by
  rw [step, parents_eq_ok_iff.mpr ⟨hcommit, rfl⟩, List.head?_eq_getElem?]
  rfl

/-- Steps that lead to the same from everywhere may be taken for each other after other steps. -/
theorem destination_congr {others : List Step} (hlater : later ≠ []) (hothers : others ≠ [])
    (hsame : ∀ id, repo.stepAll later id = repo.stepAll others id) (base : ObjectId) (steps : List Step) :
    repo.destination base (steps ++ later) = repo.destination base (steps ++ others) := by
  unfold destination
  rw [if_neg (by simp [hlater]), if_neg (by simp [hothers])]
  simp only [stepAll_append, hsame]

theorem peelToCommit_of_peelsTo (peels : repo.PeelsTo id last) :
    repo.peelToCommit id = .ok (if repo.isCommit last = true then some last else none) :=
  peelToCommit_eq_ok_iff.mpr ⟨last, peels, rfl⟩

theorem Complete.destination_append (complete : repo.Complete)
    (hreached : repo.destination base steps = .ok (some id)) (peels : repo.PeelsTo id last)
    (hlater : later ≠ []) : repo.destination base (steps ++ later) =
      if repo.isCommit last = true then repo.stepAll later last else .ok none := by
  unfold destination at hreached ⊢
  rw [if_neg (by simp [hlater])]
  split at hreached
  · next hempty =>
      cases hreached
      rw [List.isEmpty_iff.mp hempty, List.nil_append, peelToCommit_of_peelsTo peels]
      split
      · rfl
      · rfl
  · obtain ⟨found, hpeel, hreached⟩ := except_bind_eq_ok_iff.mp hreached
    cases found with
    | none => cases hreached
    | some start =>
        dsimp only at hreached
        have hcommit := complete.isCommit_of_stepAll (isCommit_of_peelToCommit hpeel) hreached
        obtain rfl := peels.eq_of_isCommit hcommit
        rw [hpeel, if_pos hcommit]
        simp only [bind, Except.bind, stepAll_append, hreached]

end Repository

/-! ### Names -/

namespace BrowsePolicy

theorem names_iff (hread : Fragment.read? text = some fragment) :
    policy.Names repo refs roots text revision ↔
      ∃ base source id, repo.base (String.ofList fragment.base) = .ok (some (base, source)) ∧
        (source = .digits → policy.Exposes repo refs roots base) ∧
        repo.destination base fragment.steps = .ok (some id) ∧
        (fragment.moves = true → policy.Exposes repo refs roots id) ∧
        repo.revision (String.ofList text) id = .ok revision := by
  constructor
  · rintro ⟨reads, named, shown, reached, kept, revises⟩
    obtain rfl := Option.some.inj (hread.symm.trans reads)
    exact ⟨_, _, _, named, shown, reached, kept, revises⟩
  · rintro ⟨base, source, id, named, shown, reached, kept, revises⟩
    exact ⟨hread, named, shown, reached, kept, revises⟩

theorem Names.mono (hroots : roots ⊆ more) (names : policy.Names repo refs roots text revision) :
    policy.Names repo refs more text revision := by
  obtain ⟨reads, named, shown, reached, kept, revises⟩ := names
  exact ⟨reads, named, fun hsource => (shown hsource).mono hroots, reached,
    fun hmoves => (kept hmoves).mono hroots, revises⟩

theorem Names.congr {others : Fragment} (names : policy.Names repo refs roots text revision)
    (reads : Fragment.read? text = some fragment) (readsOther : Fragment.read? other = some others)
    (hbase : others.base = fragment.base) (hmoves : others.moves = fragment.moves)
    (hsteps : ∀ base, repo.destination base others.steps = repo.destination base fragment.steps) :
    policy.Names repo refs roots other (revision.renamed (String.ofList other)) := by
  obtain ⟨base, source, id, named, shown, reached, kept, revises⟩ := (names_iff reads).mp names
  exact ⟨readsOther, hbase ▸ named, shown, (hsteps _).trans reached, fun h => kept (hmoves ▸ h),
    Repository.revision_renamed revises _⟩

/-- What more steps name after a text that names something. Only where they lead to has to be exposed, and
only when they move. -/
theorem Names.append_iff (complete : repo.Complete) (names : policy.Names repo refs roots text revision)
    (written : List.Forall₂ Step.WrittenAs texts later) (hlater : later ≠ []) (side : Revision) :
    policy.Names repo refs roots (text ++ texts.flatten) side ↔
      repo.isCommit revision.peeledId = true ∧ ∃ id,
        repo.stepAll later revision.peeledId = .ok (some id) ∧
        (later.any (· ≠ .ancestor 0) = true → policy.Exposes repo refs roots id) ∧
        side = .ofCommit (String.ofList (text ++ texts.flatten)) id := by
  obtain ⟨reads, named, shown, reached, kept, revises⟩ := names
  obtain ⟨rfl, peels⟩ := Repository.of_revision revises
  have hread := Fragment.read?_append reads written
  have hdestination := complete.destination_append reached peels hlater
  constructor
  · intro namesMore
    obtain ⟨_, _, _, namedMore, _, reachedMore, keptMore, revisesMore⟩ := (names_iff hread).mp namesMore
    rw [named] at namedMore
    cases namedMore
    rw [hdestination] at reachedMore
    split at reachedMore
    · next hcommit =>
        rw [Repository.revision_of_isCommit (complete.isCommit_of_stepAll hcommit reachedMore)] at revisesMore
        refine ⟨hcommit, _, reachedMore, fun hmove => keptMore ?_, (Except.ok.inj revisesMore).symm⟩
        rw [Fragment.moves, List.any_append, hmove, Bool.or_true]
    · cases reachedMore
  · rintro ⟨hcommit, next, hsteps, hexposed, rfl⟩
    rw [if_pos hcommit, hsteps] at hdestination
    refine ⟨hread, named, shown, hdestination, fun hmoves => ?_,
      Repository.revision_of_isCommit (complete.isCommit_of_stepAll hcommit hsteps) _⟩
    cases hstill : later.any (· ≠ .ancestor 0) with
    | true => exact hexposed hstill
    | false =>
        -- Steps that stay where they are name the commit that was exposed before.
        rw [Fragment.moves, List.any_append, hstill, Bool.or_false] at hmoves
        cases (Repository.stepAll_of_not_moves hstill).symm.trans hsteps
        exact (kept hmoves).peels peels

theorem Names.step_iff (complete : repo.Complete) (names : policy.Names repo refs roots text revision)
    {mark : List Char} {step : Step} (written : Step.WrittenAs mark step) (side : Revision) :
    policy.Names repo refs roots (text ++ mark) side ↔
      repo.isCommit revision.peeledId = true ∧ ∃ id, repo.step revision.peeledId step = .ok (some id) ∧
        (step ≠ .ancestor 0 → policy.Exposes repo refs roots id) ∧
        side = .ofCommit (String.ofList (text ++ mark)) id := by
  have happend := names.append_iff complete (.cons written .nil) (List.cons_ne_nil _ _) side
  rw [List.flatten_singleton, Repository.stepAll_singleton] at happend
  simpa using happend

theorem Names.parent_iff (complete : repo.Complete) (names : policy.Names repo refs roots text revision)
    (hcommit : repo.isCommit revision.peeledId = true) (side : Revision) :
    policy.Names repo refs roots (text ++ ['^']) side ↔ ∃ parent,
      (repo.parentsOf revision.peeledId).head? = some parent ∧ policy.Exposes repo refs roots parent ∧
      side = .ofCommit (String.ofList (text ++ ['^'])) parent := by
  rw [names.step_iff complete Step.writtenAs_caret side, Repository.step_parent_one hcommit,
    and_iff_right hcommit]
  simp

end BrowsePolicy

/-! ### Fragments resolve to what they name -/

namespace VisibilityMemo

section Complete

variable (complete : repo.Complete) (hroots : ∀ root ∈ roots, repo.Holds root)
  (hlisted : repo.listRefs = .ok refs)
include complete hroots hlisted

theorem Truthful.of_guarded {condition : Prop} [Decidable condition] (truthful : memo.Truthful policy repo roots)
    (hasked : if condition then Gives (repo.isVisible id roots) memo true after else after = memo) :
    after.Truthful policy repo roots ∧ (condition → policy.Exposes repo refs roots id) := by
  rcases guarded_iff.mp hasked with ⟨_, hshown, rfl⟩ | ⟨hfree, rfl⟩
  · exact ⟨truthful.check id, fun _ => (truthful.check_eq_true_iff complete hroots hlisted id).mp hshown⟩
  · exact ⟨truthful, fun holds => absurd holds hfree⟩

theorem Truthful.exists_guarded {condition : Prop} [Decidable condition]
    (truthful : memo.Truthful policy repo roots) (hexposed : condition → policy.Exposes repo refs roots id) :
    ∃ after, after.Truthful policy repo roots ∧
      if condition then Gives (repo.isVisible id roots) memo true after else after = memo := by
  by_cases hcondition : condition
  · have hshown := (truthful.check_eq_true_iff complete hroots hlisted id).mpr (hexposed hcondition)
    exact ⟨_, truthful.check id, guarded_iff.mpr (.inl ⟨hcondition, hshown, rfl⟩)⟩
  · exact ⟨memo, truthful, guarded_iff.mpr (.inr ⟨hcondition, rfl⟩)⟩

theorem Truthful.resolveFragment_iff (truthful : memo.Truthful policy repo roots) :
    ((repo.resolveFragment roots text).on memo).1 = .ok (some revision) ↔
      policy.Names repo refs roots text revision := by
  constructor
  · intro hresolve
    obtain ⟨fragment, base, source, id, middle, reads, named, hdigits, reached, hmoves, revises⟩ :=
      Repository.gives_resolveFragment_iff.mp (Asking.gives_on hresolve)
    obtain ⟨hmiddle, shown⟩ := truthful.of_guarded complete hroots hlisted hdigits
    obtain ⟨_, kept⟩ := hmiddle.of_guarded complete hroots hlisted hmoves
    exact ⟨reads, named, shown, reached, kept, revises⟩
  · rintro ⟨reads, named, shown, reached, kept, revises⟩
    obtain ⟨middle, hmiddle, hdigits⟩ := truthful.exists_guarded complete hroots hlisted shown
    obtain ⟨after, _, hmoves⟩ := hmiddle.exists_guarded complete hroots hlisted kept
    exact congrArg Prod.fst (Repository.gives_resolveFragment_iff.mpr
      ⟨_, _, _, _, middle, reads, named, hdigits, reached, hmoves, revises⟩)

end Complete

end VisibilityMemo

namespace Repository

theorem resolveFragment_of_read? (hread : Fragment.read? text = none) (memo : VisibilityMemo) :
    (repo.resolveFragment roots text).on memo = (.ok none, memo) := by
  unfold resolveFragment
  rw [hread]
  rfl

theorem resolveFragment_of_base_error {fault : Fault} (hread : Fragment.read? text = some fragment)
    (hbase : repo.base (String.ofList fragment.base) = .error fault) (memo : VisibilityMemo) :
    (repo.resolveFragment roots text).on memo = (.error fault, memo) := by
  unfold resolveFragment
  rw [hread]
  dsimp only
  rw [Asking.liftM_bind_on, hbase]

end Repository

namespace VisibilityMemo

variable (complete : repo.Complete) (hroots : ∀ root ∈ roots, repo.Holds root)
  (hlisted : repo.listRefs = .ok refs)
include complete hroots hlisted

theorem Truthful.resolveFragment_eq_none (truthful : memo.Truthful policy repo roots)
    (hread : Fragment.read? text = some fragment) {found : Option (ObjectId × BaseSource)}
    (hbase : repo.base (String.ofList fragment.base) = .ok found)
    (hnameless : ∀ revision, ¬ policy.Names repo refs roots text revision) :
    ((repo.resolveFragment roots text).on memo).1 = .ok none := by
  obtain ⟨answer, hanswer⟩ := complete.exists_resolveFragment hroots hread ⟨found, hbase⟩ memo
  cases answer with
  | none => exact hanswer
  | some revision =>
      exact absurd ((truthful.resolveFragment_iff complete hroots hlisted).mp hanswer) (hnameless revision)

end VisibilityMemo

end GuardedRevision
