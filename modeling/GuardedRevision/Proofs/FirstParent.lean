import GuardedRevision.Proofs.Naming
import GuardedRevision.Proofs.WrittenForms

/-!
# A commit against its first parent

A comparison with the first parent is the range from the parent to the commit. The one takes the parent as
it is, and the other looks at it with the commit for a root, which reaches it.
-/

namespace GuardedRevision.Repository

open VisibilityMemo (truthful_empty)

variable {policy : BrowsePolicy} {repo : Repository} {refs : List RefEntry} {roots : List ObjectId}
  {memo before middle : VisibilityMemo} {text old new path : List Char} {revision : Revision}

/-- Once its new side is resolved, a range is what its old side makes of it. -/
theorem resolveRange_of_gives (hne : old ≠ [])
    (hnew : Gives (repo.resolveWithPath new) before (some (revision, path)) middle) {found : Option Revision}
    (hold : ((repo.resolveFragment [revision.peeledId] old).on middle).1 = .ok found) :
    ((repo.resolveRange old new).on before).1 =
      .ok (found.map fun side => ⟨revision, some side, String.ofList path⟩) := by
  have hnonempty : (old.isEmpty || new.isEmpty) = false := by
    cases new with
    | nil => cases (gives_pure.mp hnew).1
    | cons => simpa using hne
  have hgives : Gives (repo.resolveRange old new) before
      (found.map fun side => ⟨revision, some side, String.ofList path⟩)
      ((repo.resolveFragment [revision.peeledId] old).on middle).2 := by
    rw [resolveRange, if_neg (by simp [hnonempty])]
    refine gives_bind.mpr ⟨_, _, hnew, gives_bind.mpr ⟨found, _, Asking.gives_on hold, ?_⟩⟩
    cases found with
    | none => exact gives_pure.mpr ⟨rfl, rfl⟩
    | some side => exact gives_pure.mpr ⟨rfl, rfl⟩
  exact congrArg Prod.fst hgives

theorem Complete.resolveFragment_parent (complete : repo.Complete) (hlisted : repo.listRefs = .ok refs)
    (truthful : memo.Truthful policy repo []) (names : policy.Names repo refs [] text revision)
    (hcommit : repo.isCommit revision.peeledId = true) :
    ((repo.resolveFragment [revision.peeledId] (text ++ ['^'])).on memo).1 =
      .ok ((repo.parentsOf revision.peeledId).head?.map (.ofCommit (String.ofList (text ++ ['^'])))) := by
  have hroots : ∀ root ∈ [revision.peeledId], repo.Holds root := by
    simpa using holds_of_isCommit hcommit
  have hrooted : memo.Truthful policy repo [revision.peeledId] :=
    ⟨truthful.honest, truthful.justified.mono (List.nil_subset _)⟩
  have hnames : policy.Names repo refs [revision.peeledId] text revision := names.mono (List.nil_subset _)
  have hparent := fun side => hnames.parent_iff complete hcommit side
  cases hhead : (repo.parentsOf revision.peeledId).head? with
  | some parent =>
      have hlink : parent ∈ repo.parentsOf revision.peeledId := List.mem_of_head? hhead
      -- The commit is a root of the request, so its parent is reached from a root.
      have exposes : policy.Exposes repo refs [revision.peeledId] parent :=
        .root (List.mem_singleton_self _) (.parent hlink (.refl (complete.parents hlink)))
      exact (hrooted.resolveFragment_iff complete hroots hlisted).mpr
        ((hparent _).mpr ⟨parent, hhead, exposes, rfl⟩)
  | none =>
      obtain ⟨reads, named, _⟩ := names
      refine hrooted.resolveFragment_eq_none complete hroots hlisted
        (Fragment.read?_step reads Step.writtenAs_caret) named fun side hside => ?_
      obtain ⟨parent, hsome, _⟩ := (hparent side).mp hside
      cases hhead.symm.trans hsome

/-- `A^!` and `A^..A`, for any `A` that names what peels to a commit. Without a parent the first still
resolves, with no old side. -/
theorem Complete.resolve_againstParent (complete : repo.Complete) (policy : BrowsePolicy) (capacity : Nat)
    {name : String} {revision : Revision} (halone : repo.alone policy capacity name.toList = .ok (some revision))
    (hcommit : repo.isCommit revision.peeledId = true) :
    let parent := (repo.parentsOf revision.peeledId).head?.map (.ofCommit (name ++ "^"))
    ((repo.resolve (name ++ "^!")).on (.empty policy capacity)).1 = .ok (some ⟨revision, parent, ""⟩) ∧
      ((repo.resolve (name ++ "^.." ++ name)).on (.empty policy capacity)).1 =
        .ok (parent.map fun side => ⟨revision, some side, ""⟩) := by
  intro parent
  obtain ⟨refs, hlisted⟩ := complete.exists_listRefs
  have hfresh : (VisibilityMemo.empty policy capacity).Truthful policy repo [] := truthful_empty
  have names := (hfresh.resolveFragment_iff complete (List.forall_mem_nil _) hlisted).mp halone
  have hafter := (complete.resolveFragment_alone capacity hfresh name.toList).2
  have hgives := Asking.gives_on halone
  obtain ⟨hname, hfragment⟩ := resolveFragment_names hgives
  rw [hname] at hfragment
  have hparent : String.ofList (name.toList ++ ['^']) = name ++ "^" := by simp
  constructor
  · have hread : Expression.read? (name ++ "^!").toList = some (.againstParent name.toList []) := by
      simpa using hfragment.read?_againstParent
    have hresolves := gives_resolveExpression_iff.mpr (.againstParent hgives hcommit (.inl rfl))
    rw [hparent] at hresolves
    rw [resolve_of_read? hread]
    exact congrArg Prod.fst hresolves
  · have hread : Expression.read? (name ++ "^.." ++ name).toList =
        some (.range (name.toList ++ ['^']) name.toList) := by
      simpa using hfragment.read?_range name.toList
    have hold := complete.resolveFragment_parent hlisted hafter names hcommit
    rw [hparent] at hold
    rw [resolve_of_read? hread]
    exact resolveRange_of_gives (by simp) (resolveWithPath_of_gives hgives) hold

/-- The tip of an excluded namespace, with a parent that is not shown by itself. -/
theorem resolve_againstParent_underReview :
    underReview.Complete ∧
    underReview.alone ⟨["refs/changes/"]⟩ 4 "refs/changes/1".toList =
      .ok (some (.ofCommit "refs/changes/1" secondChange)) ∧
    underReview.isCommit secondChange = true ∧
    underReview.alone ⟨["refs/changes/"]⟩ 4 "refs/changes/1^".toList = .ok none ∧
    let parent := (underReview.parentsOf secondChange).head?.map (.ofCommit ("refs/changes/1" ++ "^"))
    parent = some (.ofCommit "refs/changes/1^" firstChange) ∧
    ((underReview.resolve ("refs/changes/1" ++ "^!")).on (.empty ⟨["refs/changes/"]⟩ 4)).1 =
      .ok (some ⟨.ofCommit "refs/changes/1" secondChange, parent, ""⟩) ∧
    ((underReview.resolve ("refs/changes/1" ++ "^.." ++ "refs/changes/1")).on
        (.empty ⟨["refs/changes/"]⟩ 4)).1 =
      .ok (parent.map fun side => ⟨.ofCommit "refs/changes/1" secondChange, some side, ""⟩) := by
  have halone : underReview.alone ⟨["refs/changes/"]⟩ 4 "refs/changes/1".toList =
      .ok (some (.ofCommit "refs/changes/1" secondChange)) := by decide +kernel
  have hcommit : underReview.isCommit secondChange = true := by decide +kernel
  exact ⟨underReview_complete, halone, hcommit, by decide +kernel, by decide +kernel,
    underReview_complete.resolve_againstParent ⟨["refs/changes/"]⟩ 4 halone hcommit⟩

end GuardedRevision.Repository
