import GuardedRevision.Proofs.Naming
import GuardedRevision.Proofs.WrittenForms

/-!
# Resolving the names of a resolution

The sides of a resolution have names, and a name resolves to the same revision again. What was looked at
to resolve it is remembered as visible, so nothing has to be known of the repository, nor of what the memo
remembered before. The one name that was not looked at is that of a parent which a commit is compared
with: this parent is shown through the commit, and by itself only where it is exposed.
-/

namespace GuardedRevision

open VisibilityMemo (visible_subset_check check_asks)

variable {policy : BrowsePolicy} {capacity : Nat} {repo : Repository} {roots : List ObjectId} {id : ObjectId}
  {memo before after later : VisibilityMemo} {text : List Char} {revision : Revision} {resolution : Resolution}

namespace Repository

/-! ### What was looked at before -/

theorem visible_of_guarded {condition : Prop} [Decidable condition]
    (hasked : if condition then Gives (repo.isVisible id roots) before true after else after = before) :
    before.visible ⊆ after.visible ∧ (condition → (repo.scope, id) ∈ after.visible) := by
  rcases guarded_iff.mp hasked with ⟨_, hshown, rfl⟩ | ⟨hfree, rfl⟩
  · exact ⟨visible_subset_check _ _ _, fun _ => ((check_asks _ _ _).visible _).mpr (.inr ⟨hshown, rfl⟩)⟩
  · exact ⟨List.Subset.refl _, fun holds => absurd holds hfree⟩

theorem exists_guarded {condition : Prop} [Decidable condition] (roots : List ObjectId)
    (hmem : condition → (repo.scope, id) ∈ memo.visible) : ∃ after, memo.visible ⊆ after.visible ∧
      if condition then Gives (repo.isVisible id roots) memo true after else after = memo := by
  by_cases hcondition : condition
  · have hshown := (check_asks memo repo ⟨id, roots⟩).shown (hmem hcondition)
    exact ⟨_, visible_subset_check memo repo ⟨id, roots⟩, guarded_iff.mpr (.inl ⟨hcondition, hshown, rfl⟩)⟩
  · exact ⟨memo, List.Subset.refl _, guarded_iff.mpr (.inr ⟨hcondition, rfl⟩)⟩

theorem resolveFragment_again (hresolve : Gives (repo.resolveFragment roots text) before (some revision) after)
    (hlater : after.visible ⊆ later.visible) (others : List ObjectId) :
    ∃ ended, Gives (repo.resolveFragment others text) later (some revision) ended := by
  obtain ⟨fragment, base, source, id, middle, hread, hbase, hdigits, hreached, hmoves, hrevision⟩ :=
    gives_resolveFragment_iff.mp hresolve
  obtain ⟨_, hbaseShown⟩ := visible_of_guarded hdigits
  obtain ⟨hkept, hidShown⟩ := visible_of_guarded hmoves
  obtain ⟨next, hmore, hdigits⟩ := exists_guarded others fun hsource => hlater (hkept (hbaseShown hsource))
  obtain ⟨ended, _, hmoves⟩ := exists_guarded others fun hmove => hmore (hlater (hidShown hmove))
  exact ⟨ended, gives_resolveFragment_iff.mpr
    ⟨fragment, base, source, id, next, hread, hbase, hdigits, hreached, hmoves, hrevision⟩⟩

theorem resolve_of_gives {name : String}
    (hresolve : Gives (repo.resolveFragment [] name.toList) before (some revision) after) :
    ((repo.resolve name).on before).1 = .ok (some ⟨revision, none, ""⟩) := by
  obtain ⟨hname, hnames⟩ := resolveFragment_names hresolve
  have hread : Expression.read? name.toList = some (.single name.toList) := (hname ▸ hnames).read?_single
  have hgives := gives_resolveExpression_iff.mpr (.single (resolveWithPath_of_gives hresolve))
  rw [resolve_of_read? hread]
  exact congrArg Prod.fst hgives

theorem resolve_name_again
    (hresolve : Gives (repo.resolveFragment roots text) before (some revision) after)
    (hlater : after.visible ⊆ later.visible) :
    ((repo.resolve revision.name).on later).1 = .ok (some ⟨revision, none, ""⟩) := by
  obtain ⟨hname, _⟩ := resolveFragment_names hresolve
  obtain ⟨ended, hagain⟩ := resolveFragment_again hresolve hlater []
  exact resolve_of_gives (hname ▸ hagain)

theorem resolves_of_resolve {text : String} (hresolve : ((repo.resolve text).on memo).1 = .ok (some resolution)) :
    ∃ expression, Expression.read? text.toList = some expression ∧
      repo.Resolves memo ((repo.resolve text).on memo).2 expression resolution := by
  have hgives := Asking.gives_on hresolve
  generalize ((repo.resolve text).on memo).2 = after at hgives ⊢
  unfold resolve at hgives
  split at hgives
  · cases (gives_pure.mp hgives).1
  · next expression hread => exact ⟨expression, hread, gives_resolveExpression_iff.mp hgives⟩

theorem visible_subset_of_gives {found : Option Revision}
    (hresolve : Gives (repo.resolveFragment roots text) before found after) :
    before.visible ⊆ after.visible := by
  intro pair hmem
  have hcheck : ∀ (other : VisibilityMemo) target, pair ∈ other.visible →
      pair ∈ (other.check repo ⟨target, roots⟩).2.visible :=
    fun other target hother => visible_subset_check other repo ⟨target, roots⟩ hother
  have hkept := resolveFragment_keeps hcheck text hmem
  rwa [Asking.on_eq hresolve] at hkept

/-- The new side was resolved as a fragment, and what was shown then is still remembered. -/
theorem Resolves.exists_newSide {expression : Expression}
    (resolves : repo.Resolves before after expression resolution) : ∃ text middle next,
      Gives (repo.resolveFragment [] text) middle (some resolution.revision) next ∧
        next.visible ⊆ after.visible := by
  cases resolves with
  | range resolves resolvesOld =>
      obtain ⟨front, middle, _, hfragment⟩ := resolveFirst_gives resolves
      exact ⟨front, middle, _, hfragment, visible_subset_of_gives resolvesOld⟩
  | againstParent resolves stored opens => exact ⟨_, _, _, resolves, List.Subset.refl _⟩
  | single resolves =>
      obtain ⟨front, middle, _, hfragment⟩ := resolveFirst_gives resolves
      exact ⟨front, middle, _, hfragment, List.Subset.refl _⟩

/-! ### The new side -/

/-- The new side of any resolution resolves by its name to the same revision, alone and without a path,
also after more requests. -/
theorem resolve_revision_again {text : String}
    (hresolve : ((repo.resolve text).on memo).1 = .ok (some resolution)) (requests : List Request) :
    ((repo.resolve resolution.revision.name).on
        (Request.serveAll repo requests ((repo.resolve text).on memo).2)).1 =
      .ok (some ⟨resolution.revision, none, ""⟩) := by
  obtain ⟨expression, _, hresolves⟩ := resolves_of_resolve hresolve
  obtain ⟨front, middle, next, hfragment, hkept⟩ := hresolves.exists_newSide
  exact resolve_name_again hfragment (List.Subset.trans hkept (Request.visible_subset_serveAll requests _))

theorem resolve_revision_again_underReview :
    let memo := Request.serveAll underReview [.look ⟨firstChange, []⟩, .resolve "1111"]
      (.empty ⟨["refs/changes/"]⟩ 4)
    let text := "/1111..refs/changes/1/a..b^!:c"
    ((underReview.resolve text).on memo).1 =
      .ok (some ⟨.ofCommit "refs/changes/1" secondChange, some (.ofCommit "1111" firstChange), "/a..b^!:c"⟩) ∧
    ((underReview.resolve "refs/changes/1").on (Request.serveAll underReview
        [.resolve "2222^", .look ⟨firstChange, []⟩] ((underReview.resolve text).on memo).2)).1 =
      .ok (some ⟨.ofCommit "refs/changes/1" secondChange, none, ""⟩) := by
  intro memo text
  have hresolve : ((underReview.resolve text).on memo).1 = .ok (some ⟨.ofCommit "refs/changes/1" secondChange,
      some (.ofCommit "1111" firstChange), "/a..b^!:c"⟩) := by
    decide +kernel
  exact ⟨hresolve, resolve_revision_again hresolve _⟩

/-! ### The old side -/

theorem Complete.resolve_name_iff (complete : repo.Complete) {refs : List RefEntry}
    (hlisted : repo.listRefs = .ok refs) (truthful : memo.Truthful policy repo []) {name : String}
    (hname : IsFragment name.toList) :
    ((repo.resolve name).on memo).1 = .ok (some ⟨revision, none, ""⟩) ↔
      policy.Names repo refs [] name.toList revision := by
  have hroots : ∀ root ∈ ([] : List ObjectId), repo.Holds root := List.forall_mem_nil _
  constructor
  · intro hresolve
    obtain ⟨expression, hread, hresolves⟩ := resolves_of_resolve hresolve
    obtain rfl := Option.some.inj (hname.read?_single.symm.trans hread)
    generalize hsame : (⟨revision, none, ""⟩ : Resolution) = resolution at hresolves
    cases hresolves with
    | @single _ path found resolves =>
        obtain ⟨rfl, _, hpath⟩ := Resolution.mk.inj hsame
        have hempty : path = [] := by simpa using congrArg String.toList hpath
        subst hempty
        have settles := complete.resolveWithPath_settles 0 truthful name.toList
        rw [Asking.on_eq resolves] at settles
        obtain ⟨front, tried, halone⟩ := settles_some_iff.mp settles
        have hwhole : front = name.toList := by simpa using tried.cut.whole
        exact (VisibilityMemo.truthful_empty.resolveFragment_iff complete hroots hlisted).mp (hwhole ▸ halone)
  · intro names
    have hanswer := (truthful.resolveFragment_iff complete hroots hlisted).mpr names
    exact resolve_of_gives (Asking.gives_on hanswer)

/-- The old side resolves by its name to the same revision, alone and without a path. A parent that a
commit is compared with does so only where it is exposed. -/
theorem Complete.resolve_old_again_iff (complete : repo.Complete) {text : String} {old : Revision}
    (hresolve : ((repo.resolve text).on (.empty policy capacity)).1 = .ok (some resolution))
    (hold : resolution.old = some old) :
    ∃ expression refs, Expression.read? text.toList = some expression ∧ repo.listRefs = .ok refs ∧
      (((repo.resolve old.name).on ((repo.resolve text).on (.empty policy capacity)).2).1 =
          .ok (some ⟨old, none, ""⟩) ↔
        (expression.form = .againstParent → policy.Exposes repo refs [] old.id)) := by
  obtain ⟨refs, hlisted⟩ := complete.exists_listRefs
  obtain ⟨expression, hread, hresolves⟩ := resolves_of_resolve hresolve
  refine ⟨expression, refs, hread, hlisted, ?_⟩
  generalize ((repo.resolve text).on (.empty policy capacity)).2 = after at hresolves ⊢
  cases hresolves with
  | range resolves resolvesOld =>
      obtain rfl := Option.some.inj hold
      exact iff_of_true (resolve_name_again resolvesOld (List.Subset.refl _)) (fun hform => by cases hform)
  | @againstParent name rest revision resolves stored opens =>
      obtain ⟨parent, hparent, rfl⟩ := Option.map_eq_some_iff.mp hold
      -- Nothing was asked about the parent, so what is remembered is right without roots.
      have hfresh : (VisibilityMemo.empty policy capacity).Truthful policy repo [] := VisibilityMemo.truthful_empty
      have hafter : after.Truthful policy repo [] := by
        have halone := (complete.resolveFragment_alone capacity hfresh name).2
        rwa [Asking.on_eq resolves] at halone
      have names := (hfresh.resolveFragment_iff complete (List.forall_mem_nil _) hlisted).mp
        (congrArg Prod.fst resolves)
      obtain ⟨hname, hfragment⟩ := resolveFragment_names resolves
      have hparentName : IsFragment (String.ofList (name ++ ['^'])).toList := by
        rw [String.toList_ofList, ← hname]
        exact hfragment.parent
      calc ((repo.resolve (String.ofList (name ++ ['^']))).on after).1 =
            .ok (some ⟨.ofCommit (String.ofList (name ++ ['^'])) parent, none, ""⟩)
          ↔ policy.Names repo refs [] (name ++ ['^']) (.ofCommit (String.ofList (name ++ ['^'])) parent) := by
            rw [complete.resolve_name_iff hlisted hafter hparentName, String.toList_ofList]
        _ ↔ policy.Exposes repo refs [] parent := by
            rw [names.parent_iff complete stored _]
            simp [hparent, Revision.ofCommit]
        _ ↔ _ := by simp [Expression.form, Revision.ofCommit]
  | single resolves => cases hold

theorem resolve_old_again_underReview :
    underReview.Complete ∧
    ((underReview.resolve "refs/changes/1^!").on (.empty ⟨[]⟩ 4)).1 =
      .ok (some ⟨.ofCommit "refs/changes/1" secondChange, some (.ofCommit "refs/changes/1^" firstChange), ""⟩) ∧
    ∃ expression refs, Expression.read? "refs/changes/1^!".toList = some expression ∧
      underReview.listRefs = .ok refs ∧
      (((underReview.resolve "refs/changes/1^").on
            ((underReview.resolve "refs/changes/1^!").on (.empty ⟨[]⟩ 4)).2).1 =
          .ok (some ⟨.ofCommit "refs/changes/1^" firstChange, none, ""⟩) ↔
        (expression.form = .againstParent →
          BrowsePolicy.Exposes ⟨[]⟩ underReview refs [] firstChange)) := by
  have hresolve : ((underReview.resolve "refs/changes/1^!").on (.empty ⟨[]⟩ 4)).1 =
      .ok (some ⟨.ofCommit "refs/changes/1" secondChange, some (.ofCommit "refs/changes/1^" firstChange), ""⟩) := by
    decide +kernel
  exact ⟨underReview_complete, hresolve, underReview_complete.resolve_old_again_iff hresolve rfl⟩

/-- A tip of an excluded namespace is compared with its parent, whose name then resolves to nothing. -/
theorem resolve_old_hidden_underReview :
    underReview.Complete ∧
    ((underReview.resolve "refs/changes/1^!").on (.empty ⟨["refs/changes/"]⟩ 4)).1 =
      .ok (some ⟨.ofCommit "refs/changes/1" secondChange, some (.ofCommit "refs/changes/1^" firstChange), ""⟩) ∧
    ((underReview.resolve "refs/changes/1^").on
        ((underReview.resolve "refs/changes/1^!").on (.empty ⟨["refs/changes/"]⟩ 4)).2).1 = .ok none :=
  ⟨underReview_complete, by decide +kernel, by decide +kernel⟩

end Repository

end GuardedRevision
