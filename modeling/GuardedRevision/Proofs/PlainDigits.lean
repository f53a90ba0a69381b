import GuardedRevision.Command.Run
import GuardedRevision.Proofs.Abbreviations
import GuardedRevision.Proofs.FirstParent
import GuardedRevision.Proofs.ResolvedAgain

/-!
# Plain digits

Digits that are the name of no tag and no branch are resolved to the object that they name exactly when
that object is shown to who asks for its visibility. In a range, the old side may instead be an ancestor of
what the new side peels to.
-/

namespace GuardedRevision

open VisibilityMemo (truthful_empty)

variable {policy : BrowsePolicy} {capacity : Nat} {repo : Repository} {refs : List RefEntry}
  {roots : List ObjectId} {id root : ObjectId} {memo before after : VisibilityMemo} {text old new : String}
  {path : List Char} {revision : Revision} {resolution : Resolution}

/-! ### Digits as names -/

theorem ObjectId.isFragment_of_isHashLike (hlike : isHashLike text = true) : IsFragment text.toList :=
  .of_read? (Fragment.read?_of_isHashLike hlike)

/-- Digits are the short name of a tag or a branch, and no full name. -/
theorem Repository.refNamesOf_of_isHashLike (hlike : ObjectId.isHashLike text = true) :
    refNamesOf text = [RefName.tags ++ text, RefName.heads ++ text] := by
  have hslash : '/' ∉ text.toList := ObjectId.not_mem_of_isHashLike hlike (by decide)
  have hfull : RefName.isUnder "refs/" text = false := by
    unfold RefName.isUnder
    rw [Bool.eq_false_iff, ne_eq, List.isPrefixOf_iff_prefix]
    exact fun hlead => hslash (hlead.subset (by decide))
  have hhead : (text == "HEAD") = false := by
    rw [beq_eq_false_iff_ne]
    rintro rfl
    exact absurd hlike (by decide)
  unfold refNamesOf
  rw [hfull, hhead]
  rfl

/-- Hash-like digits that are the name of no tag and no branch. -/
structure Repository.NoRef (repo : Repository) (text : String) : Prop where
  like : ObjectId.isHashLike text = true
  tag : repo.findRef (RefName.tags ++ text) = .ok none
  branch : repo.findRef (RefName.heads ++ text) = .ok none

namespace Repository

theorem noRef_of_lookup (hlike : ObjectId.isHashLike text = true)
    (htag : repo.refs.lookup (RefName.tags ++ text) = none)
    (hbranch : repo.refs.lookup (RefName.heads ++ text) = none) : repo.NoRef text := by
  have hslash : '/' ∉ text.toList := ObjectId.not_mem_of_isHashLike hlike (by decide)
  have hnul : '\x00' ∉ text.toList := ObjectId.not_mem_of_isHashLike hlike (by decide)
  have hnil : [] ∉ text.toList.splitOn '/' := by
    rw [List.splitOn_eq_singleton hslash, List.mem_singleton]
    exact (ObjectId.toList_ne_nil_of_isHashLike hlike).symm
  have hsize : text.utf8ByteSize ≤ ObjectId.longDigits := by
    simp only [ObjectId.isHashLike, Bool.and_eq_true, decide_eq_true_eq] at hlike
    exact hlike.1.2
  have hfind : ∀ name ∈ refNamesOf text, repo.refs.lookup name = none → repo.findRef name = .ok none := by
    intro name hmem hlookup
    obtain ⟨hcomponents, hplace⟩ := of_mem_refNamesOf hnil hmem
    have hshort : name.utf8ByteSize ≤ maxNameBytes := by
      rw [refNamesOf_of_isHashLike hlike] at hmem
      have htags : RefName.tags.utf8ByteSize = 10 := by decide
      have hheads : RefName.heads.utf8ByteSize = 11 := by decide
      have hlong : ObjectId.longDigits = 64 := rfl
      have hmost : maxNameBytes = 1023 := rfl
      rcases List.mem_pair.mp hmem with rfl | rfl
      · rw [String.utf8ByteSize_append]
        omega
      · rw [String.utf8ByteSize_append]
        omega
    rcases @refValue_cases repo name hcomponents hplace (notMem_of_mem_refNamesOf hnul hmem) hshort with
      hnone | ⟨value, _, hfound⟩
    · rw [findRef, hnone]
      rfl
    · rw [hlookup] at hfound
      cases hfound
  rw [refNamesOf_of_isHashLike hlike] at hfind
  simp only [List.forall_mem_cons] at hfind
  exact ⟨hlike, hfind.1 htag, hfind.2.1 hbranch⟩

theorem NoRef.base_eq_ok_iff {source : BaseSource} (plain : repo.NoRef text) :
    repo.base text = .ok (some (id, source)) ↔
      repo.withDigits? text = .ok (some id) ∧ source = .digits := by
  have hnone : repo.firstRef (refNamesOf text) = .ok none := by
    rw [refNamesOf_of_isHashLike plain.like, firstRef, plain.tag]
    simp only [bind, Except.bind, firstRef, plain.branch]
  unfold Repository.base
  rw [hnone]
  cases repo.withDigits? text with
  | error fault => simp [bind, Except.bind]
  | ok found =>
      cases found with
      | none => simp [bind, Except.bind, pure, Except.pure]
      | some other => simp [bind, Except.bind, pure, Except.pure, @eq_comm _ _ source]

theorem NoRef.names_iff (plain : repo.NoRef text) :
    policy.Names repo refs roots text.toList revision ↔ ∃ id, repo.withDigits? text = .ok (some id) ∧
      policy.Exposes repo refs roots id ∧ repo.revision text id = .ok revision := by
  rw [BrowsePolicy.names_iff (Fragment.read?_of_isHashLike plain.like)]
  simp only [String.ofList_toList, plain.base_eq_ok_iff, destination, List.isEmpty_nil, if_true,
    Fragment.moves, List.any_nil, Bool.false_eq_true, Except.ok.injEq, Option.some.injEq]
  constructor
  · rintro ⟨base, _, _, ⟨hdigits, rfl⟩, shown, rfl, _, revises⟩
    exact ⟨base, hdigits, shown rfl, revises⟩
  · rintro ⟨base, hdigits, shown, revises⟩
    exact ⟨base, _, base, ⟨hdigits, rfl⟩, fun _ => shown, rfl, False.elim, revises⟩

theorem gives_resolveWithPath_iff (hlike : ObjectId.isHashLike text = true) :
    Gives (repo.resolveWithPath text.toList) before (some (revision, path)) after ↔
      Gives (repo.resolveFragment [] text.toList) before (some revision) after ∧ path = [] := by
  constructor
  · intro hresolve
    rw [resolveWithPath, Expression.candidates_of_isHashLike hlike] at hresolve
    obtain ⟨found, middle, hfragment, hrest⟩ := gives_bind.mp hresolve
    cases found with
    | none => cases (gives_pure.mp hrest).1
    | some found =>
        obtain ⟨hsame, rfl⟩ := gives_pure.mp hrest
        cases hsame
        exact ⟨hfragment, rfl⟩
  · rintro ⟨hfragment, rfl⟩
    exact resolveWithPath_of_gives hfragment

/-! ### One side -/

section Complete

variable (complete : repo.Complete) (hlisted : repo.listRefs = .ok refs)
include complete hlisted

theorem NoRef.resolve_iff (plain : repo.NoRef text) (truthful : memo.Truthful policy repo []) :
    ((repo.resolve text).on memo).1 = .ok (some resolution) ↔ ∃ id revision,
      repo.withDigits? text = .ok (some id) ∧ policy.Exposes repo refs [] id ∧
        repo.revision text id = .ok revision ∧ resolution = ⟨revision, none, ""⟩ := by
  have hname : ∀ revision, ((repo.resolve text).on memo).1 = .ok (some ⟨revision, none, ""⟩) ↔
      policy.Names repo refs [] text.toList revision := fun _ =>
    complete.resolve_name_iff hlisted truthful (ObjectId.isFragment_of_isHashLike plain.like)
  constructor
  · intro hresolve
    obtain ⟨expression, hread, resolves⟩ := resolves_of_resolve hresolve
    rw [Expression.read?_of_isHashLike plain.like, Option.some.injEq] at hread
    subst hread
    cases resolves with
    | single resolves =>
        obtain ⟨_, rfl⟩ := (gives_resolveWithPath_iff plain.like).mp resolves
        obtain ⟨id, hdigits, shown, revises⟩ := plain.names_iff.mp ((hname _).mp hresolve)
        exact ⟨id, _, hdigits, shown, revises, rfl⟩
  · rintro ⟨id, revision, hdigits, shown, revises, rfl⟩
    exact (hname _).mpr (plain.names_iff.mpr ⟨id, hdigits, shown, revises⟩)

end Complete

/-! ### Two sides -/

theorem read?_range_of_isHashLike (hold : ObjectId.isHashLike old = true) (new : String) :
    Expression.read? (old ++ ".." ++ new).toList = some (.range old.toList new.toList) := by
  have hlast : old.toList.getLast? ≠ some '.' := fun hlast =>
    ObjectId.not_mem_of_isHashLike hold (by decide) (List.mem_of_getLast? hlast)
  simpa using (ObjectId.isFragment_of_isHashLike hold).read?_range_of_undotted hlast new.toList

theorem exposes_singleton_iff : policy.Exposes repo refs [root] id ↔
    policy.Exposes repo refs [] id ∨ repo.Reaches root id := by
  constructor
  · intro exposes
    cases exposes with
    | tip listed marks => exact .inl (.tip listed marks)
    | root held path => exact .inr (List.mem_singleton.mp held ▸ path)
    | ref listed browsable peels path => exact .inl (.ref listed browsable peels path)
  · rintro (exposes | path)
    · exact exposes.mono (List.nil_subset _)
    · exact .root (List.mem_singleton_self _) path

section Complete

variable (complete : repo.Complete) (hlisted : repo.listRefs = .ok refs)
include complete hlisted

theorem NoRef.resolve_range_iff (plainOld : repo.NoRef old) (plainNew : repo.NoRef new)
    (truthful : memo.Truthful policy repo []) :
    ((repo.resolve (old ++ ".." ++ new)).on memo).1 = .ok (some resolution) ↔ ∃ revision side,
      policy.Names repo refs [] new.toList revision ∧
        policy.Names repo refs [revision.peeledId] old.toList side ∧
        resolution = ⟨revision, some side, ""⟩ := by
  have hread := read?_range_of_isHashLike plainOld.like new
  have hafter := (complete.resolveFragment_alone 0 truthful new.toList).2
  have hnew : ∀ revision, ((repo.resolveFragment [] new.toList).on memo).1 = .ok (some revision) ↔
      policy.Names repo refs [] new.toList revision := fun _ =>
    truthful.resolveFragment_iff complete (List.forall_mem_nil _) hlisted
  -- The memo that the old side is asked on may be taken for one of a request with any roots.
  have hold : ∀ revision : Revision, repo.PeelsTo revision.id revision.peeledId → ∀ side,
      ((repo.resolveFragment [revision.peeledId] old.toList).on
          ((repo.resolveFragment [] new.toList).on memo).2).1 = .ok (some side) ↔
        policy.Names repo refs [revision.peeledId] old.toList side := fun revision peels side =>
    have hrooted : ((repo.resolveFragment [] new.toList).on memo).2.Truthful policy repo
        [revision.peeledId] := ⟨hafter.honest, hafter.justified.mono (List.nil_subset _)⟩
    hrooted.resolveFragment_iff complete (List.forall_mem_singleton.mpr peels.holds_right) hlisted
  constructor
  · intro hresolve
    obtain ⟨expression, hread', resolves⟩ := resolves_of_resolve hresolve
    obtain rfl := Option.some.inj (hread.symm.trans hread')
    cases resolves with
    | @range _ _ _ revision side middle resolves resolvesOld =>
        obtain ⟨hfragment, rfl⟩ := (gives_resolveWithPath_iff plainNew.like).mp resolves
        have hsame := congrArg Prod.fst hfragment
        obtain rfl : middle = ((repo.resolveFragment [] new.toList).on memo).2 :=
          (congrArg Prod.snd hfragment).symm
        exact ⟨revision, side, (hnew revision).mp hsame,
          (hold revision (resolveFragment_peels hfragment) side).mp (congrArg Prod.fst resolvesOld), rfl⟩
  · rintro ⟨revision, side, namesNew, namesOld, rfl⟩
    have hgives := Asking.gives_on ((hnew revision).mpr namesNew)
    rw [resolve_of_read? hread, resolveExpression]
    exact resolveRange_of_gives (ObjectId.toList_ne_nil_of_isHashLike plainOld.like)
      (resolveWithPath_of_gives hgives) ((hold revision (resolveFragment_peels hgives) side).mpr namesOld)

end Complete

end Repository

/-! ### What is shown -/

/-- Whether a memo that remembers nothing shows an object to a request without roots. -/
def BrowsePolicy.Shows (policy : BrowsePolicy) (capacity : Nat) (repo : Repository) (id : ObjectId) : Prop :=
  ((VisibilityMemo.empty policy capacity).check repo ⟨id, []⟩).1 = .ok true

namespace Repository

section Complete

variable (complete : repo.Complete)
include complete

theorem Complete.shows_iff (hlisted : repo.listRefs = .ok refs) :
    policy.Shows capacity repo id ↔ policy.Exposes repo refs [] id :=
  truthful_empty.check_eq_true_iff complete (List.forall_mem_nil _) hlisted id

theorem NoRef.exists_resolve_iff (plain : repo.NoRef text) :
    (∃ resolution, ((repo.resolve text).on (.empty policy capacity)).1 = .ok (some resolution)) ↔
      ∃ id, repo.withDigits? text = .ok (some id) ∧ policy.Shows capacity repo id := by
  obtain ⟨refs, hlisted⟩ := complete.exists_listRefs
  simp only [plain.resolve_iff complete hlisted truthful_empty, complete.shows_iff hlisted]
  constructor
  · rintro ⟨_, id, _, hdigits, shown, _, _⟩
    exact ⟨id, hdigits, shown⟩
  · rintro ⟨id, hdigits, shown⟩
    obtain ⟨revision, revises⟩ := complete.exists_revision text (holds_of_withDigits? hdigits)
    exact ⟨_, id, revision, hdigits, shown, revises, rfl⟩

theorem NoRef.exists_resolve_range_iff {a b : ObjectId} (plainOld : repo.NoRef old)
    (plainNew : repo.NoRef new) (hold : repo.withDigits? old = .ok (some a))
    (hnew : repo.withDigits? new = .ok (some b)) :
    (∃ resolution, ((repo.resolve (old ++ ".." ++ new)).on (.empty policy capacity)).1 =
        .ok (some resolution)) ↔
      policy.Shows capacity repo b ∧
        (policy.Shows capacity repo a ∨ ∃ last, repo.PeelsTo b last ∧ repo.Reaches last a) := by
  obtain ⟨refs, hlisted⟩ := complete.exists_listRefs
  simp only [plainOld.resolve_range_iff complete hlisted plainNew truthful_empty, plainNew.names_iff,
    plainOld.names_iff, complete.shows_iff hlisted, hold, hnew, Except.ok.injEq, Option.some.injEq]
  constructor
  · rintro ⟨_, revision, _, ⟨_, rfl, shownNew, revises⟩, ⟨_, rfl, shownOld, _⟩, _⟩
    obtain ⟨rfl, peels⟩ := of_revision revises
    refine ⟨shownNew, (exposes_singleton_iff.mp shownOld).imp_right fun path => ⟨_, peels, path⟩⟩
  · rintro ⟨shownNew, hshown⟩
    obtain ⟨revision, revises⟩ := complete.exists_revision new (holds_of_withDigits? hnew)
    obtain ⟨side, revisesOld⟩ := complete.exists_revision old (holds_of_withDigits? hold)
    obtain ⟨rfl, peels⟩ := of_revision revises
    have shownOld : policy.Exposes repo refs [revision.peeledId] a :=
      exposes_singleton_iff.mpr (hshown.imp_right fun ⟨last, peels', path⟩ => peels'.unique peels ▸ path)
    exact ⟨_, revision, side, ⟨_, rfl, shownNew, revises⟩, ⟨_, rfl, shownOld, revisesOld⟩, rfl⟩

/-- Digits that are no name of a ref resolve where they name an object that is shown, to that object alone.
Two of them with dots between resolve where the new object is shown, and the old one is shown as well or is
reached from what the new one peels to. -/
theorem Complete.resolve_digits (policy : BrowsePolicy) (capacity : Nat) :
    (∀ {text : String}, repo.NoRef text →
      ((∃ resolution, ((repo.resolve text).on (.empty policy capacity)).1 = .ok (some resolution)) ↔
        ∃ id, repo.withDigits? text = .ok (some id) ∧ policy.Shows capacity repo id) ∧
      ∀ resolution, ((repo.resolve text).on (.empty policy capacity)).1 = .ok (some resolution) →
        repo.withDigits? text = .ok (some resolution.revision.id) ∧
          resolution.path = "" ∧ resolution.isComparison = false) ∧
    ∀ {old new : String} {a b : ObjectId}, repo.NoRef old → repo.NoRef new →
      repo.withDigits? old = .ok (some a) → repo.withDigits? new = .ok (some b) →
      ((∃ resolution, ((repo.resolve (old ++ ".." ++ new)).on (.empty policy capacity)).1 =
          .ok (some resolution)) ↔
        policy.Shows capacity repo b ∧
          (policy.Shows capacity repo a ∨ ∃ last, repo.PeelsTo b last ∧ repo.Reaches last a)) := by
  refine ⟨fun plain => ⟨plain.exists_resolve_iff complete, fun resolution hresolve => ?_⟩,
    fun plainOld plainNew => plainOld.exists_resolve_range_iff complete plainNew⟩
  obtain ⟨refs, hlisted⟩ := complete.exists_listRefs
  obtain ⟨id, revision, hdigits, _, revises, rfl⟩ :=
    (plain.resolve_iff complete hlisted truthful_empty).mp hresolve
  rw [(of_revision revises).1]
  exact ⟨hdigits, rfl, rfl⟩

end Complete

/-- The tip of an excluded namespace is shown by its digits. Its parent is not, but it is shown together with
the tip. -/
theorem resolve_digits_underReview :
    underReview.Complete ∧ underReview.NoRef "2222" ∧ underReview.NoRef "11111" ∧
    (∃ resolution, ((underReview.resolve "2222").on (.empty ⟨["refs/changes/"]⟩ 4)).1 =
      .ok (some resolution)) ∧
    (¬ ∃ resolution, ((underReview.resolve "11111").on (.empty ⟨["refs/changes/"]⟩ 4)).1 =
      .ok (some resolution)) ∧
    ∃ resolution, ((underReview.resolve "11111..2222").on (.empty ⟨["refs/changes/"]⟩ 4)).1 =
      .ok (some resolution) := by
  have plainNew : underReview.NoRef "2222" :=
    noRef_of_lookup (by decide) (by decide +kernel) (by decide +kernel)
  have plainOld : underReview.NoRef "11111" :=
    noRef_of_lookup (by decide) (by decide +kernel) (by decide +kernel)
  have hnew : underReview.withDigits? "2222" = .ok (some secondChange) := by decide +kernel
  have hold : underReview.withDigits? "11111" = .ok (some firstChange) := by decide +kernel
  have hshown : BrowsePolicy.Shows ⟨["refs/changes/"]⟩ 4 underReview secondChange := by
    unfold BrowsePolicy.Shows
    decide +kernel
  have hhidden : ¬ BrowsePolicy.Shows ⟨["refs/changes/"]⟩ 4 underReview firstChange := by
    unfold BrowsePolicy.Shows
    decide +kernel
  have hpath : underReview.Reaches secondChange firstChange :=
    .parent (by decide +kernel : firstChange ∈ underReview.parentsOf secondChange) (.refl (by decide +kernel))
  obtain ⟨single, range⟩ := underReview_complete.resolve_digits ⟨["refs/changes/"]⟩ 4
  refine ⟨underReview_complete, plainNew, plainOld, (single plainNew).1.mpr ⟨_, hnew, hshown⟩, ?_, ?_⟩
  · rw [(single plainOld).1]
    rintro ⟨id, hdigits, shown⟩
    cases hold.symm.trans hdigits
    exact hhidden shown
  · exact (range plainOld plainNew hold hnew).mpr
      ⟨hshown, .inr ⟨_, .of_isCommit (by decide +kernel), hpath⟩⟩

end Repository

/-- The command that resolves and the command that tells visibility agree on digits. -/
theorem Session.resolve_isVisible {session : Session} (complete : session.repo.Complete)
    (plain : session.repo.NoRef text) :
    (∃ resolution, session.resolve text = .ok (some resolution)) ↔ session.isVisible text = .ok true := by
  refine (plain.exists_resolve_iff complete).trans ?_
  unfold isVisible
  cases session.repo.withDigits? text with
  | error fault => simp
  | ok found =>
      cases found with
      | none => simp
      | some id => simp [BrowsePolicy.Shows, Settings.memo]

end GuardedRevision
