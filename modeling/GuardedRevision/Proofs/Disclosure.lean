import GuardedRevision.Proofs.Asking
import GuardedRevision.Proofs.Visibility

/-!
# Disclosure

Whatever an expression resolves to may be disclosed: it is the tip of a ref, or a commit that a
browsable ref reaches. The old side of a comparison may also be what the new side reaches. This holds
in any repository, however much of it is missing.
-/

namespace GuardedRevision

def Repository.IsPlace (name : String) : Prop :=
  RefName.isUnder Repository.refFolder name = true ∨ name = "HEAD"

/-- What may be disclosed to anyone: tips of refs, and the commits that a browsable ref reaches. -/
inductive BrowsePolicy.Discloses (policy : BrowsePolicy) (repo : Repository) : ObjectId → Prop where
  | tip {name : String} {target id : ObjectId} (place : Repository.IsPlace name)
      (points : repo.Points name target) (marks : repo.Marks target id) : Discloses policy repo id
  | commit {name : RefName} {target tip id : ObjectId}
      (place : RefName.isUnder Repository.refFolder name.text = true)
      (browsable : policy.isBrowsable name = true) (points : repo.Points name.text target)
      (peels : repo.PeelsTo target tip) (path : repo.Reaches tip id) : Discloses policy repo id

/-- What may be told of the old side, by the form of the expression. -/
def BrowsePolicy.MayCompare (policy : BrowsePolicy) (repo : Repository) (new old : Revision) :
    Expression → Prop
  | .range _ _ => ∀ id, id = old.id ∨ id = old.peeledId →
      policy.Discloses repo id ∨ repo.Reaches new.peeledId id
  | .againstParent _ _ => (repo.parentsOf new.peeledId).head? = some old.id ∧ old.peeledId = old.id
  | .single _ => False

variable {policy : BrowsePolicy} {repo : Repository} {refs : List RefEntry}
  {roots more : List ObjectId} {id last target : ObjectId}

namespace Repository

theorem PeelsTo.eq_of_isCommit (hcommit : repo.isCommit id = true) (peels : repo.PeelsTo id last) :
    last = id :=
  peels.unique (.of_isCommit hcommit)

theorem Marks.peels (marks : repo.Marks target id) (peels : repo.PeelsTo id last) :
    repo.Marks target last := by
  rcases marks with rfl | hend
  · exact .inr peels
  · obtain ⟨object, hobject, hplain⟩ := hend.plain
    have hsame : last = id := peels.unique (.stop hobject hplain)
    exact .inr (hsame ▸ hend)

end Repository

namespace BrowsePolicy

theorem Discloses.peels (discloses : policy.Discloses repo id) (peels : repo.PeelsTo id last) :
    policy.Discloses repo last := by
  cases discloses with
  | tip place points marks => exact .tip place points (marks.peels peels)
  | commit place browsable points hpeels path =>
      rw [peels.eq_of_isCommit path.isCommit_right]
      exact .commit place browsable points hpeels path

theorem Exposes.mono (hroots : roots ⊆ more) (exposes : policy.Exposes repo refs roots id) :
    policy.Exposes repo refs more id := by
  cases exposes with
  | tip listed marks => exact .tip listed marks
  | root held path => exact .root (hroots held) path
  | ref listed browsable peels path => exact .ref listed browsable peels path

theorem Exposes.peels (exposes : policy.Exposes repo refs roots id) (peels : repo.PeelsTo id last) :
    policy.Exposes repo refs roots last := by
  cases exposes with
  | tip listed marks => exact .tip listed (marks.peels peels)
  | root held path =>
      rw [peels.eq_of_isCommit path.isCommit_right]
      exact .root held path
  | ref listed browsable hpeels path =>
      rw [peels.eq_of_isCommit path.isCommit_right]
      exact .ref listed browsable hpeels path

theorem Exposes.discloses (hlisted : repo.listRefs = .ok refs)
    (exposes : policy.Exposes repo refs roots id) :
    policy.Discloses repo id ∨ repo.ReachedBy roots id := by
  cases exposes with
  | tip listed marks =>
      exact .inl (.tip (.inl (Repository.isUnder_of_mem_listRefs hlisted listed))
        (Repository.points_of_mem_listRefs hlisted listed) marks)
  | root held path => exact .inr ⟨_, held, path⟩
  | ref listed browsable peels path =>
      exact .inl (.commit (Repository.isUnder_of_mem_listRefs hlisted listed) browsable
        (Repository.points_of_mem_listRefs hlisted listed) peels path)

def Admits (policy : BrowsePolicy) (repo : Repository) (roots : List ObjectId) (id : ObjectId) :
    Prop :=
  policy.Discloses repo id ∨ repo.ReachedBy roots id

theorem Admits.peels (admits : policy.Admits repo roots id) (peels : repo.PeelsTo id last) :
    policy.Admits repo roots last := by
  rcases admits with discloses | ⟨root, hroot, path⟩
  · exact .inl (discloses.peels peels)
  · rw [peels.eq_of_isCommit path.isCommit_right]
    exact .inr ⟨root, hroot, path⟩

end BrowsePolicy

/-- What the memo remembers as visible is exposed to a request with these roots. -/
structure VisibilityMemo.Justified (policy : BrowsePolicy) (repo : Repository)
    (roots : List ObjectId) (memo : VisibilityMemo) : Prop where
  samePolicy : memo.policy = policy
  visible : ∀ target, (repo.scope, target) ∈ memo.visible →
    ∃ refs, repo.listRefs = .ok refs ∧ policy.Exposes repo refs roots target

namespace VisibilityMemo

variable {memo : VisibilityMemo}

theorem Justified.mono (hroots : roots ⊆ more) (justified : memo.Justified policy repo roots) :
    memo.Justified policy repo more where
  samePolicy := justified.samePolicy
  visible := by
    intro target hmem
    obtain ⟨refs, hlisted, exposes⟩ := justified.visible target hmem
    exact ⟨refs, hlisted, exposes.mono hroots⟩

theorem Justified.exposes (justified : memo.Justified policy repo roots)
    (hshown : (memo.check repo ⟨target, roots⟩).1 = .ok true) :
    ∃ refs, repo.listRefs = .ok refs ∧ policy.Exposes repo refs roots target := by
  have hasks := check_asks memo repo ⟨target, roots⟩
  by_cases hold : (repo.scope, target) ∈ memo.visible
  · exact justified.visible target hold
  · by_cases hdenies : memo.Denies repo ⟨target, roots⟩
    · rw [hasks.denied hold hdenies] at hshown
      cases hshown
    · rw [hasks.answered hold hdenies, justified.samePolicy] at hshown
      exact BrowsePolicy.exposes_of_answer hshown

theorem Justified.check (justified : memo.Justified policy repo roots) (target : ObjectId) :
    (memo.check repo ⟨target, roots⟩).2.Justified policy repo roots := by
  have hasks := check_asks memo repo ⟨target, roots⟩
  refine ⟨hasks.policy.trans justified.samePolicy, fun other hmem => ?_⟩
  rcases (hasks.visible (repo.scope, other)).mp hmem with hold | ⟨hshown, heq⟩
  · exact justified.visible other hold
  · cases heq
    exact justified.exposes hshown

end VisibilityMemo

/-! ### Bases, steps and revisions -/

namespace Repository

theorem exists_findRef {names : List String} {entry : RefEntry}
    (hfirst : repo.firstRef names = .ok (some entry)) :
    ∃ name ∈ names, repo.findRef name = .ok (some entry) := by
  induction names with
  | nil => cases hfirst
  | cons name rest ih =>
      rw [firstRef] at hfirst
      cases hfind : repo.findRef name with
      | error fault => simp [hfind, bind, Except.bind] at hfirst
      | ok found =>
          cases found with
          | some other =>
              simp only [hfind, bind, Except.bind, pure, Except.pure, Except.ok.injEq,
                Option.some.injEq] at hfirst
              exact ⟨name, List.mem_cons_self, hfirst ▸ hfind⟩
          | none =>
              simp only [hfind, bind, Except.bind] at hfirst
              obtain ⟨name', hmem, hfound⟩ := ih hfirst
              exact ⟨name', List.mem_cons_of_mem _ hmem, hfound⟩

theorem isPlace_of_mem_refNamesOf {base name : String} (hname : name ∈ refNamesOf base) :
    IsPlace name := by
  have hunder : ∀ space : String, RefName.isUnder refFolder space = true →
      RefName.isUnder refFolder (space ++ base) = true := by
    intro space hspace
    unfold RefName.isUnder at hspace ⊢
    rw [List.isPrefixOf_iff_prefix] at hspace ⊢
    rw [String.toList_append]
    exact hspace.trans (List.prefix_append _ _)
  unfold refNamesOf at hname
  split at hname
  · next hbase =>
      rw [List.mem_singleton.mp hname]
      rcases Bool.or_eq_true_iff.mp hbase with hrefs | hhead
      · exact .inl hrefs
      · exact .inr (by simpa using hhead)
  · rcases List.mem_cons.mp hname with rfl | hrest
    · exact .inl (hunder _ (by decide +kernel))
    · rw [List.mem_singleton.mp hrest]
      exact .inl (hunder _ (by decide +kernel))

theorem IsPlace.ne_at {name : String} (place : IsPlace name) : name ≠ "@" := by
  rintro rfl
  rcases place with hunder | hhead
  · exact absurd hunder (by decide +kernel)
  · exact absurd hhead (by decide +kernel)

/-- A base that is a ref is found under one of its full names. -/
theorem exists_findRef_of_base {base : String} (hbase : repo.base base = .ok (some (id, .ref))) :
    ∃ name ∈ refNamesOf base, ∃ entry, repo.findRef name = .ok (some entry) ∧ entry.target = id := by
  unfold Repository.base at hbase
  cases hfirst : repo.firstRef (refNamesOf base) with
  | error fault => simp [hfirst, bind, Except.bind] at hbase
  | ok found =>
      cases found with
      | none =>
          cases hdigits : repo.withDigits? base with
          | error fault => simp [hfirst, hdigits, bind, Except.bind] at hbase
          | ok digits => simp [hfirst, hdigits, bind, Except.bind, pure, Except.pure] at hbase
      | some entry =>
          simp only [hfirst, bind, Except.bind, pure, Except.pure, Except.ok.injEq,
            Option.some.injEq, Prod.mk.injEq, and_true] at hbase
          obtain ⟨name, hname, hfind⟩ := exists_findRef hfirst
          exact ⟨name, hname, entry, hfind, hbase⟩

theorem discloses_of_base {base : String} (hbase : repo.base base = .ok (some (id, .ref))) :
    policy.Discloses repo id := by
  obtain ⟨name, hname, entry, hfind, htarget⟩ := exists_findRef_of_base hbase
  have place := isPlace_of_mem_refNamesOf hname
  exact .tip place (of_findRef hfind place.ne_at).1 (.inl htarget.symm)

theorem stepAll_of_not_moves {steps : List Step} (hstill : steps.any (· ≠ .ancestor 0) = false) :
    repo.stepAll steps id = .ok (some id) := by
  induction steps with
  | nil => rfl
  | cons step rest ih =>
      obtain ⟨hstep, hrest⟩ : step = .ancestor 0 ∧ rest.any (· ≠ .ancestor 0) = false := by
        simpa using hstill
      subst hstep
      exact ih hrest

theorem destination_of_not_moves {base : ObjectId} {steps : List Step}
    (hstill : steps.any (· ≠ .ancestor 0) = false)
    (hreached : repo.destination base steps = .ok (some id)) : id = base ∨ repo.PeelsTo base id := by
  unfold destination at hreached
  split at hreached
  · cases hreached
    exact .inl rfl
  · cases hpeel : repo.peelToCommit base with
    | error fault => simp [hpeel, bind, Except.bind] at hreached
    | ok found =>
        cases found with
        | none => simp [hpeel, bind, Except.bind, pure, Except.pure] at hreached
        | some start =>
            simp only [hpeel, bind, Except.bind, stepAll_of_not_moves hstill, Except.ok.injEq,
              Option.some.injEq] at hreached
            exact .inr (hreached ▸ peelToCommit_eq hpeel)

end Repository

/-! ### Fragments -/

namespace Repository

variable {before after : VisibilityMemo} {text : List Char} {revision : Revision}

theorem isVisible_related_justified (roots : List ObjectId) (id : ObjectId) :
    Asking.Related (fun left right => left = right ∧ left.Justified policy repo roots)
      (repo.isVisible id roots) :=
  isVisible_keeps (fun _ target justified => justified.check target) id

/-- The revision of a fragment may be told to whoever holds the roots. -/
theorem resolveFragment_admits (justified : before.Justified policy repo roots)
    (hresolve : Gives (repo.resolveFragment roots text) before (some revision) after) :
    policy.Admits repo roots revision.id ∧ repo.PeelsTo revision.id revision.peeledId := by
  have hadmits : ∀ {memo answered : VisibilityMemo} {id : ObjectId}, memo.Justified policy repo roots →
      Gives (repo.isVisible id roots) memo true answered → policy.Admits repo roots id := by
    intro memo answered id hmemo hvisible
    obtain ⟨refs, hlisted, exposes⟩ := hmemo.exposes (congrArg Prod.fst hvisible)
    exact exposes.discloses hlisted
  obtain ⟨fragment, base, source, id, middle, _, hbase, hdigits, hreached, hmoves, hrevision⟩ :=
    gives_resolveFragment_iff.mp hresolve
  obtain ⟨rfl, hpeels⟩ := of_revision hrevision
  refine ⟨?_, hpeels⟩
  by_cases hmove : fragment.moves = true
  · rw [if_pos hmove] at hmoves
    refine hadmits ?_ hmoves
    cases source with
    | ref => exact hdigits ▸ justified
    | digits =>
        have hmiddle : (before.check repo ⟨base, roots⟩).2 = middle := congrArg Prod.snd hdigits
        exact hmiddle ▸ justified.check base
  · have hbaseAdmits : policy.Admits repo roots base := by
      cases source with
      | ref => exact .inl (discloses_of_base hbase)
      | digits => exact hadmits justified hdigits
    rcases destination_of_not_moves (by simpa [Fragment.moves] using hmove) hreached with hsame | hpeeled
    · rwa [hsame]
    · exact hbaseAdmits.peels hpeeled

theorem resolveFragment_justified {found : Option Revision}
    (justified : before.Justified policy repo roots)
    (hresolve : Gives (repo.resolveFragment roots text) before found after) :
    after.Justified policy repo roots := by
  have hafter := resolveFragment_keeps (fun _ target justified => justified.check target) text justified
  rwa [Asking.on_eq hresolve] at hafter

/-! ### Expressions -/

theorem admits_nil : policy.Admits repo [] id ↔ policy.Discloses repo id := by
  unfold BrowsePolicy.Admits
  exact or_iff_left not_reachedBy_nil

theorem resolveFirst_discloses {candidates : List (List Char × List Char)} {path : List Char}
    (justified : before.Justified policy repo [])
    (hresolve : Gives (repo.resolveFirst candidates) before (some (revision, path)) after) :
    policy.Discloses repo revision.id ∧ repo.PeelsTo revision.id revision.peeledId ∧
      after.Justified policy repo [] := by
  induction candidates generalizing before with
  | nil => cases (gives_pure.mp hresolve).1
  | cons candidate shorter ih =>
      obtain ⟨found, middle, hfragment, hrest⟩ := gives_bind.mp hresolve
      have hmiddle := resolveFragment_justified justified hfragment
      cases found with
      | none => exact ih hmiddle hrest
      | some found =>
          obtain ⟨hsame, rfl⟩ := gives_pure.mp hrest
          cases hsame
          obtain ⟨hadmits, hpeels⟩ := resolveFragment_admits justified hfragment
          exact ⟨admits_nil.mp hadmits, hpeels, hmiddle⟩

theorem resolveExpression_discloses {expression : Expression} {resolution : Resolution}
    (justified : before.Justified policy repo [])
    (hresolve : Gives (repo.resolveExpression expression) before (some resolution) after) :
    policy.Discloses repo resolution.revision.id ∧
      repo.PeelsTo resolution.revision.id resolution.revision.peeledId ∧
      ∀ old, resolution.old = some old → policy.MayCompare repo resolution.revision old expression := by
  cases gives_resolveExpression_iff.mp hresolve with
  | @range old new path revision side middle resolves resolvesOld =>
      obtain ⟨hdiscloses, hpeels, hmiddle⟩ := resolveFirst_discloses justified resolves
      refine ⟨hdiscloses, hpeels, fun other hother => ?_⟩
      cases hother
      obtain ⟨hadmits, holdPeels⟩ := resolveFragment_admits (hmiddle.mono (List.nil_subset _)) resolvesOld
      have hreached : ∀ id, policy.Admits repo [revision.peeledId] id →
          policy.Discloses repo id ∨ repo.Reaches revision.peeledId id := by
        rintro id (hid | ⟨root, hroot, hpath⟩)
        · exact .inl hid
        · exact .inr (List.mem_singleton.mp hroot ▸ hpath)
      rintro id (rfl | rfl)
      · exact hreached _ hadmits
      · exact hreached _ (hadmits.peels holdPeels)
  | againstParent resolves stored opens =>
      obtain ⟨hadmits, hpeels⟩ := resolveFragment_admits justified resolves
      refine ⟨admits_nil.mp hadmits, hpeels, fun other hother => ?_⟩
      obtain ⟨parent, hparent, rfl⟩ := Option.map_eq_some_iff.mp hother
      exact ⟨hparent, rfl⟩
  | single resolves =>
      obtain ⟨hdiscloses, hpeels, _⟩ := resolveFirst_discloses justified resolves
      exact ⟨hdiscloses, hpeels, fun other hother => by cases hother⟩

/-- Non-disclosure. Whatever a text resolves to, asked of a memo that remembers nothing, is the tip of
a ref, or a commit that a browsable ref reaches, and so is what it peels to. -/
theorem resolve_discloses {capacity : Nat} {text : String} {resolution : Resolution}
    {memo : VisibilityMemo}
    (hresolve : (repo.resolve text).on (.empty policy capacity) = (.ok (some resolution), memo)) :
    policy.Discloses repo resolution.revision.id ∧
      policy.Discloses repo resolution.revision.peeledId ∧
      repo.PeelsTo resolution.revision.id resolution.revision.peeledId ∧
      ∃ expression, Expression.read? text.toList = some expression ∧
        ∀ old, resolution.old = some old →
          policy.MayCompare repo resolution.revision old expression := by
  have justified : (VisibilityMemo.empty policy capacity).Justified policy repo [] :=
    ⟨rfl, fun _ hmem => absurd hmem List.not_mem_nil⟩
  unfold resolve at hresolve
  split at hresolve
  · cases (gives_pure.mp hresolve).1
  · next expression hread =>
      obtain ⟨hdiscloses, hpeels, hold⟩ := resolveExpression_discloses justified hresolve
      exact ⟨hdiscloses, hdiscloses.peels hpeels, hpeels, expression, hread, hold⟩

def reviewedRange : String := "1111..refs/changes/1"

theorem resolve_discloses_underReview : ∃ resolution memo,
    (underReview.resolve reviewedRange).on (.empty ⟨["refs/changes/"]⟩ 4) =
      (.ok (some resolution), memo) ∧
    (⟨["refs/changes/"]⟩ : BrowsePolicy).Discloses underReview resolution.revision.id ∧
    (⟨["refs/changes/"]⟩ : BrowsePolicy).Discloses underReview resolution.revision.peeledId ∧
    underReview.PeelsTo resolution.revision.id resolution.revision.peeledId ∧
    ∃ expression, Expression.read? reviewedRange.toList = some expression ∧
      ∀ old, resolution.old = some old →
        BrowsePolicy.MayCompare ⟨["refs/changes/"]⟩ underReview resolution.revision old expression := by
  have hresolve : (underReview.resolve reviewedRange).on (.empty ⟨["refs/changes/"]⟩ 4) =
      (.ok (some ⟨.ofCommit "refs/changes/1" secondChange, some (.ofCommit "1111" firstChange), ""⟩),
        ((underReview.resolve reviewedRange).on (.empty ⟨["refs/changes/"]⟩ 4)).2) :=
    Prod.ext (by decide +kernel) rfl
  exact ⟨_, _, hresolve, resolve_discloses hresolve⟩

end Repository

end GuardedRevision
