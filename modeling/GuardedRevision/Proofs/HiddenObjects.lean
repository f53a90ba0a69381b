import GuardedRevision.Proofs.LargerStore
import GuardedRevision.Proofs.SharedMemo

/-!
# Hidden objects

An object that no ref leads to cannot be told from one that does not exist. Naming it by its id finds
it in one store and nothing in the other, and what is found is then found to be hidden.
-/

namespace GuardedRevision

variable {policy : BrowsePolicy} {capacity : Nat} {repo larger : Repository} {refs : List RefEntry}
  {roots more stage starters searched : List ObjectId} {stages : List (List ObjectId)}
  {id target : ObjectId} {query : VisibilityQuery} {left right : VisibilityMemo} {text : String}

/-! ### What a larger store exposes -/

namespace Repository

theorem Complete.reaches_of_larger (complete : repo.Complete) (grows : repo.Grows larger)
    (hcommit : repo.isCommit id = true) (path : larger.Reaches id target) : repo.Reaches id target := by
  induction path with
  | refl _ => exact .refl hcommit
  | parent link _ ih =>
      rw [grows.parentsOf hcommit] at link
      exact .parent link (ih (complete.parents link))

namespace Within

variable (within : repo.Within larger) (complete : repo.Complete)
include within complete

theorem reaches (holds : repo.Holds id) (path : larger.Reaches id target) : repo.Reaches id target := by
  have hgrows : repo.Grows larger := within.grows
  apply complete.reaches_of_larger hgrows _ path
  rw [← hgrows.isCommit_eq holds]
  exact path.isCommit_left

theorem peelsTo {last : ObjectId} (holds : repo.Holds id) (peels : larger.PeelsTo id last) :
    repo.PeelsTo id last := by
  obtain ⟨other, hother⟩ := complete.exists_peelsTo holds
  have hsame : other = last := (hother.grow within.grows).unique peels
  exact hsame ▸ hother

theorem exposes (hlisted : repo.listRefs = .ok refs) (hroots : ∀ root ∈ roots, repo.Holds root)
    (exposes : policy.Exposes larger refs roots target) : policy.Exposes repo refs roots target := by
  cases exposes with
  | tip listed marks =>
      refine .tip listed (marks.imp_right fun peels => ?_)
      exact within.peelsTo complete (complete.holds_of_points (points_of_mem_listRefs hlisted listed)) peels
  | root held path => exact .root held (within.reaches complete (hroots _ held) path)
  | ref listed browsable peels path =>
      have holds := complete.holds_of_points (points_of_mem_listRefs hlisted listed)
      have hpeels := within.peelsTo complete holds peels
      exact .ref listed browsable hpeels (within.reaches complete hpeels.holds_right path)

theorem answer (hroots : ∀ root ∈ query.roots, repo.Holds root) (holds : repo.Holds query.target) :
    policy.answer larger query = policy.answer repo query := by
  obtain ⟨refs, visible, hlisted, hanswer, _⟩ := complete.answer hroots holds
  have hlistedLarger : larger.listRefs = .ok refs := (within.listRefs complete).trans hlisted
  by_cases htip : BrowsePolicy.isTip refs query.target = true
  · simp only [BrowsePolicy.answer, hlisted, hlistedLarger, htip, if_true]
  · have hnoTip : BrowsePolicy.isTip refs query.target = false := by simpa using htip
    by_cases hcommit : repo.isCommit query.target = true
    · have searches : BrowsePolicy.Searches repo refs query.target := ⟨hlisted, hnoTip, hcommit⟩
      have searchesLarger : BrowsePolicy.Searches larger refs query.target :=
        ⟨hlistedLarger, hnoTip, Grows.isCommit within.grows hcommit⟩
      rw [searches.answer] at hanswer
      calc policy.answer larger query
          = larger.isReachableInStages query.target (policy.stages refs query.roots) [] :=
            searchesLarger.answer
        _ = .ok visible := Grows.isReachableInStages within.grows hcommit hanswer
        _ = policy.answer repo query := by rw [searches.answer, hanswer]
    · obtain ⟨kind, hkind⟩ := holds.kind
      have hkindLarger : larger.kind query.target = .ok kind := (within.kind holds).trans hkind
      have hplain : kind ≠ .commit := by
        rintro rfl
        exact hcommit (kind_eq_commit_iff.mp hkind)
      simp only [BrowsePolicy.answer, hlisted, hlistedLarger, hnoTip, hkind, hkindLarger]

theorem isReachableBeyond_of_gains (gains : repo.Gains larger target)
    (hcommit : larger.isCommit target = true) (hstarters : ∀ id ∈ starters, repo.Holds id)
    (hsearched : ∀ id ∈ searched, repo.Holds id) :
    larger.isReachableBeyond target starters searched = .ok false := by
  have hgrows : repo.Grows larger := within.grows
  by_cases hne : starters = []
  · rw [hne, isReachableBeyond_nil]
  · have hmem : target ∉ starters := fun hmem => gains.not_holds (hstarters target hmem)
    rw [isReachableBeyond_eq_ok_iff hne hmem hcommit, hgrows.filter_isCommit hstarters,
      hgrows.filter_isCommit hsearched]
    refine ⟨fun id hid => hgrows.holds (hstarters id hid), ?_⟩
    split
    · rfl
    · next hsome =>
        obtain ⟨commits, hlist⟩ := complete.exists_toList_walkBeyond hsome
          (fun _ => isCommit_of_mem_filter)
          (fun _ => isCommit_of_mem_filter : ∀ id ∈ searched.filter repo.isCommit, _)
        have history := toList_walkBeyond hsome (fun _ => isCommit_of_mem_filter) hlist
        refine ⟨fun id hid => hgrows.holds (hsearched id hid), commits,
          hgrows.toList_walkBeyond hsome (fun _ => isCommit_of_mem_filter) hlist, ?_⟩
        -- All that the walk comes upon is stored in the smaller repository.
        have hnot : target ∉ commits := fun hlisted =>
          gains.not_holds (holds_of_isCommit (history.isCommit hlisted))
        simpa using hnot

theorem isReachableInStages_of_gains (gains : repo.Gains larger target)
    (hcommit : larger.isCommit target = true)
    (hstages : ∀ stage ∈ stages, ∀ id ∈ stage, repo.Holds id)
    (hsearched : ∀ id ∈ searched, repo.Holds id) :
    larger.isReachableInStages target stages searched = .ok false := by
  induction stages generalizing searched with
  | nil => rfl
  | cons stage later ih =>
      obtain ⟨hstage, hlater⟩ := List.forall_mem_cons.mp hstages
      rw [Repository.isReachableInStages]
      split
      · exact ih hlater hsearched
      · rw [within.isReachableBeyond_of_gains complete gains hcommit hstage hsearched]
        apply ih hlater
        intro id hid
        exact (List.mem_append.mp hid).elim (hsearched id) (hstage id)

/-- What only the larger store has is found to be hidden, without a fault. -/
theorem answer_of_gains (hroots : ∀ root ∈ query.roots, repo.Holds root)
    (gains : repo.Gains larger query.target) : policy.answer larger query = .ok false := by
  obtain ⟨refs, hlisted⟩ := complete.exists_listRefs
  have hlistedLarger : larger.listRefs = .ok refs := (within.listRefs complete).trans hlisted
  have hnoTip : BrowsePolicy.isTip refs query.target = false := by
    rw [Bool.eq_false_iff]
    intro htip
    obtain ⟨entry, listed, marks⟩ := (isTip_iff hlisted).mp htip
    have exposes : policy.Exposes repo refs [] query.target := .tip listed marks
    exact gains.not_holds (complete.holds_of_exposes hlisted exposes)
  by_cases hcommit : larger.isCommit query.target = true
  · have searches : BrowsePolicy.Searches larger refs query.target := ⟨hlistedLarger, hnoTip, hcommit⟩
    rw [searches.answer]
    exact within.isReachableInStages_of_gains complete gains hcommit
      (holds_of_mem_stages hlisted hroots) (List.forall_mem_nil _)
  · obtain ⟨kind, hkind⟩ := gains.stored.kind
    have hplain : kind ≠ .commit := by
      rintro rfl
      exact hcommit (kind_eq_commit_iff.mp hkind)
    simp only [BrowsePolicy.answer, hlistedLarger, hnoTip, hkind, Bool.false_eq_true, if_false]

end Within

end Repository

/-! ### Questions to both stores -/

namespace VisibilityMemo

/-- The memos of two repositories, neither of which remembers anything wrong. -/
structure Kindred (policy : BrowsePolicy) (repo larger : Repository) (roots : List ObjectId)
    (left right : VisibilityMemo) : Prop where
  small : left.Truthful policy repo roots
  large : right.Truthful policy larger roots

theorem kindred_empty :
    Kindred policy repo larger roots (.empty policy capacity) (.empty policy capacity) :=
  ⟨truthful_empty, truthful_empty⟩

theorem Kindred.mono (hroots : roots ⊆ more) (kindred : Kindred policy repo larger roots left right) :
    Kindred policy repo larger more left right where
  small := ⟨kindred.small.honest, kindred.small.justified.mono hroots⟩
  large := ⟨kindred.large.honest, kindred.large.justified.mono hroots⟩

variable (within : repo.Within larger) (complete : repo.Complete)
  (hroots : ∀ root ∈ roots, repo.Holds root)
include within complete hroots

theorem Truthful.check_larger (truthful : right.Truthful policy larger roots) (target : ObjectId) :
    (right.check larger ⟨target, roots⟩).1 = policy.answer larger ⟨target, roots⟩ := by
  refine check_eq_answer_of_shown truthful.honest truthful.justified fun refs hlisted exposes => ?_
  rw [within.listRefs complete] at hlisted
  have hexposes := within.exposes complete hlisted hroots exposes
  calc policy.answer larger ⟨target, roots⟩
      = policy.answer repo ⟨target, roots⟩ :=
        within.answer complete hroots (complete.holds_of_exposes hlisted hexposes)
    _ = .ok true := complete.answer_of_exposes hroots hlisted hexposes

theorem isVisible_alike (holds : repo.Holds id) :
    Asking.Alike (Kindred policy repo larger roots) (repo.isVisible id roots)
      (larger.isVisible id roots) := by
  rintro left right ⟨hsmall, hlarge⟩
  refine ⟨?_, hsmall.check id, hlarge.check id⟩
  calc (left.check repo ⟨id, roots⟩).1
      = policy.answer repo ⟨id, roots⟩ :=
        check_eq_answer complete hsmall.honest hsmall.justified hroots
    _ = policy.answer larger ⟨id, roots⟩ := (within.answer complete hroots holds).symm
    _ = (right.check larger ⟨id, roots⟩).1 :=
        (hlarge.check_larger within complete hroots id).symm

/-- To look for something hidden and to find nothing is the same. -/
theorem hidden_alike (gains : repo.Gains larger id) {rest : Asking (Option Revision)} :
    Asking.Alike (Kindred policy repo larger roots) (pure none) (do
      let visible ← larger.isVisible id roots
      if visible = true then rest else pure none) := by
  rintro left right ⟨hsmall, hlarge⟩
  have hhidden : (right.check larger ⟨id, roots⟩).1 = .ok false :=
    (hlarge.check_larger within complete hroots id).trans
      (within.answer_of_gains complete hroots gains)
  have hon : (larger.isVisible id roots).on right = (.ok false, (right.check larger ⟨id, roots⟩).2) :=
    Prod.ext hhidden rfl
  rw [Asking.bind_on, hon]
  exact ⟨rfl, hsmall, hlarge.check id⟩

end VisibilityMemo

/-! ### Resolving in both stores -/

namespace Repository

open Asking VisibilityMemo

theorem withDigits?_of_base {base : String} (hbase : repo.base base = .ok (some (id, .digits))) :
    repo.withDigits? base = .ok (some id) := by
  obtain ⟨found, _, hrest⟩ := except_bind_eq_ok_iff.mp hbase
  cases found with
  | some entry => cases hrest
  | none =>
      obtain ⟨digits, hdigits, hsame⟩ := except_bind_eq_ok_iff.mp hrest
      cases digits with
      | none => cases hsame
      | some digits =>
          cases hsame
          exact hdigits

theorem Complete.holds_of_base (complete : repo.Complete) {base : String} {source : BaseSource}
    (hbase : repo.base base = .ok (some (id, source))) : repo.Holds id := by
  cases source with
  | digits => exact holds_of_withDigits? (withDigits?_of_base hbase)
  | ref =>
      have discloses : (⟨[]⟩ : BrowsePolicy).Discloses repo id := discloses_of_base hbase
      exact complete.holds_of_discloses discloses

/-- A base stands for the same in both stores, or for something that only the larger one has. -/
def SeesAlike (repo larger : Repository) (base : String) : Prop :=
  larger.base base = repo.base base ∨ ∃ id, repo.base base = .ok none ∧
    larger.base base = .ok (some (id, .digits)) ∧ repo.Gains larger id

section Larger

variable (within : repo.Within larger) (complete : repo.Complete)
include within complete

theorem Within.seesAlike {base : String} (hquiet : ¬ repo.MayTell larger base) :
    repo.SeesAlike larger base := by
  unfold SeesAlike Repository.base
  rw [within.firstRef complete]
  cases hfirst : repo.firstRef (refNamesOf base) with
  | error fault => exact .inl rfl
  | ok found =>
      cases found with
      | some entry => exact .inl rfl
      | none =>
          rcases within.withDigits?_cases hquiet with hsame | ⟨id, hnone, hsome, gains⟩
          · left
            rw [hsame]
          · right
            refine ⟨id, ?_, ?_, gains⟩
            · rw [hnone]
              rfl
            · rw [hsome]
              rfl

theorem Within.matching (relation : VisibilityMemo → VisibilityMemo → Prop) :
    repo.Matches larger repo.Holds fun α => @Alike α relation where
  composes := alike_composes
  found := complete.holds_of_base
  destination := fun steps holds => (within.destination complete steps holds).symm ▸ .liftM _
  reached := complete.holds_of_destination
  revision := fun name _ holds => (within.revision complete name holds).symm ▸ .liftM _
  peelToCommit := fun holds => (within.peelToCommit complete holds).symm ▸ .liftM _
  parents := fun hcommit => (within.parents (peelToCommit_eq hcommit).holds_right).symm ▸ .liftM _

theorem Within.resolveFragment_alike {fragmentText : List Char}
    (hroots : ∀ root ∈ roots, repo.Holds root)
    (halike : ∀ fragment, Fragment.read? fragmentText = some fragment →
      repo.SeesAlike larger (String.ofList fragment.base)) :
    Alike (Kindred policy repo larger roots) (repo.resolveFragment roots fragmentText)
      (larger.resolveFragment roots fragmentText) := by
  by_cases hsame : ∀ fragment, Fragment.read? fragmentText = some fragment →
      larger.base (String.ofList fragment.base) = repo.base (String.ofList fragment.base)
  · refine (within.matching complete _).resolveFragment
      (fun id holds => isVisible_alike within complete hroots holds) fun fragment hread => ?_
    rw [hsame fragment hread]
    exact .liftM _
  · push Not at hsame
    obtain ⟨fragment, hread, hne⟩ := hsame
    obtain ⟨id, hnone, hsome, gains⟩ := (halike fragment hread).resolve_left hne
    -- The larger store finds the base and asks about it; the smaller one has nothing to ask about.
    unfold resolveFragment
    simp only [hread]
    rw [hnone, hsome]
    exact hidden_alike within complete hroots gains

theorem Within.resolveExpression_eq {expression : Expression}
    (halike : ∀ fragmentText ∈ expression.fragments, ∀ fragment,
      Fragment.read? fragmentText = some fragment → repo.SeesAlike larger (String.ofList fragment.base))
    (kindred : Kindred policy repo larger [] left right) :
    ((larger.resolveExpression expression).on right).1 =
      ((repo.resolveExpression expression).on left).1 := by
  have hrootless : ∀ fragmentText ∈ expression.fragments, Alike (Kindred policy repo larger [])
      (repo.resolveFragment [] fragmentText) (larger.resolveFragment [] fragmentText) :=
    fun fragmentText hmem =>
      within.resolveFragment_alike complete (List.forall_mem_nil _) (halike fragmentText hmem)
  cases expression with
  | single text =>
      exact ((within.matching complete _).resolveExpression hrootless nofun left right kindred).1.symm
  | againstParent name rest =>
      exact ((within.matching complete _).resolveExpression hrootless nofun left right kindred).1.symm
  | range old new =>
      by_cases hnothing : (old.isEmpty || new.isEmpty) = true
      · simp only [resolveExpression, resolveRange, hnothing, if_true]
        rfl
      · have hfragments : (Expression.range old new).fragments =
            old :: (Expression.candidates new).map Prod.fst := by
          simp only [Expression.fragments, hnothing, Bool.false_eq_true, if_false]
        rw [hfragments] at halike hrootless
        have hrooted : ∀ root, repo.Holds root → Alike (Kindred policy repo larger [root])
            (repo.resolveFragment [root] old) (larger.resolveFragment [root] old) :=
          fun root holds => within.resolveFragment_alike complete
            (List.forall_mem_singleton.mpr holds) (halike old List.mem_cons_self)
        have hends : SameEnd (fun _ _ => True) ((repo.resolveRange old new).on left)
            ((larger.resolveRange old new).on right) :=
          resolveRange_alike (fun candidate hmem => hrootless candidate.1
              (List.mem_cons_of_mem _ (List.mem_map_of_mem hmem))) hrooted
            (fun _ _ _ hkindred => hkindred.mono (List.nil_subset _)) (fun _ _ _ => trivial)
            (fun _ _ _ _ => trivial) kindred
        exact hends.1.symm

theorem Within.resolve_of_seesAlike (kindred : Kindred policy repo larger [] left right)
    (halike : ∀ base ∈ Expression.bases text, repo.SeesAlike larger base) :
    ((larger.resolve text).on right).1 = ((repo.resolve text).on left).1 := by
  unfold resolve
  split
  · rfl
  · next expression hread =>
      exact within.resolveExpression_eq complete (fun _ hmem _ hfragment =>
        halike _ (Expression.mem_bases hread hmem hfragment)) kindred

theorem Within.resolve_of_kindred (kindred : Kindred policy repo larger [] left right)
    (hquiet : ∀ base ∈ Expression.bases text, ¬ repo.MayTell larger base) :
    ((larger.resolve text).on right).1 = ((repo.resolve text).on left).1 :=
  within.resolve_of_seesAlike complete kindred fun base hmem =>
    within.seesAlike complete (hquiet base hmem)

/-- Noninterference. What is resolved with a fresh memo does not depend on objects that no ref leads
to, whatever is named, as long as no base is an abbreviation or the id of an object that cannot be
read. -/
theorem Within.resolve_eq (policy : BrowsePolicy) (capacity : Nat) {text : String}
    (hquiet : ∀ base ∈ Expression.bases text, ¬ repo.MayTell larger base) :
    ((larger.resolve text).on (.empty policy capacity)).1 =
      ((repo.resolve text).on (.empty policy capacity)).1 :=
  within.resolve_of_kindred complete kindred_empty hquiet

end Larger

/-! ### Drafts -/

def draft : ObjectId := ⟨"3333333333333333333333333333333333333333", by decide⟩

def tornDraft : ObjectId := ⟨"4444444444444444444444444444444444444444", by decide⟩

/-- The repository under review with two more children of the first change that no ref points at. One of
them cannot be read. -/
def withDrafts : Repository :=
  underReview.addObjects [(draft, .readable (.commit ⟨[firstChange], ⟨.empty, .empty, 3⟩, 3, .empty⟩)),
    (tornDraft, .unreadable .commit)]

theorem withDrafts_complete : withDrafts.Complete :=
  complete_of_isRanked
    (by decide +kernel : withDrafts.isRanked (fun id => if id ∈ [secondChange, draft] then 1 else 0) = true)

theorem within_withDrafts : underReview.Within withDrafts :=
  within_addObjects (.inl (by decide +kernel))

theorem resolve_eq_draft :
    underReview.Complete ∧ underReview.Within withDrafts ∧
    underReview.object draft = .error (.missingObject draft) ∧ withDrafts.isCommit draft = true ∧
    (∀ base ∈ Expression.bases (draft.text ++ "^!/README"), ¬ underReview.MayTell withDrafts base) ∧
    ((withDrafts.resolve (draft.text ++ "^!/README")).on (.empty ⟨["refs/changes/"]⟩ 4)).1 =
      ((underReview.resolve (draft.text ++ "^!/README")).on (.empty ⟨["refs/changes/"]⟩ 4)).1 := by
  have hquiet : ∀ base ∈ Expression.bases (draft.text ++ "^!/README"),
      ¬ underReview.MayTell withDrafts base := by
    have hbases : Expression.bases (draft.text ++ "^!/README") = [draft.text] := by decide +kernel
    rw [hbases, List.forall_mem_singleton]
    rintro (hshort | ⟨id, hparse, _, hunreadable⟩)
    · exact absurd hshort (by decide +kernel)
    · have hdraft : ObjectId.parse draft.text = .ok draft := by decide +kernel
      rw [hdraft] at hparse
      cases hparse
      exact absurd hunreadable (by decide +kernel)
  exact ⟨underReview_complete, within_withDrafts, by decide +kernel, by decide +kernel, hquiet,
    within_withDrafts.resolve_eq underReview_complete ⟨["refs/changes/"]⟩ 4 hquiet⟩

/-- The id of an object that cannot be read is told from that of one that does not exist: to read it is
a fault. -/
theorem resolve_ne_tornDraft :
    underReview.Complete ∧ underReview.Within withDrafts ∧
    (∀ base ∈ Expression.bases tornDraft.text, ObjectId.isAbbreviation base = false) ∧
    ((underReview.resolve tornDraft.text).on (.empty ⟨["refs/changes/"]⟩ 4)).1 = .ok none ∧
    ((withDrafts.resolve tornDraft.text).on (.empty ⟨["refs/changes/"]⟩ 4)).1 = .error .internal :=
  ⟨underReview_complete, within_withDrafts, by decide +kernel, by decide +kernel, by decide +kernel⟩

end Repository

end GuardedRevision
