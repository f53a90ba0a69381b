import GuardedRevision.Proofs.Enumeration
import GuardedRevision.Proofs.Naming

/-!
# Laws of steps

Steps to ancestors add up, and those that lead nowhere name nothing. What is passed on the way need not be
visible, but the base has to be when it is given by digits, and where the base cannot be looked for every
spelling of the steps fails alike.
-/

namespace GuardedRevision.Repository

open VisibilityMemo (truthful_empty)

variable {policy : BrowsePolicy} {capacity : Nat} {repo : Repository} {refs : List RefEntry}
  {base id commit : ObjectId} {source : BaseSource} {text other digits : List Char}
  {fragment others : Fragment} {revision : Revision} {line : List ObjectId} {n m : Nat}

/-! ### Steps that lead to the same, or nowhere -/

theorem stepAll_ancestor_add (n m : Nat) (id : ObjectId) :
    repo.stepAll [.ancestor n, .ancestor m] id = repo.stepAll [.ancestor (n + m)] id := by
  rw [stepAll_singleton, step, ancestor_add, stepAll, step]
  rcases repo.ancestor n id with fault | reached
  · rfl
  · cases reached with
    | none => rfl
    | some next => exact stepAll_singleton _ _

theorem stepAll_parent_eq_ancestor (id : ObjectId) :
    repo.stepAll [.parent 1] id = repo.stepAll [.ancestor 1] id := by
  rw [stepAll_singleton, stepAll_singleton, step, step, ancestor]
  rcases repo.parents id with fault | parents
  · rfl
  · cases parents with
    | nil => rfl
    | cons parent rest => rfl

theorem step_parent_eq_none (hcommit : repo.isCommit id = true) (hfew : (repo.parentsOf id).length < n) :
    repo.step id (.parent n) = .ok none := by
  have hnone : (repo.parentsOf id)[n - 1]? = none := List.getElem?_eq_none (by omega)
  rw [step, parents_eq_ok_iff.mpr ⟨hcommit, rfl⟩]
  exact congrArg Except.ok hnone

theorem IsFirstLine.isCommit (isLine : repo.IsFirstLine id line) : repo.isCommit id = true := by
  cases isLine with
  | root stored orphan => exact stored
  | child link rest => exact isCommit_of_mem_parentsOf (List.mem_of_head? link)

theorem IsFirstLine.ancestor_eq_none (isLine : repo.IsFirstLine id line) (hshort : line.length ≤ n) :
    repo.ancestor n id = .ok none := by
  induction isLine generalizing n with
  | root stored orphan =>
      obtain ⟨n, rfl⟩ := Nat.exists_eq_add_of_le' hshort
      rw [List.length_singleton, ancestor, parents_eq_ok_iff.mpr ⟨stored, rfl⟩, orphan]
      rfl
  | @child id parent line link rest ih =>
      obtain ⟨n, rfl⟩ := Nat.exists_eq_succ_of_ne_zero (Nat.ne_zero_of_lt hshort)
      have hcommit : repo.isCommit id = true := isCommit_of_mem_parentsOf (List.mem_of_head? link)
      rw [ancestor, parents_eq_ok_iff.mpr ⟨hcommit, rfl⟩]
      cases hparents : repo.parentsOf id with
      | nil => simp [hparents] at link
      | cons first others =>
          obtain rfl : first = parent := by simpa [hparents] using link
          exact ih (Nat.le_of_succ_le_succ hshort)

/-! ### Texts alone -/

/-- The object that the base and the steps of a text lead to, whether it may be shown or not. -/
inductive Denotes (repo : Repository) (text : List Char) (id : ObjectId) : Prop where
  | intro {fragment : Fragment} {base : ObjectId} {source : BaseSource}
      (reads : Fragment.read? text = some fragment)
      (named : repo.base (String.ofList fragment.base) = .ok (some (base, source)))
      (reached : repo.destination base fragment.steps = .ok (some id))

namespace Complete

variable (complete : repo.Complete)
include complete

theorem alone_iff (hlisted : repo.listRefs = .ok refs) :
    repo.alone policy capacity text = .ok (some revision) ↔ policy.Names repo refs [] text revision :=
  truthful_empty.resolveFragment_iff complete (List.forall_mem_nil _) hlisted

/-- Texts whose bases are the same, and whose steps lead to the same, have the same answer under their
own names. -/
theorem alone_congr (hread : Fragment.read? text = some fragment) (hother : Fragment.read? other = some others)
    (hbase : others.base = fragment.base) (hmoves : others.moves = fragment.moves)
    (hsteps : ∀ base, repo.destination base others.steps = repo.destination base fragment.steps) :
    repo.alone policy capacity other =
      (repo.alone policy capacity text).map (Option.map (·.renamed (String.ofList other))) := by
  obtain ⟨refs, hlisted⟩ := complete.exists_listRefs
  cases hfound : repo.base (String.ofList fragment.base) with
  | error fault =>
      rw [alone, alone, resolveFragment_of_base_error hread hfound,
        resolveFragment_of_base_error hother (hbase ▸ hfound)]
      rfl
  | ok found =>
      obtain ⟨answer, hanswer⟩ :=
        complete.exists_resolveFragment (List.forall_mem_nil _) hread ⟨found, hfound⟩ (.empty policy capacity)
      change repo.alone policy capacity text = .ok answer at hanswer
      rw [hanswer]
      cases answer with
      | some revision =>
          have names := (complete.alone_iff hlisted).mp hanswer
          exact (complete.alone_iff hlisted).mpr (names.congr hread hother hbase hmoves hsteps)
      | none =>
          -- What the second text names, the first one names too, since the renaming goes both ways.
          refine truthful_empty.resolveFragment_eq_none complete (List.forall_mem_nil _) hlisted hother
            (hbase ▸ hfound) fun revision names => ?_
          have hsame := names.congr hother hread hbase.symm hmoves.symm fun base => (hsteps base).symm
          cases hanswer.symm.trans ((complete.alone_iff hlisted).mpr hsame)

theorem alone_chained {first second both : List Char} (hread : Fragment.read? text = some fragment)
    (hfirst : Step.WrittenAs first (.ancestor n)) (hsecond : Step.WrittenAs second (.ancestor m))
    (hboth : Step.WrittenAs both (.ancestor (n + m))) : repo.alone policy capacity (text ++ first ++ second) =
      (repo.alone policy capacity (text ++ both)).map
        (Option.map (·.renamed (String.ofList (text ++ first ++ second)))) := by
  have htwo := Fragment.read?_append hread (.cons hfirst (.cons hsecond .nil))
  rw [List.flatten_cons, List.flatten_singleton, ← List.append_assoc] at htwo
  have hmoves : Fragment.moves ⟨fragment.base, fragment.steps ++ [.ancestor n, .ancestor m]⟩ =
      Fragment.moves ⟨fragment.base, fragment.steps ++ [.ancestor (n + m)]⟩ := by
    simp [Fragment.moves, Nat.add_eq_zero_iff]
  exact complete.alone_congr (Fragment.read?_step hread hboth) htwo rfl hmoves fun base =>
    destination_congr (List.cons_ne_nil _ _) (List.cons_ne_nil _ _) (stepAll_ancestor_add n m) base _

theorem alone_single {left right : List Char} {step also : Step} (hread : Fragment.read? text = some fragment)
    (hleft : Step.WrittenAs left step) (hright : Step.WrittenAs right also)
    (hstep : step ∈ [.parent 1, .ancestor 1]) (halso : also ∈ [.parent 1, .ancestor 1]) :
    repo.alone policy capacity (text ++ left) = (repo.alone policy capacity (text ++ right)).map
      (Option.map (·.renamed (String.ofList (text ++ left)))) := by
  have hfirst : ∀ step ∈ [Step.parent 1, .ancestor 1], ∀ id,
      repo.stepAll [step] id = repo.stepAll [.ancestor 1] id := by
    simpa using stepAll_parent_eq_ancestor
  have hmove : ∀ step ∈ [Step.parent 1, .ancestor 1], decide (step ≠ .ancestor 0) = true := by decide
  have hmoves : Fragment.moves ⟨fragment.base, fragment.steps ++ [step]⟩ =
      Fragment.moves ⟨fragment.base, fragment.steps ++ [also]⟩ := by
    simp only [Fragment.moves, List.any_append, List.any_cons, hmove step hstep, hmove also halso]
  exact complete.alone_congr (Fragment.read?_step hread hright) (Fragment.read?_step hread hleft) rfl hmoves
    fun base => destination_congr (List.cons_ne_nil _ _) (List.cons_ne_nil _ _)
      (fun id => (hfirst step hstep id).trans (hfirst also halso id).symm) base _

theorem alone_eq_none (hread : Fragment.read? text = some fragment)
    (hbase : repo.base (String.ofList fragment.base) = .ok (some (base, source)))
    (hreached : repo.destination base fragment.steps = .ok none) : repo.alone policy capacity text = .ok none := by
  obtain ⟨refs, hlisted⟩ := complete.exists_listRefs
  refine truthful_empty.resolveFragment_eq_none complete (List.forall_mem_nil _) hlisted hread hbase ?_
  intro revision names
  obtain ⟨_, _, _, named, _, reached, _, _⟩ := (BrowsePolicy.names_iff hread).mp names
  rw [hbase] at named
  cases named
  cases hreached.symm.trans reached

theorem alone_step_eq_none {mark : Char} (denotes : repo.Denotes text id) (peels : repo.PeelsTo id commit)
    (hcommit : repo.isCommit commit = true) (digital : ∀ c ∈ digits, c.isDigit = true)
    (hmark : Step.isMark mark = true) (hstep : Step.countOf digits < UInt32.size →
      ∃ step, Step.WrittenAs (mark :: digits) step ∧ repo.step commit step = .ok none) :
    repo.alone policy capacity (text ++ mark :: digits) = .ok none := by
  obtain ⟨reads, named, reached⟩ := denotes
  by_cases hfits : Step.countOf digits < UInt32.size
  · obtain ⟨step, written, hnowhere⟩ := hstep hfits
    refine complete.alone_eq_none (Fragment.read?_step reads written) named ?_
    rw [complete.destination_append reached peels (List.cons_ne_nil _ _), if_pos hcommit, stepAll_singleton,
      hnowhere]
  · -- The number is not read, so the text is no fragment at all.
    have hread := Fragment.read?_append_eq_none reads digital hmark (Nat.le_of_not_lt hfits)
    rw [alone, resolveFragment_of_read? hread]

theorem alone_stay (halone : repo.alone policy capacity text = .ok (some revision)) {still : List Char}
    (written : Step.WrittenAs still (.ancestor 0)) : repo.alone policy capacity (text ++ still) =
      .ok (if repo.isCommit revision.peeledId = true then
        some (.ofCommit (String.ofList (text ++ still)) revision.peeledId) else none) := by
  obtain ⟨refs, hlisted⟩ := complete.exists_listRefs
  have names := (complete.alone_iff hlisted).mp halone
  have hstep := names.step_iff complete written
  split
  · next hcommit =>
      exact (complete.alone_iff hlisted).mpr ((hstep _).mpr ⟨hcommit, _, rfl, by simp, rfl⟩)
  · next hplain =>
      obtain ⟨reads, named, _⟩ := names
      exact truthful_empty.resolveFragment_eq_none complete (List.forall_mem_nil _) hlisted
        (Fragment.read?_step reads written) named fun side hside => hplain ((hstep side).mp hside).1

end Complete

/-! ### The laws -/

/-- What holds of steps after a text that is read as a fragment, each text resolved alone. Revisions that are
the same have their own names. -/
structure StepLaws (repo : Repository) (policy : BrowsePolicy) (capacity : Nat) (text : List Char)
    (fragment : Fragment) : Prop where
  chained : ∀ first second both n m, Step.WrittenAs first (.ancestor n) → Step.WrittenAs second (.ancestor m) →
    Step.WrittenAs both (.ancestor (n + m)) → repo.alone policy capacity (text ++ first ++ second) =
      (repo.alone policy capacity (text ++ both)).map
        (Option.map (·.renamed (String.ofList (text ++ first ++ second))))
  single : ∀ left right step other, Step.WrittenAs left step → Step.WrittenAs right other →
    step ∈ [.parent 1, .ancestor 1] → other ∈ [.parent 1, .ancestor 1] →
    repo.alone policy capacity (text ++ left) =
      (repo.alone policy capacity (text ++ right)).map (Option.map (·.renamed (String.ofList (text ++ left))))
  fewParents : ∀ id commit digits, repo.Denotes text id → repo.PeelsTo id commit → repo.isCommit commit = true →
    (∀ c ∈ digits, c.isDigit = true) → (repo.parentsOf commit).length < Step.countOf digits →
    repo.alone policy capacity (text ++ '^' :: digits) = .ok none
  /-- A line of first parents has one link less than commits. -/
  shortLine : ∀ id commit line digits, repo.Denotes text id → repo.PeelsTo id commit →
    repo.IsFirstLine commit line → (∀ c ∈ digits, c.isDigit = true) → line.length - 1 < Step.countOf digits →
    repo.alone policy capacity (text ++ '~' :: digits) = .ok none
  still : ∀ revision still, repo.alone policy capacity text = .ok (some revision) →
    Step.WrittenAs still (.ancestor 0) → repo.alone policy capacity (text ++ still) =
      .ok (if repo.isCommit revision.peeledId = true then
        some (.ofCommit (String.ofList (text ++ still)) revision.peeledId) else none)
  /-- What decides about visibility. -/
  decided : ∀ texts steps refs revision, List.Forall₂ Step.WrittenAs texts steps → repo.listRefs = .ok refs →
    (repo.alone policy capacity (text ++ texts.flatten) = .ok (some revision) ↔
      ∃ base source id, repo.base (String.ofList fragment.base) = .ok (some (base, source)) ∧
        (source = .digits → policy.Exposes repo refs [] base) ∧
        repo.destination base (fragment.steps ++ steps) = .ok (some id) ∧
        ((fragment.steps ++ steps).any (· ≠ .ancestor 0) = true → policy.Exposes repo refs [] id) ∧
        repo.revision (String.ofList (text ++ texts.flatten)) id = .ok revision)
  faultless : ∀ texts steps, List.Forall₂ Step.WrittenAs texts steps →
    (∀ name ∈ refNamesOf (String.ofList fragment.base), name.utf8ByteSize ≤ maxNameBytes) →
    (ObjectId.isHashLike (String.ofList fragment.base) = true → ∀ id ∈ repo.ids,
      id.fits (String.ofList fragment.base) = true → repo.Holds id) →
    ∃ found, repo.alone policy capacity (text ++ texts.flatten) = .ok found

/-- On a complete repository the laws hold after every fragment, whatever is excluded. -/
theorem Complete.stepLaws (complete : repo.Complete) (policy : BrowsePolicy) (capacity : Nat)
    (hread : Fragment.read? text = some fragment) (hplain : '\x00' ∉ text) :
    repo.StepLaws policy capacity text fragment := by
  constructor
  case chained => exact fun _ _ _ _ _ => complete.alone_chained hread
  case single => exact fun _ _ _ _ => complete.alone_single hread
  case fewParents =>
    intro id commit digits denotes peels hcommit digital hfew
    have hpositive := Nat.zero_lt_of_lt hfew
    exact complete.alone_step_eq_none denotes peels hcommit digital (by decide) fun hfits =>
      ⟨_, .parent digital hfits hpositive.ne', step_parent_eq_none hcommit hfew⟩
  case shortLine =>
    intro id commit line digits denotes peels isLine digital hshort
    have hlength : line.length ≤ Step.countOf digits := by omega
    exact complete.alone_step_eq_none denotes peels isLine.isCommit digital (by decide) fun hfits =>
      ⟨_, .ancestor digital hfits, isLine.ancestor_eq_none hlength⟩
  case still => exact fun revision still halone written => complete.alone_stay halone written
  case decided =>
    intro texts steps refs revision written hlisted
    rw [complete.alone_iff hlisted]
    exact BrowsePolicy.names_iff (Fragment.read?_append hread written)
  case faultless =>
    intro texts steps written hshort hreadable
    have happend := Fragment.read?_append hread written
    refine complete.exists_alone happend ⟨fun hmem => hplain ?_, hshort, hreadable⟩
    obtain ⟨marks, htext, _⟩ := (Fragment.read?_eq_some_iff.mp hread).written
    rw [String.toList_ofList] at hmem
    rw [htext]
    exact List.mem_append_left _ hmem

theorem stepLaws_underReview :
    underReview.Complete ∧
    Fragment.read? "refs/changes/1".toList = some ⟨"refs/changes/1".toList, []⟩ ∧
    '\x00' ∉ "refs/changes/1".toList ∧
    underReview.StepLaws ⟨["refs/changes/"]⟩ 4 "refs/changes/1".toList ⟨"refs/changes/1".toList, []⟩ := by
  have hread : Fragment.read? "refs/changes/1".toList = some ⟨"refs/changes/1".toList, []⟩ := by decide +kernel
  have hplain : '\x00' ∉ "refs/changes/1".toList := by decide
  exact ⟨underReview_complete, hread, hplain, underReview_complete.stepLaws _ 4 hread hplain⟩

/-- Steps after an object that cannot be read fail, and steps after a hidden one name nothing, though they
lead to the parent of a tip that anyone may see. -/
theorem stepLaws_fail_withDrafts :
    withDrafts.Complete ∧
    Fragment.read? "4444".toList = some ⟨"4444".toList, []⟩ ∧ '\x00' ∉ "4444".toList ∧
    (∀ steps ∈ ["^", "^1", "~", "~1", "~0~1"],
      withDrafts.alone ⟨[]⟩ 4 ("4444" ++ steps).toList = .error .internal) ∧
    Fragment.read? "3333".toList = some ⟨"3333".toList, []⟩ ∧ '\x00' ∉ "3333".toList ∧
    withDrafts.base "3333" = .ok (some (draft, .digits)) ∧
    withDrafts.destination draft [.parent 1] = .ok (some firstChange) ∧
    withDrafts.alone ⟨[]⟩ 4 "1111".toList = .ok (some (.ofCommit "1111" firstChange)) ∧
    withDrafts.alone ⟨[]⟩ 4 "3333^".toList = .ok none := by
  have hbase : withDrafts.base "4444" = .error .internal := by decide +kernel
  have hreads : ∀ steps ∈ ["^", "^1", "~", "~1", "~0~1"],
      (Fragment.read? ("4444" ++ steps).toList).map Fragment.base = some "4444".toList := by
    decide +kernel
  refine ⟨withDrafts_complete, by decide +kernel, by decide, fun steps hsteps => ?_, by decide +kernel,
    by decide, by decide +kernel, by decide +kernel, by decide +kernel, by decide +kernel⟩
  obtain ⟨fragment, hread, hsame⟩ := Option.map_eq_some_iff.mp (hreads steps hsteps)
  have hfails : withDrafts.base (String.ofList fragment.base) = .error .internal := by rw [hsame]; exact hbase
  exact congrArg Prod.fst (resolveFragment_of_base_error hread hfails (.empty ⟨[]⟩ 4))

end GuardedRevision.Repository
