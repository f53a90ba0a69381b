import GuardedRevision.Proofs.Abbreviations

/-!
# Texts that can be answered

A complete repository answers whatever it can look for. It cannot look for a text that is no file name:
one with a NUL in it, or one that is too long. Nor can it tell what an object is that it cannot read.
-/

namespace GuardedRevision

open Repository

variable {repo : Repository} {memo : VisibilityMemo} {id : ObjectId} {roots : List ObjectId}
  {name base text : String} {fragmentText : List Char} {fragment : Fragment}
  {expression : Expression} {steps : List Step}

/-- A store can look for the base under every name that it may stand for, and can read what its digits
fit. -/
structure Repository.CanSeek (repo : Repository) (base : String) : Prop where
  plain : '\x00' ∉ base.toList
  short : ∀ name ∈ refNamesOf base, name.utf8ByteSize ≤ maxNameBytes
  readable : ObjectId.isHashLike base = true → ∀ id ∈ repo.ids, id.fits base = true → repo.Holds id

/-- Whatever is remembered, the computation ends without a fault. -/
def Asking.Ends {α : Type} (asking : Asking α) : Prop :=
  ∀ memo, ∃ value after, Gives asking memo value after

namespace Asking

variable {α β : Type}

theorem Ends.pure (value : α) : Ends (pure value) := fun memo => ⟨value, memo, gives_pure.mpr ⟨rfl, rfl⟩⟩

theorem Ends.bind {first : Asking α} {rest : α → Asking β} (hfirst : Ends first)
    (hrest : ∀ value before after, Gives first before value after → Ends (rest value)) :
    Ends (first >>= rest) := by
  intro memo
  obtain ⟨found, middle, hfound⟩ := hfirst memo
  obtain ⟨value, after, hvalue⟩ := hrest found memo middle hfound middle
  exact ⟨value, after, gives_bind.mpr ⟨found, middle, hfound, hvalue⟩⟩

theorem Ends.liftM {found : Except Fault α} (hfound : ∃ value, found = .ok value) :
    Ends (liftM found) := by
  obtain ⟨value, rfl⟩ := hfound
  exact .pure value

theorem ends_composes : Composes fun _ asking _ => Ends asking := ⟨Ends.pure, Ends.bind⟩

end Asking

/-! ### Names -/

theorem Expression.nil_notMem_of_mem_bases (hmem : base ∈ bases text) :
    [] ∉ base.toList.splitOn '/' := by
  unfold bases at hmem
  split at hmem
  · cases hmem
  · obtain ⟨fragment, hfragment, rfl⟩ := List.mem_map.mp hmem
    obtain ⟨_, _, hread⟩ := List.mem_filterMap.mp hfragment
    rw [String.toList_ofList]
    exact Fragment.nil_notMem_of_read? hread

theorem ObjectId.of_parse (hparse : parse base = .ok id) (hlike : isHashLike base = true)
    (hfew : base.utf8ByteSize ≤ storeDigits) : id.isStorable = true ∧ id.fits base = true := by
  have hlower : base.toLower.utf8ByteSize = base.utf8ByteSize := by
    simp only [isHashLike, Bool.and_eq_true, List.all_eq_true] at hlike
    exact utf8ByteSize_toLower hlike.2
  unfold parse at hparse
  dsimp only at hparse
  split at hparse
  · cases hparse
  · next hsize =>
      split at hparse
      · cases hparse
        rw [hlower] at hsize
        have hlong : storeDigits < longDigits := by decide
        refine ⟨?_, List.isPrefixOf_iff_prefix.mpr (List.prefix_refl _)⟩
        rw [isStorable, beq_iff_eq]
        change base.toLower.utf8ByteSize = storeDigits
        omega
      · cases hparse

namespace Repository

theorem of_mem_refNamesOf (hnil : [] ∉ base.toList.splitOn '/') (hmem : name ∈ refNamesOf base) :
    [] ∉ name.toList.splitOn '/' ∧ (RefName.isUnder refFolder name = true ∨ name = "HEAD") := by
  have hlong : ∀ folder : String, [] ∉ folder.toList.splitOn '/' →
      RefName.isUnder refFolder folder = true → [] ∉ (folder ++ "/" ++ base).toList.splitOn '/' ∧
        RefName.isUnder refFolder (folder ++ "/" ++ base) = true := by
    intro folder hfolder hunder
    have hlist : (folder ++ "/" ++ base).toList = folder.toList ++ '/' :: base.toList := by simp
    rw [RefName.isUnder, hlist, List.splitOn_append_cons_self, List.mem_append]
    exact ⟨not_or.mpr ⟨hfolder, hnil⟩, List.isPrefixOf_iff_prefix.mpr
      ((List.isPrefixOf_iff_prefix.mp hunder).trans (List.prefix_append _ _))⟩
  unfold refNamesOf at hmem
  split at hmem
  · next hplace =>
      rw [List.mem_singleton] at hmem
      subst hmem
      exact ⟨hnil, by simpa [refFolder] using hplace⟩
  · rcases List.mem_pair.mp hmem with rfl | rfl
    · obtain ⟨htags, hunder⟩ := hlong "refs/tags" (by decide) (by decide)
      exact ⟨htags, .inl hunder⟩
    · obtain ⟨hheads, hunder⟩ := hlong "refs/heads" (by decide) (by decide)
      exact ⟨hheads, .inl hunder⟩

theorem notMem_of_mem_refNamesOf (hplain : '\x00' ∉ base.toList) (hmem : name ∈ refNamesOf base) :
    '\x00' ∉ name.toList := by
  unfold refNamesOf at hmem
  split at hmem
  · rw [List.mem_singleton] at hmem
    rwa [hmem]
  · rcases List.mem_pair.mp hmem with rfl | rfl
    · rw [String.toList_append, List.mem_append]
      exact not_or.mpr ⟨by decide, hplain⟩
    · rw [String.toList_append, List.mem_append]
      exact not_or.mpr ⟨by decide, hplain⟩

/-- None of the files that every repository has is where a ref is looked for. -/
theorem refValue_cases (hnil : [] ∉ name.toList.splitOn '/')
    (hplace : RefName.isUnder refFolder name = true ∨ name = "HEAD") (hplain : '\x00' ∉ name.toList)
    (hshort : name.utf8ByteSize ≤ maxNameBytes) :
    repo.refValue name = .ok none ∨
      ∃ value, repo.refValue name = .ok (some value) ∧ repo.refs.lookup name = some value := by
  have hstart : name.toList.head? = some 'r' ∨ name = "HEAD" := by
    refine hplace.imp_left fun hunder => ?_
    obtain ⟨rest, hrest⟩ := List.isPrefixOf_iff_prefix.mp hunder
    rw [← hrest]
    rfl
  have hother : ∀ text : String, text.toList.head? ≠ some 'r' → text ≠ "HEAD" → name ≠ text := by
    rintro text hhead hne rfl
    exact hstart.elim hhead hne
  have hcaret : name.toList.head? ≠ some '^' := by
    rcases hstart with hhead | rfl
    · rw [hhead]
      decide
    · decide
  unfold refValue
  rw [if_neg (by simpa using hplain)]
  split
  · exact .inl rfl
  · next stored hstored =>
      rw [RefName.eq_of_storeName? hnil (hother "@" (by decide) (by decide)) hstored,
        if_neg (Nat.not_lt.mpr hshort)]
      have hdots := RefName.head_ne_dot_of_storeName? hcaret hnil hstored
      rcases @read_cases repo name hnil hdots with habsent | hoverlong | hfile
      · rw [habsent]
        exact .inl rfl
      · rw [hoverlong]
        exact .inl rfl
      · cases hread : repo.read name with
        | ref value => exact .inr ⟨value, rfl, lookup_of_read hnil hdots hread⟩
        | absent => exact .inl rfl
        | overlong => exact .inl rfl
        | foreign =>
            rw [hread] at hfile
            simp only [fileAt, RefName.ofComponents_splitOn] at hfile
            split at hfile
            · cases hfile
            · split at hfile
              · next hown =>
                  have hfree : ∀ own ∈ ownFiles, own.toList.head? ≠ some 'r' ∧ own ≠ "HEAD" := by decide
                  obtain ⟨hhead, hne⟩ := hfree name (List.contains_iff_mem.mp hown)
                  exact absurd rfl (hother name hhead hne)
              · cases hfile

theorem mem_ids_of_internal (hstorable : id.isStorable = true)
    (hobject : repo.object id = .error .internal) : id ∈ repo.ids := by
  unfold Repository.object at hobject
  rw [if_pos hstorable] at hobject
  split at hobject
  · cases hobject
  · next kind hlookup =>
      obtain ⟨before, after, heq, _⟩ := List.lookup_eq_some_iff.mp hlookup
      unfold ids
      rw [List.mem_eraseDups, List.mem_filter]
      exact ⟨by simp [heq], hstorable⟩
  · split at hobject
    · cases hobject
    · cases hobject

theorem exists_present (hreadable : repo.object id = .error .internal → repo.Holds id) :
    ∃ found, repo.present id = .ok found := by
  unfold present
  cases hobject : repo.object id with
  | ok object => exact ⟨some id, rfl⟩
  | error fault =>
      rcases object_error hobject with rfl | rfl
      · exact ⟨none, rfl⟩
      · obtain ⟨object, hread⟩ := hreadable hobject
        rw [hobject] at hread
        cases hread

theorem exists_withDigits? (hreadable : ObjectId.isHashLike base = true →
    ∀ id ∈ repo.ids, id.fits base = true → repo.Holds id) :
    ∃ found, repo.withDigits? base = .ok found := by
  unfold withDigits?
  split
  · next hlike =>
      obtain ⟨hhash, hfew⟩ := Bool.and_eq_true_iff.mp hlike
      split
      · next id hparse =>
          refine exists_present fun hinternal => ?_
          obtain ⟨hstorable, hfits⟩ := ObjectId.of_parse hparse hhash (of_decide_eq_true hfew)
          exact hreadable hhash id (mem_ids_of_internal hstorable hinternal) hfits
      · dsimp only
        split
        · next id honly =>
            obtain ⟨hid, hfits⟩ := List.mem_filter.mp (honly ▸ List.mem_singleton_self id)
            exact exists_present fun _ => hreadable hhash id hid hfits
        · exact ⟨none, rfl⟩
  · exact ⟨none, rfl⟩

theorem exists_firstRef {names : List String}
    (hnames : ∀ name ∈ names, ∃ found, repo.findRef name = .ok found) :
    ∃ found, repo.firstRef names = .ok found := by
  induction names with
  | nil => exact ⟨none, rfl⟩
  | cons name rest ih =>
      obtain ⟨hname, hrest⟩ := List.forall_mem_cons.mp hnames
      obtain ⟨found, hfound⟩ := hname
      rw [Repository.firstRef, hfound]
      cases found with
      | none => exact ih hrest
      | some entry => exact ⟨some entry, rfl⟩

/-! ### Look-ups that do not fail -/

namespace Complete

variable (complete : repo.Complete)
include complete

theorem exists_findRef (hnil : [] ∉ name.toList.splitOn '/')
    (hplace : RefName.isUnder refFolder name = true ∨ name = "HEAD") (hplain : '\x00' ∉ name.toList)
    (hshort : name.utf8ByteSize ≤ maxNameBytes) : ∃ found, repo.findRef name = .ok found := by
  unfold findRef
  rcases @refValue_cases repo name hnil hplace hplain hshort with hnone | ⟨value, hvalue, hlookup⟩
  · rw [hnone]
    exact ⟨none, rfl⟩
  · rw [hvalue]
    obtain ⟨before, after, heq, _⟩ := List.lookup_eq_some_iff.mp hlookup
    have hmem : (name, value) ∈ repo.refs := by simp [heq]
    rcases complete.settled (name, value) hmem with habsent | ⟨target, hfollow⟩
    · exact ⟨none, by simp only [bind, Except.bind, habsent]; rfl⟩
    · obtain ⟨parsed, hparsed⟩ := complete.names (name, value) hmem
      have hname : RefName.parse name = .ok parsed := by
        rw [← parsed.parse_text, hparsed]
      have points : repo.Points name target := ⟨value, hlookup, hfollow⟩
      obtain ⟨last, peels⟩ := complete.exists_peelsTo (complete.holds_of_points points)
      obtain ⟨peeled, hpeeled⟩ := peels.exists_peelTag
      exact ⟨some ⟨parsed, target, peeled⟩, by
        simp only [bind, Except.bind, hfollow, hname, Except.mapError, hpeeled]; rfl⟩

theorem exists_base (seeks : repo.CanSeek base) (hnil : [] ∉ base.toList.splitOn '/') :
    ∃ found, repo.base base = .ok found := by
  have hnames : ∀ name ∈ refNamesOf base, ∃ found, repo.findRef name = .ok found := by
    intro name hmem
    obtain ⟨hname, hplace⟩ := of_mem_refNamesOf hnil hmem
    exact complete.exists_findRef hname hplace (notMem_of_mem_refNamesOf seeks.plain hmem)
      (seeks.short name hmem)
  obtain ⟨entry, hentry⟩ := exists_firstRef hnames
  obtain ⟨digits, hdigits⟩ := exists_withDigits? seeks.readable
  unfold Repository.base
  rw [hentry, hdigits]
  cases entry with
  | none => exact ⟨_, rfl⟩
  | some entry => exact ⟨_, rfl⟩

theorem exists_peelToCommit (holds : repo.Holds id) : ∃ found, repo.peelToCommit id = .ok found := by
  obtain ⟨last, peels⟩ := complete.exists_peelsTo holds
  exact ⟨_, peelToCommit_eq_ok_iff.mpr ⟨last, peels, rfl⟩⟩

theorem exists_ancestor (n : Nat) (hcommit : repo.isCommit id = true) :
    ∃ reached, repo.ancestor n id = .ok reached ∧ ∀ other ∈ reached, repo.isCommit other = true := by
  induction n generalizing id with
  | zero => exact ⟨some id, rfl, by simpa using hcommit⟩
  | succ n ih =>
      rw [Repository.ancestor, parents_eq_ok_iff.mpr ⟨hcommit, rfl⟩]
      cases hparents : repo.parentsOf id with
      | nil => exact ⟨none, rfl, by simp⟩
      | cons parent rest => exact ih (complete.parents (hparents ▸ List.mem_cons_self))

theorem exists_step (step : Step) (hcommit : repo.isCommit id = true) :
    ∃ reached, repo.step id step = .ok reached ∧ ∀ other ∈ reached, repo.isCommit other = true := by
  cases step with
  | ancestor n => exact complete.exists_ancestor n hcommit
  | parent n =>
      rw [Repository.step, parents_eq_ok_iff.mpr ⟨hcommit, rfl⟩]
      exact ⟨_, rfl, fun other hother => complete.parents (List.mem_of_getElem? hother)⟩

theorem exists_stepAll (steps : List Step) (hcommit : repo.isCommit id = true) :
    ∃ reached, repo.stepAll steps id = .ok reached ∧ ∀ other ∈ reached, repo.isCommit other = true := by
  induction steps generalizing id with
  | nil => exact ⟨some id, rfl, by simpa using hcommit⟩
  | cons step rest ih =>
      obtain ⟨reached, hstep, hcommits⟩ := complete.exists_step step hcommit
      rw [Repository.stepAll, hstep]
      cases reached with
      | none => exact ⟨none, rfl, by simp⟩
      | some next => exact ih (hcommits next rfl)

theorem isCommit_of_stepAll (hcommit : repo.isCommit id = true) {reached : ObjectId}
    (hsteps : repo.stepAll steps id = .ok (some reached)) : repo.isCommit reached = true := by
  obtain ⟨found, hfound, hcommits⟩ := complete.exists_stepAll steps hcommit
  cases hfound.symm.trans hsteps
  exact hcommits reached rfl

theorem exists_destination (steps : List Step) (holds : repo.Holds id) :
    ∃ reached, repo.destination id steps = .ok reached := by
  unfold Repository.destination
  split
  · exact ⟨_, rfl⟩
  · obtain ⟨found, hpeel⟩ := complete.exists_peelToCommit holds
    rw [hpeel]
    cases found with
    | none => exact ⟨none, rfl⟩
    | some start =>
        obtain ⟨reached, hreached, _⟩ := complete.exists_stepAll steps (isCommit_of_peelToCommit hpeel)
        exact ⟨reached, hreached⟩

theorem exists_revision (name : String) (holds : repo.Holds id) :
    ∃ revision, repo.revision name id = .ok revision := by
  obtain ⟨last, peels⟩ := complete.exists_peelsTo holds
  obtain ⟨kind, hkind⟩ := holds.kind
  obtain ⟨lastKind, hlast⟩ := peels.holds_right.kind
  unfold Repository.revision
  rw [hkind, peel_eq_ok_iff.mpr peels]
  simp only [bind, Except.bind, hlast]
  exact ⟨_, rfl⟩

/-! ### Resolving -/

theorem isVisible_ends (holds : repo.Holds id) (hroots : ∀ root ∈ roots, repo.Holds root) :
    (repo.isVisible id roots).Ends := by
  intro memo
  have hasks := VisibilityMemo.check_asks memo repo ⟨id, roots⟩
  obtain ⟨visible, hvisible⟩ : ∃ visible, (memo.check repo ⟨id, roots⟩).1 = .ok visible := by
    by_cases hold : (repo.scope, id) ∈ memo.visible
    · exact ⟨true, hasks.shown hold⟩
    · by_cases hdenies : memo.Denies repo ⟨id, roots⟩
      · exact ⟨false, hasks.denied hold hdenies⟩
      · obtain ⟨_, visible, _, hanswer, _⟩ :=
          @Complete.answer memo.policy repo ⟨id, roots⟩ complete hroots holds
        exact ⟨visible, (hasks.answered hold hdenies).trans hanswer⟩
  exact ⟨visible, (memo.check repo ⟨id, roots⟩).2, Prod.ext hvisible rfl⟩

theorem matching : repo.Matches repo repo.Holds fun _ asking _ => asking.Ends where
  composes := Asking.ends_composes
  found := complete.holds_of_base
  destination := fun steps holds => .liftM (complete.exists_destination steps holds)
  reached := complete.holds_of_destination
  revision := fun name _ holds => .liftM (complete.exists_revision name holds)
  peelToCommit := fun holds => .liftM (complete.exists_peelToCommit holds)
  parents := fun hcommit => .liftM ⟨_, parents_eq_ok_iff.mpr ⟨isCommit_of_peelToCommit hcommit, rfl⟩⟩

theorem exists_resolveFragment (hroots : ∀ root ∈ roots, repo.Holds root)
    (hread : Fragment.read? fragmentText = some fragment)
    (hbase : ∃ found, repo.base (String.ofList fragment.base) = .ok found) (memo : VisibilityMemo) :
    ∃ found, ((repo.resolveFragment roots fragmentText).on memo).1 = .ok found := by
  have hends : (repo.resolveFragment roots fragmentText).Ends := by
    refine complete.matching.resolveFragment (fun _ holds => complete.isVisible_ends holds hroots) ?_
    intro other hother
    obtain rfl := Option.some.inj (hread.symm.trans hother)
    exact .liftM hbase
  obtain ⟨found, after, hgives⟩ := hends memo
  exact ⟨found, congrArg Prod.fst hgives⟩

/-- Whatever has been asked before, a text is answered without a fault when the store can look for its
bases. -/
theorem exists_resolve (memo : VisibilityMemo) {text : String}
    (hseeks : ∀ base ∈ Expression.bases text, repo.CanSeek base) :
    ∃ found, ((repo.resolve text).on memo).1 = .ok found := by
  have hends : (repo.resolve text).Ends :=
    complete.matching.resolve (fun _ hroots _ holds => complete.isVisible_ends holds hroots)
      fun base hmem =>
        .liftM (complete.exists_base (hseeks base hmem) (Expression.nil_notMem_of_mem_bases hmem))
  obtain ⟨found, after, hgives⟩ := hends memo
  exact ⟨found, congrArg Prod.fst hgives⟩

end Complete

theorem exists_resolve_underReview :
    underReview.Complete ∧
    (∀ base ∈ Expression.bases "refs/changes/1/README", underReview.CanSeek base) ∧
    ∃ found, ((underReview.resolve "refs/changes/1/README").on
      ((underReview.resolve "2222^").on (.empty ⟨["refs/changes/"]⟩ 4)).2).1 = .ok found := by
  have hreadable : ∀ id ∈ underReview.ids, (underReview.object id).isOk = true := by decide +kernel
  have hnames : ∀ base ∈ Expression.bases "refs/changes/1/README", '\x00' ∉ base.toList ∧
      ∀ name ∈ refNamesOf base, name.utf8ByteSize ≤ maxNameBytes := by
    decide +kernel
  have hseeks : ∀ base ∈ Expression.bases "refs/changes/1/README", underReview.CanSeek base :=
    fun base hmem => ⟨(hnames base hmem).1, (hnames base hmem).2,
      fun _ id hid _ => holds_iff_isOk.mpr (hreadable id hid)⟩
  exact ⟨underReview_complete, hseeks, underReview_complete.exists_resolve _ hseeks⟩

/-- A text with a NUL names nothing, and is a fault all the same. -/
theorem resolve_nul_underReview :
    underReview.Complete ∧
    ((underReview.resolve "master\x00").on (.empty ⟨[]⟩ 4)).1 = .error .internal :=
  ⟨underReview_complete, by decide +kernel⟩

end Repository

end GuardedRevision
