import GuardedRevision.Proofs.Answerable
import GuardedRevision.Proofs.HiddenObjects
import GuardedRevision.Proofs.Spelling

/-!
# The longest prefix

A text with a path is cut where its longest prefix ends that names something. Prefixes are tried one
after another on a memo that each of them may change, yet each answers what it answers alone.
-/

namespace GuardedRevision

open Text (IsCut)

namespace Text

theorem pairwise_pathSplits (text : List Char) :
    (pathSplits text).Pairwise fun shorter longer => shorter.1.length < longer.1.length := by
  induction text with
  | nil => exact List.pairwise_singleton _ _
  | cons c rest ih =>
      have hlonger : ((pathSplits rest).map fun cut => (c :: cut.1, cut.2)).Pairwise
          fun shorter longer => shorter.1.length < longer.1.length :=
        ih.map _ fun _ _ hless => Nat.succ_lt_succ hless
      rw [pathSplits]
      split
      · refine List.pairwise_cons.mpr ⟨fun cut hmem => ?_, hlonger⟩
        obtain ⟨shorter, _, rfl⟩ := List.mem_map.mp hmem
        exact Nat.succ_pos _
      · exact hlonger

end Text

theorem Expression.pairwise_candidates (text : List Char) :
    (candidates text).Pairwise fun longer shorter => shorter.1.length < longer.1.length :=
  (List.pairwise_reverse.mpr (Text.pairwise_pathSplits text)).filter _

theorem Expression.read?_of_unmarked {text : List Char} (hne : body text ≠ [])
    (hdots : ¬ ['.', '.'] <:+: body text) (hmark : ¬ ['^', '!'] <:+: body text) :
    read? text = some (.single (body text)) := by
  have hbreak : ∀ {mark : List Char}, mark ≠ [] → ¬ mark <:+: body text →
      Text.breakOn mark (body text) = none := by
    intro mark hmark hnot
    rw [← Text.occursIn_iff hmark, Text.occursIn, Option.isSome_iff_ne_none, not_not] at hnot
    exact hnot
  rw [read?, if_neg (by simpa using hne), ofBody, hbreak (by simp) hdots, hbreak (by simp) hmark]

/-! ### Which prefix decides -/

section Mapped

variable {α β : Type} {change : α → β} {answer : Except Fault (Option α)}

theorem mapped_eq_some_iff {value : β} :
    answer.map (Option.map change) = .ok (some value) ↔
      ∃ found, answer = .ok (some found) ∧ change found = value := by
  match answer with
  | .error fault => simp [Except.map]
  | .ok none => simp [Except.map]
  | .ok (some found) => simp [Except.map]

theorem mapped_eq_none_iff : answer.map (Option.map change) = .ok none ↔ answer = .ok none := by
  match answer with
  | .error fault => simp [Except.map]
  | .ok found => simp [Except.map]

theorem mapped_eq_error_iff {fault : Fault} :
    answer.map (Option.map change) = .error fault ↔ answer = .error fault := by
  match answer with
  | .error fault => simp [Except.map]
  | .ok found => simp [Except.map]

end Mapped

section Prefixes

variable {answers : List Char → Except Fault (Option Revision)} {text front path other left : List Char}
  {answer : Except Fault (Option (Revision × List Char))}

/-- A cut that is tried: every longer prefix answers `none`. -/
structure Tried (answers : List Char → Except Fault (Option Revision)) (text front path : List Char) :
    Prop where
  cut : IsCut text front path
  longer : ∀ {other left : List Char}, IsCut text other left → front.length < other.length →
    answers other = .ok none

theorem Tried.unique (tried : Tried answers text front path) (also : Tried answers text other left)
    (hspeaks : answers front ≠ .ok none) (hother : answers other ≠ .ok none) :
    front = other ∧ path = left := by
  have hlength : front.length = other.length := by
    rcases Nat.lt_trichotomy front.length other.length with hless | heq | hless
    · exact absurd (tried.longer also.cut hless) hother
    · exact heq
    · exact absurd (also.longer tried.cut hless) hspeaks
  exact List.append_inj (tried.cut.whole.trans also.cut.whole.symm) hlength

/-- The answer that prefixes lead to: that of the longest one that answers anything but `none`. -/
def Settles (answers : List Char → Except Fault (Option Revision)) (text : List Char)
    (answer : Except Fault (Option (Revision × List Char))) : Prop :=
  (∃ front path, Tried answers text front path ∧ answers front ≠ .ok none ∧
    answer = (answers front).map (Option.map fun revision => (revision, path))) ∨
  (answer = .ok none ∧ ∀ front path, IsCut text front path → answers front = .ok none)

theorem Settles.unique {also : Except Fault (Option (Revision × List Char))}
    (settles : Settles answers text answer) (hother : Settles answers text also) : answer = also := by
  rcases settles with ⟨front, path, tried, hspeaks, rfl⟩ | ⟨rfl, hsilent⟩
  · rcases hother with ⟨other, left, triedOther, hspeaksOther, rfl⟩ | ⟨_, hsilent⟩
    · obtain ⟨rfl, rfl⟩ := tried.unique triedOther hspeaks hspeaksOther
      rfl
    · exact absurd (hsilent front path tried.cut) hspeaks
  · rcases hother with ⟨other, left, triedOther, hspeaksOther, rfl⟩ | ⟨rfl, _⟩
    · exact absurd (hsilent other left triedOther.cut) hspeaksOther
    · rfl

theorem settles_some_iff {revision : Revision} : Settles answers text (.ok (some (revision, path))) ↔
    ∃ front, Tried answers text front path ∧ answers front = .ok (some revision) := by
  constructor
  · rintro (⟨front, left, tried, _, heq⟩ | ⟨heq, _⟩)
    · obtain ⟨found, hanswer, hpair⟩ := mapped_eq_some_iff.mp heq.symm
      cases hpair
      exact ⟨front, tried, hanswer⟩
    · cases heq
  · rintro ⟨front, tried, hanswer⟩
    refine .inl ⟨front, path, tried, by simp [hanswer], ?_⟩
    rw [hanswer]
    rfl

theorem settles_none_iff :
    Settles answers text (.ok none) ↔ ∀ front path, IsCut text front path → answers front = .ok none := by
  constructor
  · rintro (⟨front, left, _, hspeaks, heq⟩ | ⟨_, hsilent⟩)
    · exact absurd (mapped_eq_none_iff.mp heq.symm) hspeaks
    · exact hsilent
  · exact fun hsilent => .inr ⟨rfl, hsilent⟩

theorem settles_error_iff {fault : Fault} : Settles answers text (.error fault) ↔
    ∃ front path, Tried answers text front path ∧ answers front = .error fault := by
  constructor
  · rintro (⟨front, path, tried, _, heq⟩ | ⟨heq, _⟩)
    · exact ⟨front, path, tried, mapped_eq_error_iff.mp heq.symm⟩
    · cases heq
  · rintro ⟨front, path, tried, hanswer⟩
    exact .inl ⟨front, path, tried, by simp [hanswer], (mapped_eq_error_iff.mpr hanswer).symm⟩

end Prefixes

/-! ### Prefixes on a memo -/

namespace Repository

/-- What a prefix alone answers to a memo that remembers nothing. -/
def alone (repo : Repository) (policy : BrowsePolicy) (capacity : Nat) (front : List Char) :
    Except Fault (Option Revision) :=
  ((repo.resolveFragment [] front).on (.empty policy capacity)).1

/-- The memo after texts were resolved as fragments, one after another. -/
def afterEach (repo : Repository) (memo : VisibilityMemo) (texts : List (List Char)) : VisibilityMemo :=
  texts.foldl (fun memo text => ((repo.resolveFragment [] text).on memo).2) memo

variable {policy : BrowsePolicy} {capacity : Nat} {repo : Repository} {memo : VisibilityMemo}
  {candidates : List (List Char × List Char)} {text front : List Char}

theorem alone_nil : repo.alone policy capacity [] = .ok none := rfl

namespace Complete

open VisibilityMemo

variable (complete : repo.Complete)
include complete

theorem resolveFragment_alone (capacity : Nat) (truthful : memo.Truthful policy repo []) (front : List Char) :
    ((repo.resolveFragment [] front).on memo).1 = repo.alone policy capacity front ∧
      ((repo.resolveFragment [] front).on memo).2.Truthful policy repo [] := by
  obtain ⟨hsame, hafter⟩ := resolveFragment_related
    (isVisible_related_agreeing complete (List.forall_mem_nil _)) front memo (.empty policy capacity)
    (Agreeing.of_truthful truthful truthful_empty)
  exact ⟨hsame, hafter.leftTruthful⟩

theorem afterEach_truthful (truthful : memo.Truthful policy repo []) (texts : List (List Char)) :
    (repo.afterEach memo texts).Truthful policy repo [] := by
  induction texts generalizing memo with
  | nil => exact truthful
  | cons text rest ih => exact ih (complete.resolveFragment_alone 0 truthful text).2

/-- Of prefixes that are tried from the longest on, the first that answers anything but `none` decides. -/
theorem resolveFirst_decides (capacity : Nat) (truthful : memo.Truthful policy repo [])
    (hdecreasing : candidates.Pairwise fun longer shorter => shorter.1.length < longer.1.length) :
    (∃ front path, (front, path) ∈ candidates ∧ repo.alone policy capacity front ≠ .ok none ∧
      (∀ other ∈ candidates, front.length < other.1.length →
        repo.alone policy capacity other.1 = .ok none) ∧
      ((repo.resolveFirst candidates).on memo).1 =
        (repo.alone policy capacity front).map (Option.map fun revision => (revision, path))) ∨
    (((repo.resolveFirst candidates).on memo).1 = .ok none ∧
      ∀ cut ∈ candidates, repo.alone policy capacity cut.1 = .ok none) := by
  induction candidates generalizing memo with
  | nil => exact .inr ⟨rfl, by simp⟩
  | cons cut shorter ih =>
      obtain ⟨hfirst, hshorter⟩ := List.pairwise_cons.mp hdecreasing
      obtain ⟨halone, hafter⟩ := complete.resolveFragment_alone capacity truthful cut.1
      have hlongest : ∀ other ∈ cut :: shorter, cut.1.length < other.1.length →
          repo.alone policy capacity other.1 = .ok none := by
        intro other hmem hless
        rcases List.mem_cons.mp hmem with rfl | hmem
        · exact absurd hless (Nat.lt_irrefl _)
        · exact absurd hless (Nat.lt_asymm (hfirst other hmem))
      rw [resolveFirst, Asking.bind_on]
      rcases hresolve : (repo.resolveFragment [] cut.1).on memo with ⟨result, after⟩
      rw [hresolve] at halone hafter
      dsimp only at halone hafter
      cases result with
      | error fault =>
          refine .inl ⟨cut.1, cut.2, List.mem_cons_self, by simp [← halone], hlongest, ?_⟩
          rw [← halone]
          rfl
      | ok found =>
          cases found with
          | some revision =>
              refine .inl ⟨cut.1, cut.2, List.mem_cons_self, by simp [← halone], hlongest, ?_⟩
              rw [← halone]
              rfl
          | none =>
              rcases ih hafter hshorter with ⟨front, path, hmem, hspeaks, hlonger, heq⟩ | ⟨heq, hsilent⟩
              · refine .inl ⟨front, path, List.mem_cons_of_mem _ hmem, hspeaks, ?_, heq⟩
                exact List.forall_mem_cons.mpr ⟨fun _ => halone.symm, hlonger⟩
              · exact .inr ⟨heq, List.forall_mem_cons.mpr ⟨halone.symm, hsilent⟩⟩

theorem resolveWithPath_settles (capacity : Nat) (truthful : memo.Truthful policy repo []) (text : List Char) :
    Settles (repo.alone policy capacity) text ((repo.resolveWithPath text).on memo).1 := by
  -- The empty prefix is no candidate, and names nothing.
  have hmem : ∀ {front path}, IsCut text front path → repo.alone policy capacity front = .ok none ∨
      (front, path) ∈ Expression.candidates text := by
    intro front path hcut
    cases front with
    | nil => exact .inl alone_nil
    | cons c rest => exact .inr (Expression.mem_candidates_iff.mpr ⟨List.cons_ne_nil _ _, hcut⟩)
  rcases complete.resolveFirst_decides capacity truthful (Expression.pairwise_candidates text) with
    ⟨front, path, hcandidate, hspeaks, hlonger, heq⟩ | ⟨heq, hsilent⟩
  · refine .inl ⟨front, path, ⟨(Expression.mem_candidates_iff.mp hcandidate).2, ?_⟩, hspeaks, heq⟩
    intro other left hcut hless
    exact (hmem hcut).elim id fun hother => hlonger _ hother hless
  · exact .inr ⟨heq, fun front path hcut => (hmem hcut).elim id fun hother => hsilent _ hother⟩

theorem exists_alone {fragment : Fragment} (hread : Fragment.read? front = some fragment)
    (seeks : repo.CanSeek (String.ofList fragment.base)) :
    ∃ found, repo.alone policy capacity front = .ok found := by
  have hnil : [] ∉ (String.ofList fragment.base).toList.splitOn '/' := by
    rw [String.toList_ofList]
    exact Fragment.nil_notMem_of_read? hread
  exact complete.exists_resolveFragment (List.forall_mem_nil _) hread (complete.exists_base seeks hnil) _

end Complete

def ofSide (side : Revision × List Char) : Resolution := ⟨side.1, none, String.ofList side.2⟩

theorem ofSide_eq_iff {side : Revision × List Char} {resolution : Resolution} : ofSide side = resolution ↔
    resolution.old = none ∧ side = (resolution.revision, resolution.path.toList) := by
  obtain ⟨revision, old, path⟩ := resolution
  constructor
  · rintro heq
    cases heq
    simp
  · rintro ⟨rfl, rfl⟩
    simp [ofSide]

/-- What decides about a text of the form without marks: the longest prefix that alone answers anything but
`none`, and its answer. -/
structure LongestWins (repo : Repository) (policy : BrowsePolicy) (capacity : Nat) (text : String) : Prop where
  found : ∀ resolution,
    ((repo.resolve text).on (.empty policy capacity)).1 = .ok (some resolution) ↔ resolution.old = none ∧
      ∃ front,
        Tried (repo.alone policy capacity) (Expression.body text.toList) front resolution.path.toList ∧
        repo.alone policy capacity front = .ok (some resolution.revision)
  silent : ((repo.resolve text).on (.empty policy capacity)).1 = .ok none ↔
    ∀ front path, IsCut (Expression.body text.toList) front path →
      repo.alone policy capacity front = .ok none
  failed : ∀ fault, ((repo.resolve text).on (.empty policy capacity)).1 = .error fault ↔
    ∃ front path, Tried (repo.alone policy capacity) (Expression.body text.toList) front path ∧
      repo.alone policy capacity front = .error fault
  /-- Prefixes fail only where the store cannot look for what they name. -/
  faultless : ∀ front path fragment, IsCut (Expression.body text.toList) front path →
    Fragment.read? front = some fragment →
    (∀ name ∈ refNamesOf (String.ofList fragment.base), name.utf8ByteSize ≤ maxNameBytes) →
    (ObjectId.isHashLike (String.ofList fragment.base) = true → ∀ id ∈ repo.ids,
      id.fits (String.ofList fragment.base) = true → repo.Holds id) →
    ∃ found, repo.alone policy capacity front = .ok found
  /-- It does not matter what was resolved before. -/
  apart : ∀ earlier front,
    ((repo.resolveFragment [] front).on (repo.afterEach (.empty policy capacity) earlier)).1 =
      repo.alone policy capacity front

theorem Complete.resolve_settles (complete : repo.Complete) (policy : BrowsePolicy) (capacity : Nat)
    {text : String} (hdots : ¬ ['.', '.'] <:+: Expression.body text.toList)
    (hmark : ¬ ['^', '!'] <:+: Expression.body text.toList) :
    ∃ answer, Settles (repo.alone policy capacity) (Expression.body text.toList) answer ∧
      ((repo.resolve text).on (.empty policy capacity)).1 = answer.map (Option.map ofSide) := by
  by_cases hempty : Expression.body text.toList = []
  · refine ⟨.ok none, settles_none_iff.mpr fun front path hcut => ?_, ?_⟩
    · obtain ⟨rfl, _⟩ := List.append_eq_nil_iff.mp (hcut.whole.trans hempty)
      exact alone_nil
    · have hread : Expression.read? text.toList = none := by simp [Expression.read?, hempty]
      unfold resolve
      rw [hread]
      rfl
  · have hread := Expression.read?_of_unmarked hempty hdots hmark
    have hfresh : (VisibilityMemo.empty policy capacity).Truthful policy repo [] :=
      VisibilityMemo.truthful_empty
    refine ⟨_, complete.resolveWithPath_settles capacity hfresh _, ?_⟩
    unfold resolve
    rw [hread]
    dsimp only [resolveExpression]
    rw [Asking.bind_on]
    rcases (repo.resolveWithPath (Expression.body text.toList)).on (.empty policy capacity) with ⟨result, _⟩
    cases result with
    | error fault => rfl
    | ok found => rfl

/-- On a complete repository the longest prefix that answers anything but `none` decides, whatever was tried before. -/
theorem Complete.longestWins (complete : repo.Complete) (policy : BrowsePolicy) (capacity : Nat) {text : String}
    (hdots : ¬ ['.', '.'] <:+: Expression.body text.toList)
    (hmark : ¬ ['^', '!'] <:+: Expression.body text.toList)
    (hplain : '\x00' ∉ Expression.body text.toList) : repo.LongestWins policy capacity text := by
  obtain ⟨answer, settles, hresolve⟩ := complete.resolve_settles policy capacity hdots hmark
  have hanswer : ∀ {other}, answer = other ↔
      Settles (repo.alone policy capacity) (Expression.body text.toList) other :=
    ⟨fun heq => heq ▸ settles, settles.unique⟩
  constructor
  case found =>
    intro resolution
    rw [hresolve, mapped_eq_some_iff, ← settles_some_iff, ← hanswer]
    constructor
    · rintro ⟨side, hside, hsame⟩
      obtain ⟨hold, rfl⟩ := ofSide_eq_iff.mp hsame
      exact ⟨hold, hside⟩
    · rintro ⟨hold, hside⟩
      exact ⟨_, hside, ofSide_eq_iff.mpr ⟨hold, rfl⟩⟩
  case silent => rw [hresolve, mapped_eq_none_iff, hanswer, settles_none_iff]
  case failed =>
    intro fault
    rw [hresolve, mapped_eq_error_iff, hanswer, settles_error_iff]
  case faultless =>
    intro front path fragment hcut hread hshort hreadable
    refine complete.exists_alone hread ⟨fun hmem => hplain ?_, hshort, hreadable⟩
    obtain ⟨marks, hfront, _⟩ := (Fragment.read?_eq_some_iff.mp hread).written
    rw [String.toList_ofList] at hmem
    rw [← hcut.whole, hfront]
    exact List.mem_append_left _ (List.mem_append_left _ hmem)
  case apart =>
    intro earlier front
    exact (complete.resolveFragment_alone capacity
      (complete.afterEach_truthful VisibilityMemo.truthful_empty earlier) front).1

/-- The whole text is tried before the ref that it begins with. -/
theorem longestWins_underReview :
    underReview.Complete ∧
    ¬ ['.', '.'] <:+: Expression.body "refs/changes/1/README".toList ∧
    ¬ ['^', '!'] <:+: Expression.body "refs/changes/1/README".toList ∧
    '\x00' ∉ Expression.body "refs/changes/1/README".toList ∧
    underReview.LongestWins ⟨["refs/changes/"]⟩ 4 "refs/changes/1/README" ∧
    underReview.alone ⟨["refs/changes/"]⟩ 4 "refs/changes/1/README".toList = .ok none ∧
    underReview.alone ⟨["refs/changes/"]⟩ 4 "refs/changes/1".toList =
      .ok (some (.ofCommit "refs/changes/1" secondChange)) := by
  have hdots : ¬ ['.', '.'] <:+: Expression.body "refs/changes/1/README".toList := by decide
  have hmark : ¬ ['^', '!'] <:+: Expression.body "refs/changes/1/README".toList := by decide
  have hplain : '\x00' ∉ Expression.body "refs/changes/1/README".toList := by decide
  exact ⟨underReview_complete, hdots, hmark, hplain, underReview_complete.longestWins _ 4 hdots hmark hplain,
    by decide +kernel, by decide +kernel⟩

/-- A prefix of which the store holds what it cannot read fails, and no prefix resolves. -/
theorem longest_fails_tornDraft :
    withDrafts.Complete ∧
    ¬ ['.', '.'] <:+: Expression.body tornDraft.text.toList ∧
    ¬ ['^', '!'] <:+: Expression.body tornDraft.text.toList ∧
    '\x00' ∉ Expression.body tornDraft.text.toList ∧
    (∀ front path, IsCut (Expression.body tornDraft.text.toList) front path →
      ∀ revision, withDrafts.alone ⟨["refs/changes/"]⟩ 4 front ≠ .ok (some revision)) ∧
    ((withDrafts.resolve tornDraft.text).on (.empty ⟨["refs/changes/"]⟩ 4)).1 ≠ .ok none := by
  have hdots : ¬ ['.', '.'] <:+: Expression.body tornDraft.text.toList := by decide +kernel
  have hmark : ¬ ['^', '!'] <:+: Expression.body tornDraft.text.toList := by decide +kernel
  have hcuts : Text.pathSplits (Expression.body tornDraft.text.toList) = [(tornDraft.text.toList, [])] := by
    decide +kernel
  have hfails : withDrafts.alone ⟨["refs/changes/"]⟩ 4 tornDraft.text.toList = .error .internal := by
    decide +kernel
  have honly : ∀ {front path}, IsCut (Expression.body tornDraft.text.toList) front path ↔
      front = tornDraft.text.toList ∧ path = [] := by
    intro front path
    rw [← Text.mem_pathSplits_iff, hcuts, List.mem_singleton, Prod.mk.injEq]
  refine ⟨withDrafts_complete, hdots, hmark, by decide +kernel, ?_, ?_⟩
  · intro front path hcut revision hrevision
    rw [(honly.mp hcut).1, hfails] at hrevision
    cases hrevision
  · intro hnone
    obtain ⟨answer, settles, hresolve⟩ := withDrafts_complete.resolve_settles ⟨["refs/changes/"]⟩ 4 hdots hmark
    rw [hresolve, mapped_eq_none_iff] at hnone
    rw [hnone, settles_none_iff] at settles
    have hsilent := settles _ _ (honly.mpr ⟨rfl, rfl⟩)
    rw [hfails] at hsilent
    cases hsilent

end Repository

end GuardedRevision
