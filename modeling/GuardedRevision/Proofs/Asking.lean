import GuardedRevision.Proofs.Outcome
import GuardedRevision.Proofs.Peeling
import GuardedRevision.Resolution

/-!
# What a resolution asks

Resolving reads the repository and asks a memo about visibility, and does nothing else with the memo.
So a relation between computations that holds of a sequence when it holds of its parts holds of whole
resolutions, in one repository or in two, once it holds of what is read and asked (`Matches.resolve`).
One such relation is that questions keep a relation between two memos and get the same answers.
-/

namespace GuardedRevision

/-- Two computations end alike, with memos that are related. -/
def SameEnd {α : Type} (relation : VisibilityMemo → VisibilityMemo → Prop)
    (left right : Except Fault α × VisibilityMemo) : Prop :=
  left.1 = right.1 ∧ relation left.2 right.2

namespace Asking

/-- Asked on memos that are related, two computations end alike, and the memos stay related. -/
def Alike {α : Type} (relation : VisibilityMemo → VisibilityMemo → Prop) (asking other : Asking α) :
    Prop :=
  ∀ left right, relation left right → SameEnd relation (asking.on left) (other.on right)

/-- Asked on memos that are related, both sides end alike, and the memos stay related. -/
def Related {α : Type} (relation : VisibilityMemo → VisibilityMemo → Prop) (asking : Asking α) :
    Prop :=
  ∀ left right, relation left right → SameEnd relation (asking.on left) (asking.on right)

variable {α β : Type} {relation final : VisibilityMemo → VisibilityMemo → Prop}
  {first other : Asking α} {rest others : α → Asking β} {left right : VisibilityMemo}

theorem bind_on (first : Asking α) (rest : α → Asking β) (memo : VisibilityMemo) :
    (first >>= rest).on memo = match first.on memo with
      | (.error fault, after) => (.error fault, after)
      | (.ok value, after) => (rest value).on after := by
  change (fun ended : Except Fault α × VisibilityMemo =>
    StateT.run (ExceptT.bindCont rest ended.1) ended.2) (first.on memo) = _
  obtain ⟨result, after⟩ := first.on memo
  cases result with
  | error fault => rfl
  | ok value => rfl

theorem gives_on {asking : Asking α} {memo : VisibilityMemo} {value : α} (hends : (asking.on memo).1 = .ok value) :
    Gives asking memo value (asking.on memo).2 := Prod.ext hends rfl

theorem on_eq {asking : Asking α} {before after : VisibilityMemo} {value : α}
    (hgives : Gives asking before value after) : asking.on before = (.ok value, after) := hgives

theorem liftM_bind_on (found : Except Fault α) (rest : α → Asking β) (memo : VisibilityMemo) :
    (liftM found >>= rest : Asking β).on memo = match found with
      | .error fault => (.error fault, memo)
      | .ok value => (rest value).on memo := by
  cases found with
  | error fault => rfl
  | ok value => rfl

theorem bind_on_of_silent (hsilent : ∀ value memo, ((rest value).on memo).2 = memo)
    (memo : VisibilityMemo) : ((first >>= rest).on memo).2 = (first.on memo).2 := by
  rw [bind_on]
  rcases first.on memo with ⟨result, after⟩
  cases result with
  | error fault => rfl
  | ok value => exact hsilent value after

theorem sameEnd_bind (hfirst : SameEnd relation (first.on left) (other.on right))
    (hexit : ∀ left right, relation left right → final left right)
    (hrest : ∀ value leftAfter rightAfter, first.on left = (.ok value, leftAfter) →
      relation leftAfter rightAfter →
      SameEnd final ((rest value).on leftAfter) ((others value).on rightAfter)) :
    SameEnd final ((first >>= rest).on left) ((other >>= others).on right) := by
  rw [bind_on, bind_on]
  rcases hleft : first.on left with ⟨leftResult, leftAfter⟩
  rcases hright : other.on right with ⟨rightResult, rightAfter⟩
  rw [hleft, hright] at hfirst
  obtain ⟨hsame, hrelated⟩ := hfirst
  dsimp only at hsame hrelated
  subst hsame
  cases leftResult with
  | error fault => exact ⟨rfl, hexit _ _ hrelated⟩
  | ok value => exact hrest value _ _ hleft hrelated

theorem Alike.pure (value : α) : Alike relation (pure value) (pure value) :=
  fun _ _ hrelated => ⟨rfl, hrelated⟩

theorem Alike.bind (hfirst : Alike relation first other)
    (hrest : ∀ value before after, Gives first before value after →
      Alike relation (rest value) (others value)) :
    Alike relation (first >>= rest) (other >>= others) :=
  fun left right hrelated =>
    sameEnd_bind (hfirst left right hrelated) (fun _ _ h => h) fun value after next hgives =>
      hrest value left after hgives after next

theorem Alike.liftM (found : Except Fault α) : Alike relation (liftM found) (liftM found) :=
  fun _ _ hrelated => ⟨rfl, hrelated⟩

/-! ### Relations that sequences keep -/

/-- A relation between computations that holds of a sequence when it holds of its parts. -/
structure Composes (same : (α : Type) → Asking α → Asking α → Prop) : Prop where
  pure : ∀ {α : Type} (value : α), same α (pure value) (pure value)
  bind : ∀ {α β : Type} {first other : Asking α} {rest others : α → Asking β}, same α first other →
    (∀ value before after, Gives first before value after → same β (rest value) (others value)) →
    same β (first >>= rest) (other >>= others)

theorem alike_composes : Composes fun α => @Alike α relation := ⟨Alike.pure, Alike.bind⟩

namespace Composes

variable {same : (α : Type) → Asking α → Asking α → Prop} (composes : Composes same)
include composes

theorem liftM_bind {found read : Except Fault α} (hfound : same α (liftM found) (liftM read))
    (hrest : ∀ value, found = .ok value → same β (rest value) (others value)) :
    same β (liftM found >>= rest) (liftM read >>= others) :=
  composes.bind hfound fun value _ _ hgives => hrest value (gives_liftM.mp hgives).1

theorem guarded {condition : Prop} [Decidable condition] {question asked : Asking Bool}
    {rest others : Asking (Option α)} (hquestion : same Bool question asked)
    (hrest : same (Option α) rest others) :
    same (Option α) (if condition then do
        let visible ← question
        if visible = true then rest else Pure.pure none
      else rest) (if condition then do
        let visible ← asked
        if visible = true then others else Pure.pure none
      else others) := by
  by_cases hcondition : condition
  · rw [if_pos hcondition, if_pos hcondition]
    refine composes.bind hquestion fun visible _ _ _ => ?_
    cases visible with
    | true => exact hrest
    | false => exact composes.pure none
  · rw [if_neg hcondition, if_neg hcondition]
    exact hrest

end Composes

end Asking

theorem gives_guarded {α : Type} {condition : Prop} [Decidable condition] {question : Asking Bool}
    {rest : Asking (Option α)} {before after : VisibilityMemo} {value : α} :
    Gives (if condition then do
        let visible ← question
        if visible = true then rest else pure none
      else rest) before (some value) after ↔
      ∃ middle, (if condition then Gives question before true middle else middle = before) ∧
        Gives rest middle (some value) after := by
  by_cases hcondition : condition
  · simp only [if_pos hcondition]
    rw [gives_bind]
    constructor
    · rintro ⟨visible, middle, hquestion, hrest⟩
      cases visible with
      | true => exact ⟨middle, hquestion, hrest⟩
      | false => cases (gives_pure.mp hrest).1
    · rintro ⟨middle, hquestion, hrest⟩
      exact ⟨true, middle, hquestion, hrest⟩
  · simp only [if_neg hcondition, exists_eq_left]

theorem gives_isVisible_iff {repo : Repository} {roots : List ObjectId} {id : ObjectId}
    {before after : VisibilityMemo} {visible : Bool} : Gives (repo.isVisible id roots) before visible after ↔
      (before.check repo ⟨id, roots⟩).1 = .ok visible ∧ (before.check repo ⟨id, roots⟩).2 = after :=
  Prod.ext_iff

theorem guarded_iff {condition : Prop} [Decidable condition] {repo : Repository} {roots : List ObjectId}
    {id : ObjectId} {before after : VisibilityMemo} :
    (if condition then Gives (repo.isVisible id roots) before true after else after = before) ↔
      condition ∧ (before.check repo ⟨id, roots⟩).1 = .ok true ∧ (before.check repo ⟨id, roots⟩).2 = after ∨
        ¬ condition ∧ before = after := by
  by_cases hcondition : condition
  · simp [hcondition, gives_isVisible_iff]
  · simp [hcondition, eq_comm]

/-! ### Bases of an expression -/

def Expression.fragments : Expression → List (List Char)
  | .range old new =>
      if old.isEmpty || new.isEmpty then [] else old :: (candidates new).map Prod.fst
  | .againstParent name rest =>
      if name.isEmpty || !(rest.isEmpty || rest.head? == some '/') then [] else [name]
  | .single text => (candidates text).map Prod.fst

/-- The bases that are looked for when a text is resolved, or would be after others were not found. -/
def Expression.bases (text : String) : List String :=
  match read? text.toList with
  | none => []
  | some expression =>
      (expression.fragments.filterMap Fragment.read?).map fun fragment => String.ofList fragment.base

theorem Expression.mem_bases {text : String} {expression : Expression} {fragmentText : List Char}
    {fragment : Fragment} (hread : read? text.toList = some expression)
    (hmem : fragmentText ∈ expression.fragments)
    (hfragment : Fragment.read? fragmentText = some fragment) :
    String.ofList fragment.base ∈ bases text := by
  unfold bases
  rw [hread]
  exact List.mem_map_of_mem (List.mem_filterMap.mpr ⟨fragmentText, hmem, hfragment⟩)

namespace Repository

open Asking

variable {repo other : Repository} {relation final : VisibilityMemo → VisibilityMemo → Prop}
  {rooted : ObjectId → VisibilityMemo → VisibilityMemo → Prop} {roots : List ObjectId}
  {id : ObjectId} {before after : VisibilityMemo} {text : List Char} {revision : Revision}

theorem of_revision {name : String} {revision : Revision}
    (hrevision : repo.revision name id = .ok revision) :
    revision.id = id ∧ repo.PeelsTo revision.id revision.peeledId := by
  unfold Repository.revision at hrevision
  cases hkind : repo.kind id with
  | error fault => simp [hkind, bind, Except.bind] at hrevision
  | ok kind =>
      cases hpeel : repo.peel id with
      | error fault => simp [hkind, hpeel, bind, Except.bind] at hrevision
      | ok peeled =>
          cases hpeeled : repo.kind peeled with
          | error fault => simp [hkind, hpeel, hpeeled, bind, Except.bind] at hrevision
          | ok peeledKind =>
              simp only [hkind, hpeel, hpeeled, bind, Except.bind, pure, Except.pure,
                Except.ok.injEq] at hrevision
              subst hrevision
              exact ⟨rfl, peel_eq_ok_iff.mp hpeel⟩

/-- The questions behind a revision, all of them answered with yes. -/
theorem gives_resolveFragment_iff :
    Gives (repo.resolveFragment roots text) before (some revision) after ↔
    ∃ fragment base source id middle, Fragment.read? text = some fragment ∧
      repo.base (String.ofList fragment.base) = .ok (some (base, source)) ∧
      (if source = .digits then Gives (repo.isVisible base roots) before true middle
        else middle = before) ∧
      repo.destination base fragment.steps = .ok (some id) ∧
      (if fragment.moves = true then Gives (repo.isVisible id roots) middle true after
        else after = middle) ∧
      repo.revision (String.ofList text) id = .ok revision := by
  unfold resolveFragment
  constructor
  · intro hresolve
    split at hresolve
    · next fragment hread =>
        obtain ⟨found, hbase, hresolve⟩ := gives_liftM_bind.mp hresolve
        cases found with
        | none => cases (gives_pure.mp hresolve).1
        | some found =>
            obtain ⟨base, source⟩ := found
            obtain ⟨middle, hdigits, hresolve⟩ := gives_guarded.mp hresolve
            obtain ⟨reached, hreached, hresolve⟩ := gives_liftM_bind.mp hresolve
            cases reached with
            | none => cases (gives_pure.mp hresolve).1
            | some id =>
                obtain ⟨last, hmoves, hresolve⟩ := gives_guarded.mp hresolve
                obtain ⟨found, hrevision, hresolve⟩ := gives_liftM_bind.mp hresolve
                obtain ⟨hsame, rfl⟩ := gives_pure.mp hresolve
                cases hsame
                exact ⟨fragment, base, source, id, middle, hread, hbase, hdigits, hreached, hmoves,
                  hrevision⟩
    · cases (gives_pure.mp hresolve).1
  · rintro ⟨fragment, base, source, id, middle, hread, hbase, hdigits, hreached, hmoves, hrevision⟩
    rw [hread]
    refine gives_liftM_bind.mpr ⟨_, hbase, gives_guarded.mpr ⟨middle, hdigits, ?_⟩⟩
    refine gives_liftM_bind.mpr ⟨_, hreached, gives_guarded.mpr ⟨after, hmoves, ?_⟩⟩
    exact gives_liftM_bind.mpr ⟨_, hrevision, gives_pure.mpr ⟨rfl, rfl⟩⟩

theorem resolveFragment_peels
    (hresolve : Gives (repo.resolveFragment roots text) before (some revision) after) :
    repo.PeelsTo revision.id revision.peeledId := by
  obtain ⟨_, _, _, _, _, _, _, _, _, _, hrevision⟩ := gives_resolveFragment_iff.mp hresolve
  exact (of_revision hrevision).2

theorem resolveFirst_gives {candidates : List (List Char × List Char)} {path : List Char}
    (hresolve : Gives (repo.resolveFirst candidates) before (some (revision, path)) after) :
    ∃ text middle, (text, path) ∈ candidates ∧
      Gives (repo.resolveFragment [] text) middle (some revision) after := by
  induction candidates generalizing before with
  | nil => cases (gives_pure.mp hresolve).1
  | cons candidate shorter ih =>
      obtain ⟨found, middle, hfragment, hrest⟩ := gives_bind.mp hresolve
      cases found with
      | none =>
          obtain ⟨text, later, hmem, hgives⟩ := ih hrest
          exact ⟨text, later, List.mem_cons_of_mem _ hmem, hgives⟩
      | some found =>
          obtain ⟨hsame, rfl⟩ := gives_pure.mp hrest
          cases hsame
          exact ⟨candidate.1, before, List.mem_cons_self, hfragment⟩

theorem resolveFirst_peels {candidates : List (List Char × List Char)} {path : List Char}
    (hresolve : Gives (repo.resolveFirst candidates) before (some (revision, path)) after) :
    repo.PeelsTo revision.id revision.peeledId := by
  obtain ⟨_, _, _, hfragment⟩ := resolveFirst_gives hresolve
  exact resolveFragment_peels hfragment

/-- How an expression of each form resolves: what its parts resolve to, one after another. -/
inductive Resolves (repo : Repository) (before after : VisibilityMemo) : Expression → Resolution → Prop where
  | range {old new path : List Char} {revision side : Revision} {middle : VisibilityMemo}
      (resolves : Gives (repo.resolveWithPath new) before (some (revision, path)) middle)
      (resolvesOld : Gives (repo.resolveFragment [revision.peeledId] old) middle (some side) after) :
      Resolves repo before after (.range old new) ⟨revision, some side, String.ofList path⟩
  | againstParent {name rest : List Char} {revision : Revision}
      (resolves : Gives (repo.resolveFragment [] name) before (some revision) after)
      (stored : repo.isCommit revision.peeledId = true) (opens : rest = [] ∨ rest.head? = some '/') :
      Resolves repo before after (.againstParent name rest) ⟨revision,
        (repo.parentsOf revision.peeledId).head?.map (.ofCommit (String.ofList (name ++ ['^']))),
        String.ofList rest⟩
  | single {text path : List Char} {revision : Revision}
      (resolves : Gives (repo.resolveWithPath text) before (some (revision, path)) after) :
      Resolves repo before after (.single text) ⟨revision, none, String.ofList path⟩

theorem gives_resolveExpression_iff {expression : Expression} {resolution : Resolution} :
    Gives (repo.resolveExpression expression) before (some resolution) after ↔
      repo.Resolves before after expression resolution := by
  constructor
  case mp =>
    intro hresolve
    cases expression with
    | range old new =>
        rw [resolveExpression, resolveRange] at hresolve
        split at hresolve
        · cases (gives_pure.mp hresolve).1
        · obtain ⟨found, middle, hnew, hresolve⟩ := gives_bind.mp hresolve
          cases found with
          | none => cases (gives_pure.mp hresolve).1
          | some found =>
              obtain ⟨side, last, hold, hresolve⟩ := gives_bind.mp hresolve
              cases side with
              | none => cases (gives_pure.mp hresolve).1
              | some side =>
                  obtain ⟨hsame, rfl⟩ := gives_pure.mp hresolve
                  cases hsame
                  exact .range hnew hold
    | againstParent name rest =>
        rw [resolveExpression, resolveAgainstParent] at hresolve
        split at hresolve
        · cases (gives_pure.mp hresolve).1
        · next haccepted =>
            obtain ⟨found, middle, hname, hresolve⟩ := gives_bind.mp hresolve
            cases found with
            | none => cases (gives_pure.mp hresolve).1
            | some revision =>
                obtain ⟨commit, hcommit, hresolve⟩ := gives_liftM_bind.mp hresolve
                cases commit with
                | none => cases (gives_pure.mp hresolve).1
                | some commit =>
                    obtain ⟨parents, hparents, hresolve⟩ := gives_liftM_bind.mp hresolve
                    obtain ⟨hsame, rfl⟩ := gives_pure.mp hresolve
                    cases hsame
                    obtain ⟨hstored, rfl⟩ := parents_eq_ok_iff.mp hparents
                    obtain rfl := (peelToCommit_eq hcommit).unique (resolveFragment_peels hname)
                    refine .againstParent hname hstored ?_
                    simp only [Bool.or_eq_true, Bool.not_eq_true', not_or, Bool.not_eq_false] at haccepted
                    simpa using haccepted.2
    | single text =>
        obtain ⟨found, middle, hfirst, hresolve⟩ := gives_bind.mp hresolve
        obtain ⟨hsame, rfl⟩ := gives_pure.mp hresolve
        cases found with
        | none => cases hsame
        | some found =>
            cases hsame
            exact .single hfirst
  case mpr =>
    intro resolves
    cases resolves with
    | @range old new _ _ _ _ resolves resolvesOld =>
        have hnonempty : (old.isEmpty || new.isEmpty) = false := by
          cases old with
          | nil => cases (gives_pure.mp resolvesOld).1
          | cons => cases new with
              | nil => cases (gives_pure.mp resolves).1
              | cons => rfl
        rw [resolveExpression, resolveRange, if_neg (by simp [hnonempty])]
        exact gives_bind.mpr ⟨_, _, resolves, gives_bind.mpr ⟨_, _, resolvesOld, gives_pure.mpr ⟨rfl, rfl⟩⟩⟩
    | @againstParent name rest revision resolves stored opens =>
        have hnonempty : name.isEmpty = false := by
          cases name with
          | nil => cases (gives_pure.mp resolves).1
          | cons => rfl
        have hopens : (rest.isEmpty || rest.head? == some '/') = true := by simpa using opens
        have hpeel : repo.peelToCommit revision.id = .ok (some revision.peeledId) :=
          peelToCommit_eq_ok_iff.mpr ⟨_, resolveFragment_peels resolves, by rw [if_pos stored]⟩
        rw [resolveExpression, resolveAgainstParent, if_neg (by simp [hnonempty, hopens])]
        refine gives_bind.mpr ⟨_, _, resolves, gives_liftM_bind.mpr ⟨_, hpeel, ?_⟩⟩
        exact gives_liftM_bind.mpr ⟨_, parents_eq_ok_iff.mpr ⟨stored, rfl⟩, gives_pure.mpr ⟨rfl, rfl⟩⟩
    | single resolves => exact gives_bind.mpr ⟨_, _, resolves, gives_pure.mpr ⟨rfl, rfl⟩⟩

/-! ### The same text in two repositories -/

/-- What it takes for a relation between computations to hold of resolutions in two repositories. What
is come to on the way is known to be of some kind. -/
structure Matches (repo other : Repository) (known : ObjectId → Prop)
    (same : (α : Type) → Asking α → Asking α → Prop) : Prop where
  composes : Composes same
  found : ∀ {base : String} {id : ObjectId} {source : BaseSource},
    repo.base base = .ok (some (id, source)) → known id
  destination : ∀ {base : ObjectId} (steps : List Step), known base →
    same _ (liftM (repo.destination base steps)) (liftM (other.destination base steps))
  reached : ∀ {base id : ObjectId} {steps : List Step}, known base →
    repo.destination base steps = .ok (some id) → known id
  revision : ∀ (name : String) {id : ObjectId}, known id →
    same _ (liftM (repo.revision name id)) (liftM (other.revision name id))
  peelToCommit : ∀ {id : ObjectId}, repo.Holds id →
    same _ (liftM (repo.peelToCommit id)) (liftM (other.peelToCommit id))
  parents : ∀ {id commit : ObjectId}, repo.peelToCommit id = .ok (some commit) →
    same _ (liftM (repo.parents commit)) (liftM (other.parents commit))

variable {known : ObjectId → Prop}
  {same : (α : Type) → Asking α → Asking α → Prop} {candidates : List (List Char × List Char)}

theorem resolveFirst_same (composes : Composes same)
    (hfragment : ∀ candidate ∈ candidates,
      same _ (repo.resolveFragment [] candidate.1) (other.resolveFragment [] candidate.1)) :
    same _ (repo.resolveFirst candidates) (other.resolveFirst candidates) := by
  induction candidates with
  | nil => exact composes.pure none
  | cons candidate shorter ih =>
      obtain ⟨hcandidate, hshorter⟩ := List.forall_mem_cons.mp hfragment
      refine composes.bind hcandidate fun found _ _ _ => ?_
      cases found with
      | none => exact ih hshorter
      | some revision => exact composes.pure _

namespace Matches

variable (matching : repo.Matches other known same)
include matching

theorem resolveFragment
    (hvisible : ∀ id, known id → same _ (repo.isVisible id roots) (other.isVisible id roots))
    (hbase : ∀ fragment, Fragment.read? text = some fragment →
      same _ (liftM (repo.base (String.ofList fragment.base)))
        (liftM (other.base (String.ofList fragment.base)))) :
    same _ (repo.resolveFragment roots text) (other.resolveFragment roots text) := by
  have composes := matching.composes
  unfold Repository.resolveFragment
  split
  · next fragment hread =>
      refine composes.liftM_bind (hbase fragment hread) fun found hfound => ?_
      cases found with
      | none => exact composes.pure none
      | some found =>
          obtain ⟨base, source⟩ := found
          have hknown : known base := matching.found hfound
          refine composes.guarded (hvisible base hknown) ?_
          refine composes.liftM_bind (matching.destination fragment.steps hknown)
            fun reached hreached => ?_
          cases reached with
          | none => exact composes.pure none
          | some id =>
              have hid : known id := matching.reached hknown hreached
              refine composes.guarded (hvisible id hid) ?_
              exact composes.liftM_bind (matching.revision _ hid) fun revision _ => composes.pure _
  · exact composes.pure none

theorem resolveAgainstParent {name rest : List Char}
    (hfragment : same _ (repo.resolveFragment [] name) (other.resolveFragment [] name)) :
    same _ (repo.resolveAgainstParent name rest) (other.resolveAgainstParent name rest) := by
  have composes := matching.composes
  unfold Repository.resolveAgainstParent
  split
  · exact composes.pure none
  · refine composes.bind hfragment fun found _ _ hfound => ?_
    cases found with
    | none => exact composes.pure none
    | some revision =>
        have holds : repo.Holds revision.id := (resolveFragment_peels hfound).holds
        refine composes.liftM_bind (matching.peelToCommit holds) fun commit hcommit => ?_
        cases commit with
        | none => exact composes.pure none
        | some commit =>
            exact composes.liftM_bind (matching.parents hcommit) fun parents _ => composes.pure _

theorem resolveExpression {expression : Expression}
    (hrootless : ∀ text ∈ expression.fragments,
      same _ (repo.resolveFragment [] text) (other.resolveFragment [] text))
    (hrooted : ∀ old new, expression = .range old new → old ∈ expression.fragments →
      ∀ root, repo.Holds root →
        same _ (repo.resolveFragment [root] old) (other.resolveFragment [root] old)) :
    same _ (repo.resolveExpression expression) (other.resolveExpression expression) := by
  have composes := matching.composes
  cases expression with
  | single text =>
      exact composes.bind (resolveFirst_same composes fun candidate hmem =>
        hrootless candidate.1 (List.mem_map_of_mem hmem)) fun _ _ _ _ => composes.pure _
  | againstParent name rest =>
      -- A malformed expression has no fragments, so nothing is known of its parts, and nothing is asked.
      simp only [Repository.resolveExpression]
      by_cases hnothing : (name.isEmpty || !(rest.isEmpty || rest.head? == some '/')) = true
      · simp only [Repository.resolveAgainstParent, hnothing, if_true]
        exact composes.pure none
      · refine matching.resolveAgainstParent (hrootless name ?_)
        rw [Expression.fragments, if_neg hnothing]
        exact List.mem_singleton_self name
  | range old new =>
      simp only [Repository.resolveExpression, Repository.resolveRange]
      split
      · exact composes.pure none
      · next hwell =>
          rw [Expression.fragments, if_neg hwell] at hrootless hrooted
          obtain ⟨_, hnew⟩ := List.forall_mem_cons.mp hrootless
          refine composes.bind (resolveFirst_same composes fun candidate hmem =>
            hnew candidate.1 (List.mem_map_of_mem hmem)) fun found _ _ hfound => ?_
          cases found with
          | none => exact composes.pure none
          | some found =>
              obtain ⟨revision, path⟩ := found
              have holds : repo.Holds revision.peeledId := (resolveFirst_peels hfound).holds_right
              refine composes.bind (hrooted old new rfl List.mem_cons_self _ holds)
                fun oldRevision _ _ _ => ?_
              cases oldRevision with
              | none => exact composes.pure none
              | some oldRevision => exact composes.pure _

theorem resolve {text : String}
    (hvisible : ∀ roots, (∀ root ∈ roots, repo.Holds root) → ∀ id, known id →
      same _ (repo.isVisible id roots) (other.isVisible id roots))
    (hbase : ∀ base ∈ Expression.bases text,
      same _ (liftM (repo.base base)) (liftM (other.base base))) :
    same _ (repo.resolve text) (other.resolve text) := by
  unfold Repository.resolve
  split
  · exact matching.composes.pure none
  · next expression hread =>
      have hfragment : ∀ roots, (∀ root ∈ roots, repo.Holds root) → ∀ text ∈ expression.fragments,
          same _ (repo.resolveFragment roots text) (other.resolveFragment roots text) :=
        fun roots hroots _ hmem => matching.resolveFragment (hvisible roots hroots) fun _ hfragment =>
          hbase _ (Expression.mem_bases hread hmem hfragment)
      exact matching.resolveExpression (hfragment [] (List.forall_mem_nil _))
        fun old _ _ hmem root holds => hfragment [root] (List.forall_mem_singleton.mpr holds) old hmem

end Matches

/-- The old side of a range is asked about with the new side for a root. What the memos have in common
may be less from there on. -/
theorem resolveRange_alike {old new : List Char} {left right : VisibilityMemo}
    (hfirst : ∀ candidate ∈ Expression.candidates new,
      Alike relation (repo.resolveFragment [] candidate.1) (other.resolveFragment [] candidate.1))
    (hrooted : ∀ root, repo.Holds root →
      Alike (rooted root) (repo.resolveFragment [root] old) (other.resolveFragment [root] old))
    (hin : ∀ root left right, relation left right → rooted root left right)
    (hexit : ∀ left right, relation left right → final left right)
    (hout : ∀ root left right, rooted root left right → final left right)
    (hrelated : relation left right) :
    SameEnd final ((repo.resolveRange old new).on left) ((other.resolveRange old new).on right) := by
  unfold resolveRange
  split
  · exact ⟨rfl, hexit _ _ hrelated⟩
  · refine sameEnd_bind (resolveFirst_same alike_composes hfirst _ _ hrelated) hexit ?_
    intro found left right hfound hrelated
    cases found with
    | none => exact ⟨rfl, hexit _ _ hrelated⟩
    | some found =>
        obtain ⟨revision, path⟩ := found
        have holds : repo.Holds revision.peeledId := (resolveFirst_peels hfound).holds_right
        refine sameEnd_bind (hrooted revision.peeledId holds _ _
          (hin revision.peeledId _ _ hrelated)) (hout revision.peeledId) ?_
        intro found left right _ hrelated
        cases found with
        | none => exact ⟨rfl, hout _ _ _ hrelated⟩
        | some oldRevision => exact ⟨rfl, hout _ _ _ hrelated⟩

/-! ### One repository -/

theorem matches_self (relation : VisibilityMemo → VisibilityMemo → Prop) :
    repo.Matches repo (fun _ => True) fun α => @Alike α relation where
  composes := alike_composes
  found := fun _ => trivial
  destination := fun _ _ => .liftM _
  reached := fun _ _ => trivial
  revision := fun _ _ _ => .liftM _
  peelToCommit := fun _ => .liftM _
  parents := fun _ => .liftM _

theorem resolveFragment_related (hvisible : ∀ id, Related relation (repo.isVisible id roots))
    (text : List Char) : Related relation (repo.resolveFragment roots text) :=
  (matches_self relation).resolveFragment (fun id _ => hvisible id) fun _ _ => .liftM _

theorem resolveFirst_related (hvisible : ∀ id, Related relation (repo.isVisible id []))
    (candidates : List (List Char × List Char)) : Related relation (repo.resolveFirst candidates) :=
  resolveFirst_same alike_composes fun candidate _ => resolveFragment_related hvisible candidate.1

theorem resolveRange_related (hvisible : ∀ id, Related relation (repo.isVisible id []))
    (hrooted : ∀ root, repo.Holds root → ∀ id, Related (rooted root) (repo.isVisible id [root]))
    (hin : ∀ root left right, relation left right → rooted root left right)
    (hexit : ∀ left right, relation left right → final left right)
    (hout : ∀ root left right, rooted root left right → final left right)
    (old new : List Char) {left right : VisibilityMemo} (hrelated : relation left right) :
    SameEnd final ((repo.resolveRange old new).on left) ((repo.resolveRange old new).on right) :=
  resolveRange_alike (fun candidate _ => resolveFragment_related hvisible candidate.1)
    (fun root holds => resolveFragment_related (hrooted root holds) old) hin hexit hout hrelated

theorem resolve_related_of_not_range {text : String}
    (hvisible : ∀ id, Related relation (repo.isVisible id []))
    (hplain : ∀ old new, Expression.read? text.toList ≠ some (.range old new)) :
    Related relation (repo.resolve text) := by
  unfold resolve
  split
  · exact Alike.pure none
  · next expression hread =>
      exact (matches_self relation).resolveExpression
        (fun text _ => resolveFragment_related hvisible text)
        fun old new hrange => absurd (hrange ▸ hread) (hplain old new)

theorem resolve_related (hvisible : ∀ id, Related relation (repo.isVisible id []))
    (hrooted : ∀ root, repo.Holds root → ∀ id, Related (rooted root) (repo.isVisible id [root]))
    (hin : ∀ root left right, relation left right → rooted root left right)
    (hexit : ∀ left right, relation left right → final left right)
    (hout : ∀ root left right, rooted root left right → final left right)
    (text : String) {left right : VisibilityMemo} (hrelated : relation left right) :
    SameEnd final ((repo.resolve text).on left) ((repo.resolve text).on right) := by
  by_cases hrange : ∃ old new, Expression.read? text.toList = some (.range old new)
  · obtain ⟨old, new, hread⟩ := hrange
    have hresolve : repo.resolve text = repo.resolveRange old new := by
      simp only [resolve, hread, resolveExpression]
    rw [hresolve]
    exact resolveRange_related hvisible hrooted hin hexit hout old new hrelated
  · have hplain : ∀ old new, Expression.read? text.toList ≠ some (.range old new) :=
      fun old new hread => hrange ⟨old, new, hread⟩
    obtain ⟨hsame, hafter⟩ := resolve_related_of_not_range hvisible hplain left right hrelated
    exact ⟨hsame, hexit _ _ hafter⟩

theorem isVisible_keeps {property : VisibilityMemo → Prop}
    (hcheck : ∀ memo id, property memo → property (memo.check repo ⟨id, roots⟩).2) (id : ObjectId) :
    Related (fun left right => left = right ∧ property left) (repo.isVisible id roots) := by
  rintro left right ⟨rfl, hleft⟩
  exact ⟨rfl, rfl, hcheck left id hleft⟩

theorem resolveFragment_keeps {property : VisibilityMemo → Prop} {memo : VisibilityMemo}
    (hcheck : ∀ memo id, property memo → property (memo.check repo ⟨id, roots⟩).2)
    (text : List Char) (holds : property memo) :
    property ((repo.resolveFragment roots text).on memo).2 :=
  (resolveFragment_related (isVisible_keeps hcheck) text memo memo ⟨rfl, holds⟩).2.2

/-- A resolution keeps whatever its questions keep. -/
theorem resolve_keeps {property : VisibilityMemo → Prop} {memo : VisibilityMemo}
    (hcheck : ∀ memo query, property memo → property (memo.check repo query).2)
    (text : String) (holds : property memo) : property ((repo.resolve text).on memo).2 := by
  have hvisible : ∀ roots id,
      Related (fun left right => left = right ∧ property left) (repo.isVisible id roots) :=
    fun roots => isVisible_keeps fun memo id => hcheck memo ⟨id, roots⟩
  have hends := resolve_related (hvisible []) (fun root _ => hvisible [root]) (fun _ _ _ h => h)
    (fun _ _ h => h) (fun _ _ _ h => h) text ⟨(rfl : memo = memo), holds⟩
  exact hends.2.2

end Repository

end GuardedRevision
