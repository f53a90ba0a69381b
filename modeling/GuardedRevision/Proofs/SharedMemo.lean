import GuardedRevision.Proofs.Disclosure

/-!
# Requests through one memo

Requests to a repository share a memo. A request poisons it when it is shown something for the sake of
its roots alone, since what was shown is remembered for everyone. As long as no request has done so,
the memo makes no difference to any answer.
-/

namespace GuardedRevision

/-- What a server is asked: to resolve a text, or whether an object may be shown. -/
inductive Request where
  | resolve (text : String)
  | look (query : VisibilityQuery)

inductive Reply where
  | resolution (found : Except Fault (Option Resolution))
  | visibility (shown : Except Fault Bool)
  deriving DecidableEq

namespace Request

def serve (repo : Repository) (memo : VisibilityMemo) : Request → Reply × VisibilityMemo
  | .resolve text =>
      (.resolution ((repo.resolve text).on memo).1, ((repo.resolve text).on memo).2)
  | .look query => (.visibility (memo.check repo query).1, (memo.check repo query).2)

/-- The memo after some requests, the first of the list coming first. -/
def serveAll (repo : Repository) (history : List Request) (memo : VisibilityMemo) :
    VisibilityMemo :=
  history.foldl (fun memo request => (request.serve repo memo).2) memo

/-- The request comes without roots. A range still asks about its old side with the new side for a
root. -/
def IsRootless : Request → Prop
  | .resolve _ => True
  | .look query => query.roots = []

def AsksWithRoots : Request → Prop
  | .resolve text => ∃ old new, Expression.read? text.toList = some (.range old new)
  | .look query => query.roots ≠ []

end Request

/-- What no ref exposes is remembered as visible. -/
def VisibilityMemo.IsPoisoned (policy : BrowsePolicy) (repo : Repository) (memo : VisibilityMemo) :
    Prop :=
  ∃ target refs, repo.listRefs = .ok refs ∧ (repo.scope, target) ∈ memo.visible ∧
    ¬ policy.Exposes repo refs [] target

/-- Served alone, the request is shown something that no ref exposes. -/
def Request.Poisons (policy : BrowsePolicy) (capacity : Nat) (repo : Repository)
    (request : Request) : Prop :=
  (request.serve repo (.empty policy capacity)).2.IsPoisoned policy repo

variable {policy : BrowsePolicy} {capacity : Nat} {repo : Repository} {refs : List RefEntry}
  {roots : List ObjectId} {memo left right : VisibilityMemo} {query : VisibilityQuery}
  {id target : ObjectId} {request : Request} {history : List Request}

namespace VisibilityMemo

/-- What the memo remembers as hidden has the answer that it is hidden. -/
structure Honest (policy : BrowsePolicy) (repo : Repository) (memo : VisibilityMemo) : Prop where
  samePolicy : memo.policy = policy
  hidden : ∀ query, memo.Denies repo query → policy.answer repo query = .ok false

theorem honest_empty : (VisibilityMemo.empty policy capacity).Honest policy repo := by
  refine ⟨rfl, ?_⟩
  rintro query ⟨_, _, _, hmem⟩
  cases hmem

theorem justified_empty : (VisibilityMemo.empty policy capacity).Justified policy repo roots :=
  ⟨rfl, fun _ hmem => absurd hmem List.not_mem_nil⟩

theorem Honest.check (honest : memo.Honest policy repo) (query : VisibilityQuery) :
    (memo.check repo query).2.Honest policy repo := by
  have hasks := check_asks memo repo query
  refine ⟨hasks.policy.trans honest.samePolicy, ?_⟩
  rintro other ⟨hroots, refs, searches, hmem⟩
  rw [hasks.policy] at hmem
  rcases hasks.hidden _ hmem with hold | ⟨_, hrootless, hanswer, refs', searches', hkey⟩
  · exact honest.hidden other ⟨hroots, refs, searches, hold⟩
  · have htarget : other.target = query.target := congrArg HiddenKey.target hkey
    have hsame : other = query := by
      cases other
      cases query
      simp_all
    rw [hsame, ← honest.samePolicy]
    exact hanswer

theorem check_eq_answer_of_shown (honest : memo.Honest policy repo)
    (justified : memo.Justified policy repo query.roots)
    (hshown : ∀ refs, repo.listRefs = .ok refs → policy.Exposes repo refs query.roots query.target →
      policy.answer repo query = .ok true) :
    (memo.check repo query).1 = policy.answer repo query := by
  have hasks := check_asks memo repo query
  by_cases hold : (repo.scope, query.target) ∈ memo.visible
  · obtain ⟨refs, hlisted, exposes⟩ := justified.visible query.target hold
    rw [hasks.shown hold, hshown refs hlisted exposes]
  · by_cases hdenies : memo.Denies repo query
    · rw [hasks.denied hold hdenies, honest.hidden _ hdenies]
    · rw [hasks.answered hold hdenies, honest.samePolicy]

theorem check_eq_answer (complete : repo.Complete) (honest : memo.Honest policy repo)
    (justified : memo.Justified policy repo query.roots)
    (hroots : ∀ root ∈ query.roots, repo.Holds root) :
    (memo.check repo query).1 = policy.answer repo query :=
  check_eq_answer_of_shown honest justified fun _ hlisted exposes =>
    complete.answer_of_exposes hroots hlisted exposes

/-- The memos differ in nothing that no ref exposes. -/
def Akin (policy : BrowsePolicy) (repo : Repository) (left right : VisibilityMemo) : Prop :=
  ∀ target refs, repo.listRefs = .ok refs → ¬ policy.Exposes repo refs [] target →
    ((repo.scope, target) ∈ left.visible ↔ (repo.scope, target) ∈ right.visible)

theorem Akin.isPoisoned (akin : Akin policy repo left right) :
    left.IsPoisoned policy repo ↔ right.IsPoisoned policy repo := by
  unfold IsPoisoned
  constructor
  · rintro ⟨target, refs, hlisted, hmem, hhidden⟩
    exact ⟨target, refs, hlisted, (akin target refs hlisted hhidden).mp hmem, hhidden⟩
  · rintro ⟨target, refs, hlisted, hmem, hhidden⟩
    exact ⟨target, refs, hlisted, (akin target refs hlisted hhidden).mpr hmem, hhidden⟩

theorem akin_of_justified (hleft : left.Justified policy repo [])
    (hright : right.Justified policy repo []) : Akin policy repo left right := by
  have hnot : ∀ {memo : VisibilityMemo}, memo.Justified policy repo [] → ∀ target refs,
      repo.listRefs = .ok refs → ¬ policy.Exposes repo refs [] target →
      (repo.scope, target) ∉ memo.visible := by
    intro memo hmemo target refs hlisted hhidden hmem
    exact hhidden (BrowsePolicy.exposes_of_listed hlisted (hmemo.visible target hmem))
  intro target refs hlisted hhidden
  exact iff_of_false (hnot hleft target refs hlisted hhidden) (hnot hright target refs hlisted hhidden)

/-- A question keeps memos akin when both sides answer it alike, or when its target is exposed. -/
theorem Akin.check (akin : Akin policy repo left right)
    (hsame : (left.check repo query).1 = (right.check repo query).1 ∨
      ∀ refs, repo.listRefs = .ok refs → policy.Exposes repo refs [] query.target) :
    Akin policy repo (left.check repo query).2 (right.check repo query).2 := by
  have hleft := check_asks left repo query
  have hright := check_asks right repo query
  intro target refs hlisted hhidden
  rw [hleft.visible, hright.visible]
  rcases hsame with hsame | exposes
  · exact or_congr (akin target refs hlisted hhidden) (by rw [hsame])
  · have hother : (repo.scope, target) ≠ (repo.scope, query.target) := by
      intro heq
      cases heq
      exact hhidden (exposes refs hlisted)
    simp only [hother, and_false, or_false]
    exact akin target refs hlisted hhidden

/-- Nothing that is remembered is wrong for a request with these roots. -/
structure Truthful (policy : BrowsePolicy) (repo : Repository) (roots : List ObjectId)
    (memo : VisibilityMemo) : Prop where
  honest : memo.Honest policy repo
  justified : memo.Justified policy repo roots

theorem truthful_empty : (VisibilityMemo.empty policy capacity).Truthful policy repo roots :=
  ⟨honest_empty, justified_empty⟩

theorem Truthful.check (truthful : memo.Truthful policy repo roots) (id : ObjectId) :
    (memo.check repo ⟨id, roots⟩).2.Truthful policy repo roots :=
  ⟨truthful.honest.check _, truthful.justified.check id⟩

theorem not_justified_of_isPoisoned (poisoned : memo.IsPoisoned policy repo) :
    ¬ memo.Justified policy repo [] := by
  intro justified
  obtain ⟨target, refs, hlisted, hmem, hhidden⟩ := poisoned
  exact hhidden (BrowsePolicy.exposes_of_listed hlisted (justified.visible target hmem))

theorem Honest.truthful_iff (complete : repo.Complete) (honest : memo.Honest policy repo) :
    memo.Truthful policy repo [] ↔ ¬ memo.IsPoisoned policy repo := by
  obtain ⟨refs, hlisted⟩ := complete.exists_listRefs
  constructor
  · intro truthful poisoned
    exact not_justified_of_isPoisoned poisoned truthful.justified
  · intro hclean
    refine ⟨honest, honest.samePolicy, fun target hmem => ⟨refs, hlisted, ?_⟩⟩
    by_contra hhidden
    exact hclean ⟨target, refs, hlisted, hmem, hhidden⟩

theorem Truthful.not_isPoisoned (complete : repo.Complete) (truthful : memo.Truthful policy repo []) :
    ¬ memo.IsPoisoned policy repo :=
  (truthful.honest.truthful_iff complete).mp truthful

structure Agreeing (policy : BrowsePolicy) (repo : Repository) (roots : List ObjectId)
    (left right : VisibilityMemo) : Prop where
  leftTruthful : left.Truthful policy repo roots
  rightTruthful : right.Truthful policy repo roots
  akin : Akin policy repo left right

/-- What two memos still have in common after requests that bring roots. -/
structure Comparable (policy : BrowsePolicy) (repo : Repository) (left right : VisibilityMemo) :
    Prop where
  leftHonest : left.Honest policy repo
  rightHonest : right.Honest policy repo
  akin : Akin policy repo left right

theorem Agreeing.comparable (agreeing : Agreeing policy repo roots left right) :
    Comparable policy repo left right :=
  ⟨agreeing.leftTruthful.honest, agreeing.rightTruthful.honest, agreeing.akin⟩

theorem Agreeing.mono {more : List ObjectId} (hroots : roots ⊆ more)
    (agreeing : Agreeing policy repo roots left right) : Agreeing policy repo more left right where
  leftTruthful := ⟨agreeing.leftTruthful.honest, agreeing.leftTruthful.justified.mono hroots⟩
  rightTruthful := ⟨agreeing.rightTruthful.honest, agreeing.rightTruthful.justified.mono hroots⟩
  akin := agreeing.akin

theorem Agreeing.of_truthful (hleft : left.Truthful policy repo [])
    (hright : right.Truthful policy repo []) : Agreeing policy repo [] left right :=
  ⟨hleft, hright, akin_of_justified hleft.justified hright.justified⟩

theorem isVisible_related_agreeing (complete : repo.Complete)
    (hroots : ∀ root ∈ roots, repo.Holds root) (id : ObjectId) :
    Asking.Related (Agreeing policy repo roots) (repo.isVisible id roots) := by
  rintro left right ⟨hleft, hright, akin⟩
  have hsame : (left.check repo ⟨id, roots⟩).1 = (right.check repo ⟨id, roots⟩).1 := by
    rw [check_eq_answer complete hleft.honest hleft.justified hroots,
      check_eq_answer complete hright.honest hright.justified hroots]
  exact ⟨hsame, hleft.check id, hright.check id, akin.check (.inl hsame)⟩

theorem resolve_comparable (complete : repo.Complete)
    (agreeing : Agreeing policy repo [] left right) (text : String) :
    SameEnd (Comparable policy repo) ((repo.resolve text).on left) ((repo.resolve text).on right) := by
  have hrooted : ∀ root, repo.Holds root → ∀ id,
      Asking.Related (Agreeing policy repo [root]) (repo.isVisible id [root]) := by
    intro root holds id
    refine isVisible_related_agreeing complete ?_ id
    intro other hother
    rw [List.mem_singleton.mp hother]
    exact holds
  exact Repository.resolve_related (isVisible_related_agreeing complete (List.forall_mem_nil _)) hrooted
    (fun _ _ _ hagreeing => hagreeing.mono (List.nil_subset _)) (fun _ _ => Agreeing.comparable)
    (fun _ _ _ => Agreeing.comparable) text agreeing

theorem check_comparable (complete : repo.Complete)
    (agreeing : Agreeing policy repo [] left right) (query : VisibilityQuery) :
    (query.roots = [] → (left.check repo query).1 = (right.check repo query).1) ∧
      Comparable policy repo (left.check repo query).2 (right.check repo query).2 := by
  obtain ⟨hleft, hright, akin⟩ := agreeing
  have hrootless : query.roots = [] → (left.check repo query).1 = (right.check repo query).1 := by
    intro hnone
    have hroots : ∀ root ∈ query.roots, repo.Holds root := by simp [hnone]
    rw [check_eq_answer complete hleft.honest (hnone ▸ hleft.justified) hroots,
      check_eq_answer complete hright.honest (hnone ▸ hright.justified) hroots]
  refine ⟨hrootless, hleft.honest.check query, hright.honest.check query, akin.check ?_⟩
  -- Roots may make the answers differ, but only where one memo remembers the target, and then a ref
  -- exposes it.
  by_cases hnone : query.roots = []
  · exact .inl (hrootless hnone)
  · have hfree : ∀ memo : VisibilityMemo, ¬ memo.Denies repo query := fun _ hdenies =>
      hnone hdenies.1
    have hexposes : ∀ {memo : VisibilityMemo}, memo.Truthful policy repo [] →
        (repo.scope, query.target) ∈ memo.visible →
        ∀ refs, repo.listRefs = .ok refs → policy.Exposes repo refs [] query.target := by
      intro memo hmemo hmem refs hlisted
      exact BrowsePolicy.exposes_of_listed hlisted (hmemo.justified.visible query.target hmem)
    by_cases holdLeft : (repo.scope, query.target) ∈ left.visible
    · exact .inr (hexposes hleft holdLeft)
    · by_cases holdRight : (repo.scope, query.target) ∈ right.visible
      · exact .inr (hexposes hright holdRight)
      · left
        rw [(check_asks left repo query).answered holdLeft (hfree left),
          (check_asks right repo query).answered holdRight (hfree right),
          hleft.honest.samePolicy, hright.honest.samePolicy]

end VisibilityMemo

namespace Request

open VisibilityMemo

theorem serve_comparable (complete : repo.Complete) (agreeing : Agreeing policy repo [] left right)
    (request : Request) :
    (request.IsRootless → (request.serve repo left).1 = (request.serve repo right).1) ∧
      Comparable policy repo (request.serve repo left).2 (request.serve repo right).2 := by
  cases request with
  | resolve text =>
      obtain ⟨hsame, hcomparable⟩ := resolve_comparable complete agreeing text
      exact ⟨fun _ => congrArg Reply.resolution hsame, hcomparable⟩
  | look query =>
      obtain ⟨hsame, hcomparable⟩ := check_comparable complete agreeing query
      exact ⟨fun hrootless => congrArg Reply.visibility (hsame hrootless), hcomparable⟩

theorem visible_subset_serve (request : Request) (memo : VisibilityMemo) :
    memo.visible ⊆ (request.serve repo memo).2.visible := by
  intro pair hmem
  cases request with
  | resolve text =>
      have hcheck : ∀ (other : VisibilityMemo) query, pair ∈ other.visible →
          pair ∈ (other.check repo query).2.visible :=
        fun other query hother => visible_subset_check other repo query hother
      exact Repository.resolve_keeps hcheck text hmem
  | look query => exact visible_subset_check memo repo query hmem

theorem visible_subset_serveAll (history : List Request) (memo : VisibilityMemo) :
    memo.visible ⊆ (serveAll repo history memo).visible := by
  induction history generalizing memo with
  | nil => exact List.Subset.refl _
  | cons request rest ih => exact List.Subset.trans (visible_subset_serve request memo) (ih _)

theorem isPoisoned_serve (poisoned : memo.IsPoisoned policy repo) (request : Request) :
    (request.serve repo memo).2.IsPoisoned policy repo := by
  obtain ⟨target, refs, hlisted, hmem, hhidden⟩ := poisoned
  exact ⟨target, refs, hlisted, visible_subset_serve request memo hmem, hhidden⟩

theorem isPoisoned_serveAll (poisoned : memo.IsPoisoned policy repo) (history : List Request) :
    (serveAll repo history memo).IsPoisoned policy repo := by
  induction history generalizing memo with
  | nil => exact poisoned
  | cons request rest ih => exact ih (isPoisoned_serve poisoned request)

/-- Whether a request poisons a truthful memo does not depend on what the memo remembers. -/
theorem isPoisoned_serve_iff (complete : repo.Complete) (truthful : memo.Truthful policy repo [])
    (request : Request) : (request.serve repo memo).2.IsPoisoned policy repo ↔
      request.Poisons policy capacity repo := by
  have hfresh : (VisibilityMemo.empty policy capacity).Truthful policy repo [] := truthful_empty
  obtain ⟨_, hcomparable⟩ := serve_comparable complete (Agreeing.of_truthful truthful hfresh) request
  exact hcomparable.akin.isPoisoned

theorem truthful_serve_iff (complete : repo.Complete) (truthful : memo.Truthful policy repo [])
    (request : Request) : (request.serve repo memo).2.Truthful policy repo [] ↔
      ¬ request.Poisons policy capacity repo := by
  obtain ⟨_, hcomparable⟩ := serve_comparable complete (Agreeing.of_truthful truthful truthful) request
  rw [hcomparable.leftHonest.truthful_iff complete, isPoisoned_serve_iff complete truthful]

theorem truthful_serveAll (complete : repo.Complete) (truthful : memo.Truthful policy repo [])
    (hclean : ∀ earlier ∈ history, ¬ earlier.Poisons policy capacity repo) :
    (serveAll repo history memo).Truthful policy repo [] := by
  induction history generalizing memo with
  | nil => exact truthful
  | cons request rest ih =>
      obtain ⟨hrequest, hrest⟩ := List.forall_mem_cons.mp hclean
      exact ih ((truthful_serve_iff complete truthful request).mpr hrequest) hrest

theorem isPoisoned_serveAll_of_poisons (complete : repo.Complete) (truthful : memo.Truthful policy repo [])
    {earlier : Request} (hmem : earlier ∈ history) (poisons : earlier.Poisons policy capacity repo) :
    (serveAll repo history memo).IsPoisoned policy repo := by
  induction history generalizing memo with
  | nil => cases hmem
  | cons request rest ih =>
      change (serveAll repo rest (request.serve repo memo).2).IsPoisoned policy repo
      by_cases hrequest : request.Poisons policy capacity repo
      · exact isPoisoned_serveAll ((isPoisoned_serve_iff complete truthful request).mpr hrequest) rest
      · have hrest : earlier ∈ rest := by
          rcases List.mem_cons.mp hmem with rfl | hrest
          · exact absurd poisons hrequest
          · exact hrest
        exact ih ((truthful_serve_iff complete truthful request).mpr hrequest) hrest

/-- A poisoned memo shows what a memo that remembers nothing would not. -/
theorem exists_serve_ne (poisoned : memo.IsPoisoned policy repo) : ∃ request : Request,
    request.IsRootless ∧
      (request.serve repo memo).1 ≠ (request.serve repo (.empty policy capacity)).1 := by
  obtain ⟨target, refs, hlisted, hmem, hhidden⟩ := poisoned
  refine ⟨.look ⟨target, []⟩, rfl, fun hsame => hhidden ?_⟩
  have hshown : (memo.check repo ⟨target, []⟩).1 = .ok true :=
    (check_asks memo repo ⟨target, []⟩).shown hmem
  have hfresh : ((VisibilityMemo.empty policy capacity).check repo ⟨target, []⟩).1 = .ok true := by
    rw [← hshown]
    exact (Reply.visibility.inj hsame).symm
  rw [check_empty] at hfresh
  exact BrowsePolicy.exposes_of_listed hlisted (BrowsePolicy.exposes_of_answer hfresh)

/-- Nothing is poisoned by what is asked without roots. -/
theorem asksWithRoots_of_poisons (poisons : request.Poisons policy capacity repo) :
    request.AsksWithRoots := by
  by_contra hplain
  have hfresh : (VisibilityMemo.empty policy capacity).Justified policy repo [] := justified_empty
  have hjustified : (request.serve repo (.empty policy capacity)).2.Justified policy repo [] := by
    cases request with
    | resolve text =>
        have hvisible : ∀ id, Asking.Related (fun left right => left = right ∧
            left.Justified policy repo []) (repo.isVisible id []) :=
          Repository.isVisible_related_justified []
        have hrelated := Repository.resolve_related_of_not_range hvisible
          fun old new hread => hplain ⟨old, new, hread⟩
        exact (hrelated _ _ ⟨rfl, hfresh⟩).2.2
    | look query =>
        obtain ⟨target, roots⟩ := query
        have hnone : roots = [] := not_not.mp hplain
        subst hnone
        exact hfresh.check target
  exact not_justified_of_isPoisoned poisons hjustified

end Request

end GuardedRevision
