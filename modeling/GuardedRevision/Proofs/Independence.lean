import GuardedRevision.Proofs.SharedMemo

/-!
# Independence of the history

Which requests poison a memo, and that nothing else makes the answers depend on what was asked before.
A range poisons it when the old side asks about something that only the new side reaches, and that may
be the base of the old side even where the whole of it names nothing.
-/

namespace GuardedRevision

/-- The objects that a fragment asks about: the base when it is named by digits, and, past a base that
is shown, what the steps move to. -/
inductive Fragment.AsksAbout (policy : BrowsePolicy) (repo : Repository) (refs : List RefEntry)
    (roots : List ObjectId) (fragment : Fragment) : ObjectId → Prop where
  | base {base : ObjectId}
      (named : repo.base (String.ofList fragment.base) = .ok (some (base, .digits))) :
      AsksAbout policy repo refs roots fragment base
  | destination {base id : ObjectId} {source : BaseSource}
      (named : repo.base (String.ofList fragment.base) = .ok (some (base, source)))
      (shown : source = .digits → policy.Exposes repo refs roots base)
      (moves : fragment.moves = true)
      (reached : repo.destination base fragment.steps = .ok (some id)) :
      AsksAbout policy repo refs roots fragment id

/-- The request asks about something that its roots show and no ref exposes. The roots of a range are
the new side, resolved alone. -/
inductive Request.ShowsByRoots (policy : BrowsePolicy) (capacity : Nat) (repo : Repository)
    (refs : List RefEntry) : Request → Prop where
  | range {text : String} {old new path : List Char} {revision : Revision} {fragment : Fragment}
      {target : ObjectId} (reads : Expression.read? text.toList = some (.range old new))
      (resolves : ((repo.resolveWithPath new).on (.empty policy capacity)).1 =
        .ok (some (revision, path)))
      (readsOld : Fragment.read? old = some fragment)
      (asks : fragment.AsksAbout policy repo refs [revision.peeledId] target)
      (shown : policy.Exposes repo refs [revision.peeledId] target)
      (hidden : ¬ policy.Exposes repo refs [] target) :
      ShowsByRoots policy capacity repo refs (.resolve text)
  | look {query : VisibilityQuery} (shown : policy.Exposes repo refs query.roots query.target)
      (hidden : ¬ policy.Exposes repo refs [] query.target) :
      ShowsByRoots policy capacity repo refs (.look query)

def Request.RootsHeld (repo : Repository) : Request → Prop
  | .resolve _ => True
  | .look query => ∀ root ∈ query.roots, repo.Holds root

/-- What is remembered as visible afterwards is what was before, and what has been shown. -/
def VisibilityMemo.Adds (repo : Repository) (shown : ObjectId → Prop)
    (before after : VisibilityMemo) : Prop :=
  ∀ target, (repo.scope, target) ∈ after.visible ↔
    (repo.scope, target) ∈ before.visible ∨ shown target

variable {policy : BrowsePolicy} {capacity : Nat} {repo : Repository} {refs : List RefEntry}
  {roots : List ObjectId} {memo before after : VisibilityMemo} {base id : ObjectId}
  {source : BaseSource} {shown : ObjectId → Prop} {fragment : Fragment} {request : Request}
  {history : List Request}

namespace Fragment

theorem AsksAbout.named (asks : fragment.AsksAbout policy repo refs roots id) :
    ∃ base source, repo.base (String.ofList fragment.base) = .ok (some (base, source)) := by
  cases asks with
  | base named => exact ⟨_, _, named⟩
  | destination named shown moves reached => exact ⟨_, _, named⟩

theorem asksAbout_iff (hbase : repo.base (String.ofList fragment.base) = .ok (some (base, source))) :
    fragment.AsksAbout policy repo refs roots id ↔ (source = .digits ∧ id = base) ∨
      (source = .digits → policy.Exposes repo refs roots base) ∧ fragment.moves = true ∧
        repo.destination base fragment.steps = .ok (some id) := by
  constructor
  · intro asks
    cases asks with
    | base named =>
        rw [hbase] at named
        cases named
        exact .inl ⟨rfl, rfl⟩
    | destination named shown moves reached =>
        rw [hbase] at named
        cases named
        exact .inr ⟨shown, moves, reached⟩
  · rintro (⟨rfl, rfl⟩ | ⟨shown, moves, reached⟩)
    · exact .base hbase
    · exact .destination hbase shown moves reached

theorem ne_nil_of_read? {text : List Char} (hread : read? text = some fragment) : text ≠ [] := by
  rintro rfl
  cases hread

end Fragment

namespace VisibilityMemo

theorem Adds.nothing (hshown : ∀ target, ¬ shown target) : Adds repo shown memo memo :=
  fun target => (or_iff_left (hshown target)).symm

theorem Adds.congr {other : ObjectId → Prop} (adds : Adds repo shown before after)
    (hsame : ∀ target, shown target ↔ other target) : Adds repo other before after :=
  fun target => (adds target).trans (or_congr_right (hsame target))

theorem Adds.isPoisoned_iff (adds : Adds repo shown before after)
    (hlisted : repo.listRefs = .ok refs) (clean : ¬ before.IsPoisoned policy repo) :
    after.IsPoisoned policy repo ↔ ∃ target, shown target ∧ ¬ policy.Exposes repo refs [] target := by
  constructor
  · rintro ⟨target, refs', hlisted', hmem, hhidden⟩
    rw [hlisted] at hlisted'
    cases hlisted'
    rcases (adds target).mp hmem with hold | hshown
    · exact absurd ⟨target, refs, hlisted, hold, hhidden⟩ clean
    · exact ⟨target, hshown, hhidden⟩
  · rintro ⟨target, hshown, hhidden⟩
    exact ⟨target, refs, hlisted, (adds target).mpr (.inr hshown), hhidden⟩

section Complete

variable (complete : repo.Complete) (hroots : ∀ root ∈ roots, repo.Holds root)
  (hlisted : repo.listRefs = .ok refs)
include complete hroots hlisted

theorem Truthful.check_eq_true_iff (truthful : memo.Truthful policy repo roots) (id : ObjectId) :
    (memo.check repo ⟨id, roots⟩).1 = .ok true ↔ policy.Exposes repo refs roots id := by
  rw [check_eq_answer complete truthful.honest truthful.justified hroots]
  constructor
  · intro hanswer
    exact BrowsePolicy.exposes_of_listed hlisted (BrowsePolicy.exposes_of_answer hanswer)
  · intro exposes
    exact complete.answer_of_exposes hroots hlisted exposes

theorem Truthful.check_adds (truthful : memo.Truthful policy repo roots) (id : ObjectId) :
    Adds repo (fun target => target = id ∧ policy.Exposes repo refs roots id) memo
      (memo.check repo ⟨id, roots⟩).2 := by
  intro target
  rw [(check_asks memo repo ⟨id, roots⟩).visible,
    truthful.check_eq_true_iff complete hroots hlisted]
  simp only [Prod.mk.injEq, true_and, and_comm]

theorem asked_adds {α : Type} {rest : Asking (Option α)} (truthful : memo.Truthful policy repo roots)
    (hrest : ∀ memo : VisibilityMemo, memo.Truthful policy repo roots →
      Adds repo shown memo (rest.on memo).2) :
    Adds repo (fun target => policy.Exposes repo refs roots id ∧ (target = id ∨ shown target)) memo
      ((do
        let visible ← repo.isVisible id roots
        if visible = true then rest else pure none : Asking (Option α)).on memo).2 := by
  have hadds := truthful.check_adds complete hroots hlisted id
  have hasked := truthful.check id
  have hshown := truthful.check_eq_true_iff complete hroots hlisted id
  have hon : (repo.isVisible id roots).on memo = memo.check repo ⟨id, roots⟩ := rfl
  rw [Asking.bind_on, hon]
  rcases hcheck : memo.check repo ⟨id, roots⟩ with ⟨result, after⟩
  rw [hcheck] at hadds hasked hshown
  dsimp only at hadds hasked hshown
  -- Only a yes goes on to the rest.
  have hstop : result ≠ .ok true →
      Adds repo (fun target => policy.Exposes repo refs roots id ∧ (target = id ∨ shown target)) memo
        after := by
    intro hne
    have hhidden : ¬ policy.Exposes repo refs roots id := fun exposes => hne (hshown.mpr exposes)
    exact hadds.congr fun target => by simp [hhidden]
  cases result with
  | error fault => exact hstop (by simp)
  | ok visible =>
      cases visible with
      | false => exact hstop (by simp)
      | true =>
          intro target
          have exposes := hshown.mp rfl
          have hlater := (hrest after hasked target).trans (or_congr_left (hadds target))
          simpa [exposes, or_assoc] using hlater

theorem guarded_adds {α : Type} {condition : Prop} [Decidable condition] {rest : Asking (Option α)}
    (shown : ObjectId → Prop) (truthful : memo.Truthful policy repo roots)
    (hrest : ∀ memo : VisibilityMemo, memo.Truthful policy repo roots →
      Adds repo shown memo (rest.on memo).2) :
    Adds repo (fun target => (condition → policy.Exposes repo refs roots id) ∧
        (condition ∧ target = id ∨ shown target)) memo
      ((if condition then do
          let visible ← repo.isVisible id roots
          if visible = true then rest else pure none
        else rest : Asking (Option α)).on memo).2 := by
  by_cases hcondition : condition
  · rw [if_pos hcondition]
    exact (asked_adds complete hroots hlisted truthful hrest).congr fun target => by simp [hcondition]
  · rw [if_neg hcondition]
    exact (hrest memo truthful).congr fun target => by simp [hcondition]

/-- What follows in a fragment once the base is found. -/
theorem destination_adds {name : String} (memo : VisibilityMemo)
    (truthful : memo.Truthful policy repo roots) :
    Adds repo (fun target => fragment.moves = true ∧
        repo.destination base fragment.steps = .ok (some target) ∧
        policy.Exposes repo refs roots target) memo
      ((do
        let some id ← repo.destination base fragment.steps | return none
        if fragment.moves then
          unless ← repo.isVisible id roots do return none
        return some (← repo.revision name id) : Asking (Option Revision)).on memo).2 := by
  rw [Asking.liftM_bind_on]
  rcases hreached : repo.destination base fragment.steps with fault | found
  · exact .nothing (by simp)
  · cases found with
    | none => exact .nothing (by simp)
    | some id =>
        refine (guarded_adds complete hroots hlisted (fun _ => False) truthful
          fun memo truthful => ?_).congr fun target => ?_
        · rw [Asking.liftM_bind_on]
          split
          · exact .nothing (by simp)
          · exact .nothing (by simp)
        · simp only [or_false, Except.ok.injEq, Option.some.injEq]
          constructor
          · rintro ⟨hshown, hmoves, rfl⟩
            exact ⟨hmoves, rfl, hshown hmoves⟩
          · rintro ⟨hmoves, rfl, hshown⟩
            exact ⟨fun _ => hshown, hmoves, rfl⟩

/-- A fragment adds what it asks about and the request may see, also when it names nothing. -/
theorem resolveFragment_adds (truthful : memo.Truthful policy repo roots) (text : List Char) :
    Adds repo (fun target => (∃ fragment, Fragment.read? text = some fragment ∧
        fragment.AsksAbout policy repo refs roots target) ∧ policy.Exposes repo refs roots target)
      memo ((repo.resolveFragment roots text).on memo).2 := by
  unfold Repository.resolveFragment
  split
  · next fragment hread =>
      simp only [hread, Option.some.injEq, exists_eq_left']
      have hnone : (∀ base source,
          repo.base (String.ofList fragment.base) ≠ .ok (some (base, source))) →
          ∀ target, ¬ (fragment.AsksAbout policy repo refs roots target ∧
            policy.Exposes repo refs roots target) := by
        rintro hnameless target ⟨asks, _⟩
        obtain ⟨base, source, hbase⟩ := asks.named
        exact hnameless base source hbase
      rw [Asking.liftM_bind_on]
      rcases hbase : repo.base (String.ofList fragment.base) with fault | found
      · exact .nothing (hnone (by simp [hbase]))
      · cases found with
        | none => exact .nothing (hnone (by simp [hbase]))
        | some found =>
            obtain ⟨base, source⟩ := found
            refine (guarded_adds complete hroots hlisted _ truthful
              (destination_adds complete hroots hlisted)).congr fun target => ?_
            rw [Fragment.asksAbout_iff hbase]
            constructor
            · rintro ⟨hshown, ⟨hdigits, rfl⟩ | ⟨hmoves, hreached, exposes⟩⟩
              · exact ⟨.inl ⟨hdigits, rfl⟩, hshown hdigits⟩
              · exact ⟨.inr ⟨hshown, hmoves, hreached⟩, exposes⟩
            · rintro ⟨⟨hdigits, rfl⟩ | ⟨hshown, hmoves, hreached⟩, exposes⟩
              · exact ⟨fun _ => exposes, .inl ⟨hdigits, rfl⟩⟩
              · exact ⟨hshown, .inr ⟨hmoves, hreached, exposes⟩⟩
  · next hread =>
      refine .nothing ?_
      rintro target ⟨⟨fragment, hfragment, _⟩, _⟩
      exact hread fragment hfragment

end Complete

end VisibilityMemo

namespace Repository

open VisibilityMemo

/-- A range poisons a memo by what its old side asks about, once its new side is resolved. -/
theorem isPoisoned_resolveRange_iff (complete : repo.Complete) (hlisted : repo.listRefs = .ok refs)
    (truthful : memo.Truthful policy repo []) (old new : List Char) :
    ((repo.resolveRange old new).on memo).2.IsPoisoned policy repo ↔
      ∃ revision path fragment target,
        ((repo.resolveWithPath new).on memo).1 = .ok (some (revision, path)) ∧
        Fragment.read? old = some fragment ∧
        fragment.AsksAbout policy repo refs [revision.peeledId] target ∧
        policy.Exposes repo refs [revision.peeledId] target ∧
        ¬ policy.Exposes repo refs [] target := by
  have hclean := truthful.not_isPoisoned complete
  unfold resolveRange
  split
  · next hempty =>
      refine iff_of_false hclean ?_
      rintro ⟨revision, path, fragment, target, hnew, hold, _⟩
      have hnone : (repo.resolveWithPath []).on memo = (.ok none, memo) := rfl
      rcases Bool.or_eq_true_iff.mp hempty with hnil | hnil
      · exact Fragment.ne_nil_of_read? hold (List.isEmpty_iff.mp hnil)
      · rw [List.isEmpty_iff.mp hnil, hnone] at hnew
        cases hnew
  · have hfirst := resolveFirst_related (isVisible_related_agreeing complete (List.forall_mem_nil _))
      (Expression.candidates new) memo memo (Agreeing.of_truthful truthful truthful)
    have hafter : ((repo.resolveWithPath new).on memo).2.Truthful policy repo [] :=
      hfirst.2.leftTruthful
    rw [Asking.bind_on]
    rcases hnew : (repo.resolveWithPath new).on memo with ⟨result, after⟩
    rw [hnew] at hafter
    dsimp only at hafter ⊢
    cases result with
    | error fault => exact iff_of_false (hafter.not_isPoisoned complete) (by simp)
    | ok found =>
        cases found with
        | none => exact iff_of_false (hafter.not_isPoisoned complete) (by simp)
        | some found =>
            obtain ⟨revision, path⟩ := found
            have hroots : ∀ root ∈ [revision.peeledId], repo.Holds root := by
              intro root hroot
              rw [List.mem_singleton.mp hroot]
              exact (resolveFirst_peels hnew).holds_right
            have hrooted : after.Truthful policy repo [revision.peeledId] :=
              ⟨hafter.honest, hafter.justified.mono (List.nil_subset _)⟩
            have hadds := resolveFragment_adds complete hroots hlisted hrooted old
            dsimp only
            rw [Asking.bind_on_of_silent,
              hadds.isPoisoned_iff hlisted (hafter.not_isPoisoned complete)]
            constructor
            · rintro ⟨target, ⟨⟨fragment, hread, asks⟩, hshown⟩, hhidden⟩
              exact ⟨revision, path, fragment, target, rfl, hread, asks, hshown, hhidden⟩
            · rintro ⟨_, _, fragment, target, hsame, hread, asks, hshown, hhidden⟩
              cases hsame
              exact ⟨target, ⟨⟨fragment, hread, asks⟩, hshown⟩, hhidden⟩
            · intro found memo
              cases found with
              | none => rfl
              | some oldRevision => rfl

end Repository

namespace Request

open VisibilityMemo

/-- A request poisons exactly when it is shown something by its roots alone. -/
theorem poisons_iff (complete : repo.Complete) (held : request.RootsHeld repo) :
    request.Poisons policy capacity repo ↔
      ∃ refs, repo.listRefs = .ok refs ∧ request.ShowsByRoots policy capacity repo refs := by
  obtain ⟨refs, hlisted⟩ := complete.exists_listRefs
  cases request with
  | resolve text =>
      have hrange : ∀ old new, Expression.read? text.toList = some (.range old new) →
          repo.resolve text = repo.resolveRange old new := by
        intro old new hread
        simp only [Repository.resolve, hread, Repository.resolveExpression]
      have hfresh : (VisibilityMemo.empty policy capacity).Truthful policy repo [] := truthful_empty
      have hpoisons := Repository.isPoisoned_resolveRange_iff complete hlisted hfresh
      constructor
      · intro poisons
        obtain ⟨old, new, hread⟩ := asksWithRoots_of_poisons poisons
        rw [Poisons, serve, hrange old new hread] at poisons
        obtain ⟨revision, path, fragment, target, hnew, hold, asks, shown, hidden⟩ :=
          (hpoisons old new).mp poisons
        exact ⟨refs, hlisted, .range hread hnew hold asks shown hidden⟩
      · rintro ⟨refs', hlisted', shows⟩
        rw [hlisted] at hlisted'
        cases hlisted'
        cases shows with
        | range reads resolves readsOld asks shown hidden =>
            rw [Poisons, serve, hrange _ _ reads]
            exact (hpoisons _ _).mpr ⟨_, _, _, _, resolves, readsOld, asks, shown, hidden⟩
  | look query =>
      have hfresh : (VisibilityMemo.empty policy capacity).Truthful policy repo query.roots :=
        truthful_empty
      have hclean : ¬ (VisibilityMemo.empty policy capacity).IsPoisoned policy repo :=
        truthful_empty.not_isPoisoned complete
      rw [Poisons, serve,
        (hfresh.check_adds complete held hlisted query.target).isPoisoned_iff hlisted hclean]
      constructor
      · rintro ⟨target, ⟨rfl, shown⟩, hidden⟩
        exact ⟨refs, hlisted, .look shown hidden⟩
      · rintro ⟨refs', hlisted', shows⟩
        rw [hlisted] at hlisted'
        cases hlisted'
        cases shows with
        | look shown hidden => exact ⟨query.target, ⟨rfl, shown⟩, hidden⟩

end Request

namespace Repository

open VisibilityMemo

/-- Independence of the history. Requests without roots are answered as if nothing had been asked
before if and only if no request before was shown, by roots alone, something that no ref exposes. -/
theorem Complete.serve_independent_iff (complete : repo.Complete) (policy : BrowsePolicy)
    (capacity : Nat) (history : List Request) :
    ((∀ request : Request, request.IsRootless →
        (request.serve repo (Request.serveAll repo history (.empty policy capacity))).1 =
          (request.serve repo (.empty policy capacity)).1) ↔
      ∀ earlier ∈ history, ¬ earlier.Poisons policy capacity repo) ∧
    (∀ request : Request, request.Poisons policy capacity repo → request.AsksWithRoots) ∧
    ∀ request : Request, request.RootsHeld repo → (request.Poisons policy capacity repo ↔
      ∃ refs, repo.listRefs = .ok refs ∧ request.ShowsByRoots policy capacity repo refs) := by
  have hfresh : (VisibilityMemo.empty policy capacity).Truthful policy repo [] := truthful_empty
  refine ⟨?_, fun _ => Request.asksWithRoots_of_poisons, fun _ => Request.poisons_iff complete⟩
  constructor
  · intro hsame earlier hmem poisons
    have hpoisoned := Request.isPoisoned_serveAll_of_poisons complete hfresh hmem poisons
    obtain ⟨request, hrootless, hdiffers⟩ := Request.exists_serve_ne hpoisoned
    exact hdiffers (hsame request hrootless)
  · intro hclean request hrootless
    have truthful := Request.truthful_serveAll complete hfresh hclean
    exact (Request.serve_comparable complete (Agreeing.of_truthful truthful hfresh) request).1 hrootless

/-- One comparison of an excluded tip with its parent, with which the parent is then shown alone. -/
theorem serve_after_reviewedRange :
    underReview.Complete ∧ (Request.resolve "1111").IsRootless ∧
    ((Request.resolve "1111").serve underReview (Request.serveAll underReview
        [.resolve reviewedRange] (.empty ⟨["refs/changes/"]⟩ 4))).1 ≠
      ((Request.resolve "1111").serve underReview (.empty ⟨["refs/changes/"]⟩ 4)).1 :=
  ⟨underReview_complete, trivial, by decide +kernel⟩

theorem serve_independent_iff_underReview :
    underReview.Complete ∧
    (((∀ request : Request, request.IsRootless →
        (request.serve underReview (Request.serveAll underReview
            [.resolve "2222", .look ⟨firstChange, []⟩] (.empty ⟨["refs/changes/"]⟩ 4))).1 =
          (request.serve underReview (.empty ⟨["refs/changes/"]⟩ 4)).1) ↔
      ∀ earlier ∈ [Request.resolve "2222", .look ⟨firstChange, []⟩],
        ¬ earlier.Poisons ⟨["refs/changes/"]⟩ 4 underReview) ∧
    (∀ request : Request, request.Poisons ⟨["refs/changes/"]⟩ 4 underReview →
      request.AsksWithRoots) ∧
    ∀ request : Request, request.RootsHeld underReview →
      (request.Poisons ⟨["refs/changes/"]⟩ 4 underReview ↔
        ∃ refs, underReview.listRefs = .ok refs ∧
          request.ShowsByRoots ⟨["refs/changes/"]⟩ 4 underReview refs)) :=
  ⟨underReview_complete,
    underReview_complete.serve_independent_iff ⟨["refs/changes/"]⟩ 4
      [.resolve "2222", .look ⟨firstChange, []⟩]⟩

end Repository

end GuardedRevision
