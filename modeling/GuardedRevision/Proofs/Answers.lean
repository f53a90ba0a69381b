import GuardedRevision.Proofs.Storage
import GuardedRevision.VisibilityMemo

/-!
# Answers about visibility

`BrowsePolicy.answer` is what a memo answers that remembers nothing. What any other memo answers
differs from it only where the memo remembers the target as visible or as hidden. The lemmas here say
what a question adds to each of the two memories; later modules do not look into `check`.
-/

namespace GuardedRevision

namespace BrowsePolicy

/-- The stages of a search: the roots, then the tips of branches, tags and other browsable refs. -/
def stages (policy : BrowsePolicy) (refs : List RefEntry) (roots : List ObjectId) :
    List (List ObjectId) :=
  VisibilityMemo.sortedRoots roots :: (policy.tips refs).stages

/-- The answer of a search that nothing is remembered for. -/
def answer (policy : BrowsePolicy) (repo : Repository) (query : VisibilityQuery) :
    Except Fault Bool :=
  match repo.listRefs with
  | .error fault => .error fault
  | .ok refs =>
      if isTip refs query.target then .ok true
      else
        match repo.kind query.target with
        | .error fault => .error fault
        | .ok .commit => repo.isReachableInStages query.target (policy.stages refs query.roots) []
        | .ok _ => .ok false

def hiddenKey (policy : BrowsePolicy) (repo : Repository) (refs : List RefEntry)
    (target : ObjectId) : HiddenKey :=
  ⟨repo.scope, target, .ofRefs ((policy.browsable refs).map fun entry => (entry.name, entry.target))⟩

/-- Whether an answer about the target comes from a search: it is a commit and no tip of a ref. -/
structure Searches (repo : Repository) (refs : List RefEntry) (target : ObjectId) : Prop where
  listed : repo.listRefs = .ok refs
  noTip : isTip refs target = false
  commit : repo.isCommit target = true

variable {policy : BrowsePolicy} {repo : Repository} {refs : List RefEntry} {query : VisibilityQuery}

theorem Searches.answer (searches : Searches repo refs query.target) :
    policy.answer repo query =
      repo.isReachableInStages query.target (policy.stages refs query.roots) [] := by
  have hkind : repo.kind query.target = .ok .commit :=
    Repository.kind_eq_commit_iff.mpr searches.commit
  simp only [BrowsePolicy.answer, searches.listed, searches.noTip, Bool.false_eq_true, if_false, hkind]

end BrowsePolicy

namespace VisibilityMemo

variable {memo : VisibilityMemo} {repo : Repository} {query : VisibilityQuery}
  {scope : String} {target : ObjectId} {key other : HiddenKey}

@[simp]
theorem policy_rememberVisible : (memo.rememberVisible scope target).policy = memo.policy := by
  unfold rememberVisible
  split
  · rfl
  · rfl

@[simp]
theorem hidden_rememberVisible : (memo.rememberVisible scope target).hidden = memo.hidden := by
  unfold rememberVisible
  split
  · rfl
  · rfl

theorem mem_visible_rememberVisible {pair : String × ObjectId} :
    pair ∈ (memo.rememberVisible scope target).visible ↔
      pair ∈ memo.visible ∨ pair = (scope, target) := by
  unfold rememberVisible
  split
  · next hold =>
      have hmem : (scope, target) ∈ memo.visible := by simpa using hold
      constructor
      · exact .inl
      · rintro (h | rfl)
        · exact h
        · exact hmem
  · rw [List.mem_cons, or_comm]

@[simp]
theorem policy_rememberHidden : (memo.rememberHidden key).policy = memo.policy := by
  unfold rememberHidden
  split
  · rfl
  · rfl

@[simp]
theorem visible_rememberHidden : (memo.rememberHidden key).visible = memo.visible := by
  unfold rememberHidden
  split
  · rfl
  · rfl

theorem mem_roomFor (hmem : other ∈ memo.roomFor key) : other ∈ memo.hidden := by
  unfold roomFor at hmem
  split at hmem
  · exact hmem
  · dsimp only at hmem
    split at hmem
    · exact (List.mem_filter.mp hmem).1
    · simp at hmem

/-- Room is made by forgetting, so only the new key is added. -/
theorem mem_hidden_rememberHidden (hmem : other ∈ (memo.rememberHidden key).hidden) :
    other ∈ memo.hidden ∨ other = key := by
  unfold rememberHidden at hmem
  split at hmem
  · exact .inl hmem
  · dsimp only at hmem
    split at hmem
    · exact .inl (mem_roomFor hmem)
    · rcases List.mem_cons.mp hmem with heq | hold
      · exact .inr heq
      · exact .inl (mem_roomFor hold)

def Denies (memo : VisibilityMemo) (repo : Repository) (query : VisibilityQuery) : Prop :=
  query.roots = [] ∧ ∃ refs, BrowsePolicy.Searches repo refs query.target ∧
    memo.policy.hiddenKey repo refs query.target ∈ memo.hidden

/-- What a question is answered, and what it leaves in the memo. -/
structure Asks (memo : VisibilityMemo) (repo : Repository) (query : VisibilityQuery)
    (result : Except Fault Bool) (after : VisibilityMemo) : Prop where
  policy : after.policy = memo.policy
  visible : ∀ pair, pair ∈ after.visible ↔
    pair ∈ memo.visible ∨ (result = .ok true ∧ pair = (repo.scope, query.target))
  hidden : ∀ key ∈ after.hidden, key ∈ memo.hidden ∨
    ((repo.scope, query.target) ∉ memo.visible ∧ query.roots = [] ∧
      memo.policy.answer repo query = .ok false ∧
      ∃ refs, BrowsePolicy.Searches repo refs query.target ∧
        key = memo.policy.hiddenKey repo refs query.target)
  shown : (repo.scope, query.target) ∈ memo.visible → result = .ok true
  denied : (repo.scope, query.target) ∉ memo.visible → memo.Denies repo query → result = .ok false
  answered : (repo.scope, query.target) ∉ memo.visible → ¬ memo.Denies repo query →
    result = memo.policy.answer repo query

theorem not_denies {refs : List RefEntry} (hlisted : repo.listRefs = .ok refs)
    (hnot : BrowsePolicy.isTip refs query.target = true ∨ repo.isCommit query.target = false) :
    ¬ memo.Denies repo query := by
  rintro ⟨_, refs', searches, _⟩
  have hsame := searches.listed
  rw [hlisted] at hsame
  cases hsame
  rcases hnot with htip | hplain
  · rw [searches.noTip] at htip
    cases htip
  · rw [searches.commit] at hplain
    cases hplain

theorem asks_error {fault : Fault} {after : VisibilityMemo}
    (hpolicy : after.policy = memo.policy) (hvisible : after.visible = memo.visible)
    (hhidden : after.hidden = memo.hidden) (hnew : (repo.scope, query.target) ∉ memo.visible)
    (hfree : ¬ memo.Denies repo query) (hanswer : memo.policy.answer repo query = .error fault) :
    memo.Asks repo query (.error fault) after :=
  ⟨hpolicy, by simp [hvisible], fun _ h => .inl (hhidden ▸ h), fun h => absurd h hnew,
    fun _ h => absurd h hfree, fun _ _ => hanswer.symm⟩

theorem asks_shown {after : VisibilityMemo} (hpolicy : after.policy = memo.policy)
    (hvisible : ∀ pair, pair ∈ after.visible ↔
      pair ∈ memo.visible ∨ pair = (repo.scope, query.target))
    (hhidden : after.hidden = memo.hidden) (hfree : ¬ memo.Denies repo query)
    (hanswer : memo.policy.answer repo query = .ok true) :
    memo.Asks repo query (.ok true) after := by
  refine ⟨hpolicy, fun pair => ?_, fun _ h => .inl (hhidden ▸ h), fun _ => rfl,
    fun _ h => absurd h hfree, fun _ _ => hanswer.symm⟩
  rw [hvisible, and_iff_right rfl]

theorem asks_hidden {after : VisibilityMemo} (hpolicy : after.policy = memo.policy)
    (hvisible : after.visible = memo.visible)
    (hhidden : ∀ key ∈ after.hidden, key ∈ memo.hidden ∨ (query.roots = [] ∧
      ∃ refs, BrowsePolicy.Searches repo refs query.target ∧
        key = memo.policy.hiddenKey repo refs query.target))
    (hnew : (repo.scope, query.target) ∉ memo.visible)
    (hanswer : memo.policy.answer repo query = .ok false) :
    memo.Asks repo query (.ok false) after := by
  refine ⟨hpolicy, by simp [hvisible], fun key hkey => ?_, fun h => absurd h hnew, fun _ _ => rfl,
    fun _ _ => hanswer.symm⟩
  exact (hhidden key hkey).imp_right fun h => ⟨hnew, h.1, hanswer, h.2⟩

theorem search_asks {refs : List RefEntry} (searches : BrowsePolicy.Searches repo refs query.target)
    (hnew : (repo.scope, query.target) ∉ memo.visible) :
    memo.Asks repo query (memo.search repo refs query).1 (memo.search repo refs query).2 := by
  have hdenies : memo.Denies repo query ↔
      (query.roots.isEmpty && memo.hidden.contains ⟨repo.scope, query.target, memo.generation refs⟩) = true := by
    rw [Bool.and_eq_true, List.isEmpty_iff, List.contains_iff_mem]
    constructor
    · rintro ⟨hroots, refs', searches', hmem⟩
      have hsame := searches'.listed
      rw [searches.listed] at hsame
      cases hsame
      exact ⟨hroots, hmem⟩
    · rintro ⟨hroots, hmem⟩
      exact ⟨hroots, refs, searches, hmem⟩
  have hanswer : memo.policy.answer repo query =
      repo.isReachableInStages query.target (memo.policy.stages refs query.roots) [] :=
    searches.answer
  unfold search
  dsimp only
  split
  · next hdenied =>
      exact ⟨rfl, by simp [countHit], fun _ h => .inl h, fun h => absurd h hnew, fun _ _ => rfl,
        fun _ h => absurd (hdenies.mpr hdenied) h⟩
  · next hfree =>
      have hno : ¬ memo.Denies repo query := fun h => hfree (hdenies.mp h)
      split
      · next fault hrun => exact asks_error rfl rfl rfl hnew hno (hanswer.trans hrun)
      · next hrun =>
          refine asks_shown ?_ (fun _ => ?_) ?_ hno (hanswer.trans hrun)
          · exact policy_rememberVisible
          · exact mem_visible_rememberVisible
          · exact hidden_rememberVisible
      · next hrun =>
          refine asks_hidden ?_ ?_ ?_ hnew (hanswer.trans hrun)
          · split
            · exact policy_rememberHidden
            · rfl
          · split
            · exact visible_rememberHidden
            · rfl
          · intro key hkey
            split at hkey
            · next hroots =>
                rcases mem_hidden_rememberHidden hkey with hold | rfl
                · exact .inl hold
                · exact .inr ⟨List.isEmpty_iff.mp hroots, refs, searches, rfl⟩
            · exact .inl hkey

/-- One question. Where nothing is remembered about the target it gets the answer of a search. -/
theorem check_asks (memo : VisibilityMemo) (repo : Repository) (query : VisibilityQuery) :
    memo.Asks repo query (memo.check repo query).1 (memo.check repo query).2 := by
  unfold check
  split
  · next hold =>
      have hmem : (repo.scope, query.target) ∈ memo.visible := List.contains_iff_mem.mp hold
      refine ⟨rfl, fun pair => ?_, fun _ h => .inl h, fun _ => rfl, fun h => absurd hmem h,
        fun h => absurd hmem h⟩
      constructor
      · exact .inl
      · rintro (h | ⟨_, rfl⟩)
        · exact h
        · exact hmem
  · next hnot =>
      have hnew : (repo.scope, query.target) ∉ memo.visible := fun h =>
        hnot (List.contains_iff_mem.mpr h)
      split
      · next fault hlisted =>
          refine asks_error rfl rfl rfl hnew ?_ (by rw [BrowsePolicy.answer, hlisted])
          rintro ⟨_, refs, searches, _⟩
          rw [searches.listed] at hlisted
          cases hlisted
      · next refs hlisted =>
          split
          · next htip =>
              have hanswer : memo.policy.answer repo query = .ok true := by
                simp only [BrowsePolicy.answer, hlisted, htip, if_true]
              refine asks_shown ?_ (fun _ => ?_) ?_ (not_denies hlisted (.inl htip)) hanswer
              · exact policy_rememberVisible
              · exact mem_visible_rememberVisible
              · exact hidden_rememberVisible
          · next htip =>
              have hnoTip : BrowsePolicy.isTip refs query.target = false := by simpa using htip
              split
              · next fault hkind =>
                  have hplain : repo.isCommit query.target = false := by
                    rw [Bool.eq_false_iff, ne_eq, ← Repository.kind_eq_commit_iff, hkind]
                    simp
                  refine asks_error rfl rfl rfl hnew (not_denies hlisted (.inr hplain)) ?_
                  simp only [BrowsePolicy.answer, hlisted, hnoTip, hkind, Bool.false_eq_true, if_false]
              · next hkind =>
                  exact search_asks ⟨hlisted, hnoTip, Repository.kind_eq_commit_iff.mp hkind⟩ hnew
              · next kind hplain hkind =>
                  refine asks_hidden rfl rfl (fun _ h => .inl h) hnew ?_
                  simp only [BrowsePolicy.answer, hlisted, hnoTip, hkind, Bool.false_eq_true, if_false]

/-- What is remembered as visible stays remembered. -/
theorem visible_subset_check (memo : VisibilityMemo) (repo : Repository) (query : VisibilityQuery) :
    memo.visible ⊆ (memo.check repo query).2.visible :=
  fun pair hmem => ((check_asks memo repo query).visible pair).mpr (.inl hmem)

end VisibilityMemo

end GuardedRevision
