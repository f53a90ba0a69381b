import GuardedRevision.Command.Run
import GuardedRevision.Proofs.HiddenHistory

/-!
# Commands over a larger store

What is printed, and why a command fails, does not depend on objects that no ref leads to.
-/

namespace GuardedRevision

def Command.bases : Command → List String
  | .parse expression => Expression.bases expression
  | .log expression _ => Expression.bases expression
  | .tags _ => []
  | .visible digits => [digits]

def Surroundings.storing (world : Surroundings) (path : String) (repo : Repository)
    (gitDirectory : String) : Surroundings :=
  { world with repository? := Function.update world.repository? path (some (repo, gitDirectory)) }

variable {repo larger : Repository} {settings : Settings} {resolution : Resolution}
  {expression digits path gitDirectory : String} {options : LogOptions} {command : Command}

@[simp]
theorem Surroundings.current_storing (world : Surroundings) :
    (world.storing path repo gitDirectory).current = world.current := rfl

theorem Surroundings.session_storing (world : Surroundings) :
    (world.storing path repo gitDirectory).session path =
      ((Settings.load world.files (world.places.find? world.files) (some gitDirectory)).mapError
        fun error => Failure.during "failed to load config" (.settings error)).map
        fun settings => ⟨repo, settings⟩ := by
  simp only [Surroundings.session, Surroundings.storing, Function.update_self]
  cases Settings.load world.files (world.places.find? world.files) (some gitDirectory) with
  | error error => rfl
  | ok settings => rfl

/-! ### Sessions -/

theorem Session.seeded_of_walk {walk : HistoryWalk}
    (hwalk : (⟨repo, settings⟩ : Session).walk expression resolution = .ok walk) : walk.Seeded repo := by
  unfold Session.walk at hwalk
  cases hseeded : resolution.walk repo with
  | error fault =>
      rw [hseeded] at hwalk
      cases hwalk
  | ok seeded =>
      rw [hseeded] at hwalk
      cases hwalk
      exact Resolution.seeded_of_walk hseeded

namespace Repository.Within

variable (within : repo.Within larger) (complete : repo.Complete)
include within complete

theorem resolve_session (hquiet : ∀ base ∈ Expression.bases expression, ¬ repo.MayTell larger base) :
    (⟨larger, settings⟩ : Session).resolve expression =
      (⟨repo, settings⟩ : Session).resolve expression :=
  within.resolve_of_kindred complete VisibilityMemo.kindred_empty hquiet

theorem parse_session (hquiet : ∀ base ∈ Expression.bases expression, ¬ repo.MayTell larger base) :
    (⟨larger, settings⟩ : Session).parse expression = (⟨repo, settings⟩ : Session).parse expression := by
  unfold Session.parse
  rw [within.resolve_session complete hquiet]

theorem walk_session
    (hresolve : (⟨repo, settings⟩ : Session).resolve expression = .ok (some resolution)) :
    (⟨larger, settings⟩ : Session).walk expression resolution =
      ((⟨repo, settings⟩ : Session).walk expression resolution).map fun walk : HistoryWalk =>
        { walk with repo := larger } := by
  obtain ⟨holds, holdsOld⟩ := complete.holds_of_resolve hresolve
  unfold Session.walk
  rw [resolution.walk_larger within holds holdsOld]
  cases resolution.walk repo with
  | error fault => rfl
  | ok walk => rfl

theorem page_session (hquiet : ∀ base ∈ Expression.bases expression, ¬ repo.MayTell larger base) :
    (⟨larger, settings⟩ : Session).page expression options =
      (⟨repo, settings⟩ : Session).page expression options := by
  unfold Session.page
  rw [within.resolve_session complete hquiet]
  cases hresolve : (⟨repo, settings⟩ : Session).resolve expression with
  | error fault => rfl
  | ok found =>
      cases found with
      | none => rfl
      | some resolution =>
          dsimp only
          rw [within.walk_session complete hresolve]
          cases Session.start? options.start with
          | error failure => rfl
          | ok start =>
              cases hwalk : (⟨repo, settings⟩ : Session).walk expression resolution with
              | error failure => rfl
              | ok walk =>
                  have seeded := Session.seeded_of_walk hwalk
                  cases hfirst : options.firstParent with
                  | false =>
                      exact congrArg (Except.mapError _) (seeded.page_eq complete within.grows _ start)
                  | true =>
                      exact congrArg (Except.mapError _)
                        (seeded.firstParentOnly.page_eq complete within.grows _ start)

theorem log_session (hquiet : ∀ base ∈ Expression.bases expression, ¬ repo.MayTell larger base) :
    (⟨larger, settings⟩ : Session).log expression options =
      (⟨repo, settings⟩ : Session).log expression options := by
  unfold Session.log
  rw [within.page_session complete hquiet]

theorem tags_session (limit : Option Nat) :
    (⟨larger, settings⟩ : Session).tags limit = (⟨repo, settings⟩ : Session).tags limit := by
  unfold Session.tags
  rw [TimeMemo.listTags_larger within complete]

theorem isVisible_session (hquiet : ¬ repo.MayTell larger digits) :
    (⟨larger, settings⟩ : Session).isVisible digits =
      (⟨repo, settings⟩ : Session).isVisible digits := by
  unfold Session.isVisible Settings.memo
  rcases within.withDigits?_cases hquiet with hsame | ⟨id, hnone, hsome, gains⟩
  · dsimp only
    rw [hsame]
    cases hfound : repo.withDigits? digits with
    | error fault => rfl
    | ok found =>
        cases found with
        | none => rfl
        | some id =>
            dsimp only
            rw [VisibilityMemo.check_empty, VisibilityMemo.check_empty]
            exact within.answer complete (List.forall_mem_nil _) (holds_of_withDigits? hfound)
  · dsimp only
    rw [hnone, hsome]
    dsimp only
    rw [VisibilityMemo.check_empty]
    exact within.answer_of_gains complete (List.forall_mem_nil _) gains

theorem run_session (hquiet : ∀ base ∈ command.bases, ¬ repo.MayTell larger base) :
    (⟨larger, settings⟩ : Session).run command = (⟨repo, settings⟩ : Session).run command := by
  cases command with
  | parse expression => exact within.parse_session complete hquiet
  | log expression options => exact within.log_session complete hquiet
  | tags limit => exact within.tags_session complete limit
  | visible digits =>
      have hsame : (⟨larger, settings⟩ : Session).isVisible digits = _ :=
        within.isVisible_session complete (hquiet digits List.mem_cons_self)
      simp only [Session.run, Session.visible, hsame]

/-! ### Invocations -/

/-- Noninterference of commands. What a command prints, and the causes of its failure, are the same in
a store with more objects that no ref leads to, unless a base it looks for is an abbreviation or the id
of an object that cannot be read. -/
theorem run_eq (world : Surroundings) (gitDirectory : String) (invocation : Invocation)
    (hquiet : ∀ base ∈ invocation.command.bases, ¬ repo.MayTell larger base) :
    (world.storing (invocation.directory.getD world.current) larger gitDirectory).run invocation =
      (world.storing (invocation.directory.getD world.current) repo gitDirectory).run invocation := by
  simp only [Surroundings.run, Surroundings.current_storing, Surroundings.session_storing]
  cases Settings.load world.files (world.places.find? world.files) (some gitDirectory) with
  | error error => rfl
  | ok settings => exact within.run_session complete hquiet

end Repository.Within

namespace Repository

def bareSurroundings : Surroundings := ⟨"/srv/git", fun _ => none, fun _ => none, ⟨none, none, none⟩⟩

theorem run_eq_draft :
    underReview.Complete ∧ underReview.Within withDrafts ∧ withDrafts.isCommit draft = true ∧
    (∀ base ∈ Expression.bases "refs/changes/1", ¬ underReview.MayTell withDrafts base) ∧
    (bareSurroundings.storing "/srv/git" withDrafts "/srv/git/.git").run
        ⟨none, false, .log "refs/changes/1" ⟨some 1, some draft.text, false, false⟩⟩ =
      (bareSurroundings.storing "/srv/git" underReview "/srv/git/.git").run
        ⟨none, false, .log "refs/changes/1" ⟨some 1, some draft.text, false, false⟩⟩ ∧
    (bareSurroundings.storing "/srv/git" underReview "/srv/git/.git").run
        ⟨none, false, .log "refs/changes/1" ⟨some 1, some draft.text, false, false⟩⟩ =
      .ok "2222222 1970-01-01  \nnext: 1111111111111111111111111111111111111111\n" := by
  have hnames : ∀ base ∈ Expression.bases "refs/changes/1",
      ObjectId.isAbbreviation base = false ∧ (ObjectId.parse base).isOk = false := by decide +kernel
  have hquiet : ∀ base ∈ Expression.bases "refs/changes/1", ¬ underReview.MayTell withDrafts base := by
    intro base hmem
    obtain ⟨hlong, hname⟩ := hnames base hmem
    rintro (hshort | ⟨id, hparse, _⟩)
    · rw [hlong] at hshort
      cases hshort
    · rw [hparse] at hname
      cases hname
  have hsame := within_withDrafts.run_eq underReview_complete bareSurroundings "/srv/git/.git"
    ⟨none, false, .log "refs/changes/1" ⟨some 1, some draft.text, false, false⟩⟩ hquiet
  exact ⟨underReview_complete, within_withDrafts, by decide +kernel, hquiet, hsame, by decide +kernel⟩

/-- The command for one id fails where the object cannot be read, and not where there is none. -/
theorem run_ne_tornDraft :
    underReview.Complete ∧ underReview.Within withDrafts ∧
    ObjectId.isAbbreviation tornDraft.text = false ∧
    (bareSurroundings.storing "/srv/git" underReview "/srv/git/.git").run
      ⟨none, false, .visible tornDraft.text⟩ = .ok "not visible\n" ∧
    (bareSurroundings.storing "/srv/git" withDrafts "/srv/git/.git").run
      ⟨none, false, .visible tornDraft.text⟩ = .error (.of (.fault .internal)) :=
  ⟨underReview_complete, within_withDrafts, by decide +kernel, by decide +kernel, by decide +kernel⟩

end Repository

end GuardedRevision
