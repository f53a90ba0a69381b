import GuardedRevision.Proofs.AssembledStores
import GuardedRevision.Proofs.TagListings

/-!
# Times for several repositories

A memo remembers times under ids alone, so one that several repositories share can answer for an object
that the asked repository does not have. Nothing else comes of sharing it: what a repository would answer
by itself it answers, and listings of tags are always the same.
-/

namespace GuardedRevision

inductive TimeCall where
  | time (id : ObjectId)
  | tags (limit : Option Nat)
  deriving DecidableEq

inductive TimeReply where
  | time (answer : Except Fault Int)
  | tags (answer : Except Fault (List TagEntry))
  deriving DecidableEq

namespace TimeMemo

def call (memo : TimeMemo) (repo : Repository) : TimeCall → TimeReply × TimeMemo
  | .time id => (.time (memo.time repo id).1, (memo.time repo id).2)
  | .tags limit => (.tags (memo.listTags repo limit).1, (memo.listTags repo limit).2)

/-! ### What is met on a chain -/

/-- `Meets memo repo links id other`: the chain from `id` comes to what is remembered after so many links,
at `other`. -/
inductive Meets (memo : TimeMemo) (repo : Repository) : Nat → ObjectId → ObjectId → Prop where
  | stop {id : ObjectId} (known : memo.time? id ≠ none) : Meets memo repo 0 id id
  | tag {links : Nat} {id target other : ObjectId} (hnew : memo.time? id = none)
      (inherits : repo.InheritsFrom id target) (rest : Meets memo repo links target other) :
      Meets memo repo (links + 1) id other

variable {repo larger : Repository} {memo shared alone : TimeMemo} {id other : ObjectId} {links steps : Nat}
  {refs : List RefEntry} {tags : List TagEntry} {limit : Option Nat}

theorem exists_meets (along : repo.InheritsAlong id other) (known : memo.time? other ≠ none) :
    ∃ links met, memo.Meets repo links id met := by
  induction along using Relation.ReflTransGen.head_induction_on with
  | refl => exact ⟨0, other, .stop known⟩
  | @head id target inherits _ ih =>
      by_cases hnew : memo.time? id = none
      · obtain ⟨links, met, meets⟩ := ih
        exact ⟨links + 1, met, .tag hnew inherits meets⟩
      · exact ⟨0, id, .stop hnew⟩

theorem Meets.unique {left right : Nat} (hleft : memo.Meets repo left id other)
    (hright : memo.Meets repo right id other) : left = right := by
  induction hleft generalizing right with
  | stop known =>
      cases hright with
      | stop _ => rfl
      | tag hnew _ _ => exact absurd hnew known
  | tag hnew inherits _ ih =>
      cases hright with
      | stop known => exact absurd hnew known
      | tag _ inherits' rest =>
          obtain rfl := inherits.unique inherits'
          rw [ih rest]

theorem Meets.lt_steps (meets : memo.Meets repo links id other) : links < repo.objects.length + 1 := by
  have hbound : links ≤ (repo.objects.map Prod.fst).length := by
    refine @Repository.distance_le_length id (fun links id => memo.Meets repo links id other) _
      Meets.unique ?_ links meets
    intro links id meets
    cases meets with
    | tag _ inherits rest => exact ⟨Repository.mem_keys_of_object inherits (by simp), _, rest⟩
  rw [List.length_map] at hbound
  omega

theorem Meets.deriveWithin (meets : memo.Meets repo links id other) (henough : links < steps) :
    ∃ found, memo.deriveWithin repo steps id = .ok found := by
  induction meets generalizing steps with
  | stop known =>
      obtain ⟨steps, rfl⟩ := Nat.exists_eq_succ_of_ne_zero (by omega : steps ≠ 0)
      obtain ⟨time, hknown⟩ := Option.ne_none_iff_exists'.mp known
      exact ⟨_, deriveWithin_of_known hknown⟩
  | @tag links id target other hnew inherits _ ih =>
      obtain ⟨steps, rfl⟩ := Nat.exists_eq_succ_of_ne_zero (by omega : steps ≠ 0)
      obtain ⟨found, hrest⟩ := ih (by omega : links < steps)
      exact ⟨_, by rw [deriveWithin_of_inherits hnew inherits, hrest]; rfl⟩

theorem deriveWithin_of_unknown (unknown : ∀ other, repo.InheritsAlong id other → memo.time? other = none) :
    memo.deriveWithin repo steps id = empty.deriveWithin repo steps id := by
  induction steps generalizing id with
  | zero => rfl
  | succ steps ih =>
      have hnew := unknown id .refl
      rcases repo.inheritsFrom_or_decides id with ⟨target, inherits⟩ | decides
      · rw [deriveWithin_of_inherits hnew inherits, deriveWithin_of_inherits rfl inherits,
          ih fun other along => unknown other (.head inherits along)]
      · rw [deriveWithin_of_decides hnew decides, deriveWithin_of_decides rfl decides]

theorem exists_time_of_known (along : repo.InheritsAlong id other) (known : memo.time? other ≠ none) :
    ∃ time, (memo.time repo id).1 = .ok time := by
  obtain ⟨links, met, meets⟩ := exists_meets along known
  obtain ⟨⟨time, visited⟩, hderive⟩ := meets.deriveWithin meets.lt_steps
  exact ⟨time, by rw [TimeMemo.time, show memo.derive repo id = .ok (time, visited) from hderive]⟩

theorem Sound.time_eq_iff (grows : repo.Grows larger) (sound : shared.Sound larger) :
    (shared.time repo id).1 = (empty.time repo id).1 ↔ (∃ time, repo.HasTime id time) ∨
      ∀ other, repo.InheritsAlong id other → shared.time? other = none := by
  constructor
  · intro hsame
    by_contra hnot
    obtain ⟨timeless, other, along, known⟩ : (∀ time, ¬ repo.HasTime id time) ∧
        ∃ other, repo.InheritsAlong id other ∧ shared.time? other ≠ none := by simpa using hnot
    obtain ⟨time, htime⟩ := exists_time_of_known along known
    exact timeless time (derived_empty.sound.time_eq_ok_iff.mp (hsame.symm.trans htime))
  · rintro (⟨time, hasTime⟩ | unknown)
    · rw [sound.time_of_hasTime grows hasTime, derived_empty.sound.time_eq_ok_iff.mpr hasTime]
    · have hderive : shared.derive repo id = empty.derive repo id := deriveWithin_of_unknown unknown
      simp only [TimeMemo.time, hderive]
      split <;> rfl

/-- A repository answers this by itself: the object has its time there, or nothing on its chain is
remembered. -/
def IsOwn (memo : TimeMemo) (repo : Repository) : TimeCall → Prop
  | .time id => (∃ time, repo.HasTime id time) ∨
      ∀ other, repo.InheritsAlong id other → memo.time? other = none
  | .tags _ => True

variable {asked : TimeCall}

theorem Sound.call (grows : repo.Grows larger) (sound : memo.Sound larger) (asked : TimeCall) :
    (memo.call repo asked).2.Sound larger := by
  cases asked with
  | time id => exact sound.asked grows
  | tags limit => exact listTags_keeps (fun _ _ => Sound.asked grows) limit sound

theorem Sound.call_eq_iff (grows : repo.Grows larger) (sound : shared.Sound larger) (soundAlone : alone.Sound repo) :
    (shared.call repo asked).1 = (alone.call repo asked).1 ↔ shared.IsOwn repo asked := by
  cases asked with
  | time id =>
      simp only [TimeMemo.call, TimeReply.time.injEq, soundAlone.time_eq]
      exact sound.time_eq_iff grows
  | tags limit => exact iff_true_intro (congrArg TimeReply.tags (sound.listTags_eq grows soundAlone))

end TimeMemo

/-- What is replied to a call beside others and what is replied without them. A fault may have given way to
the time that the object has in some larger store, and nothing else. -/
inductive TimeReply.Keeps (larger : Repository) : TimeCall × TimeReply → TimeCall × TimeReply → Prop where
  | same (call : TimeCall) (reply : TimeReply) : Keeps larger (call, reply) (call, reply)
  | given {id : ObjectId} {time : Int} (fault : Fault) (hasTime : larger.HasTime id time) :
      Keeps larger (.time id, .time (.ok time)) (.time id, .time (.error fault))

namespace TimeMemo

variable {repo larger : Repository} {shared alone : TimeMemo} {asked : TimeCall}

theorem Sound.keeps (grows : repo.Grows larger) (sound : shared.Sound larger) (soundAlone : alone.Sound repo) :
    TimeReply.Keeps larger (asked, (shared.call repo asked).1) (asked, (alone.call repo asked).1) := by
  by_cases hown : shared.IsOwn repo asked
  · rw [(sound.call_eq_iff grows soundAlone).mpr hown]
    exact .same _ _
  · cases asked with
    | tags limit => exact absurd trivial hown
    | time id =>
        obtain ⟨timeless, other, along, known⟩ : (∀ time, ¬ repo.HasTime id time) ∧
            ∃ other, repo.InheritsAlong id other ∧ shared.time? other ≠ none := by
          simpa [IsOwn] using hown
        obtain ⟨time, htime⟩ := exists_time_of_known along known
        cases halone : (alone.time repo id).1 with
        | ok time => exact absurd (soundAlone.time_eq_ok_iff.mp halone) (timeless time)
        | error fault =>
            have hcall : (shared.call repo (.time id)).1 = .time (.ok time) := congrArg TimeReply.time htime
            have hcallAlone : (alone.call repo (.time id)).1 = .time (.error fault) := congrArg TimeReply.time halone
            rw [hcall, hcallAlone]
            exact .given fault (sound.hasTime_of_time grows htime)

/-! ### Calls at several repositories -/

section Calls

variable {ι : Type} [DecidableEq ι]

def afterCalls (memo : TimeMemo) (repos : ι → Repository) (calls : List (ι × TimeCall)) : TimeMemo :=
  calls.foldl (fun memo call => (memo.call (repos call.1) call.2).2) memo

def repliesAt (memo : TimeMemo) (repos : ι → Repository) (place : ι) :
    List (ι × TimeCall) → List (TimeCall × TimeReply)
  | [] => []
  | (other, asked) :: later =>
      let replied := memo.call (repos other) asked
      if other = place then (asked, replied.1) :: replied.2.repliesAt repos place later
      else replied.2.repliesAt repos place later

/-- What sharing a memo means for the replies at one of the repositories. -/
structure Shares (repos : ι → Repository) (place : ι) (calls : List (ι × TimeCall)) : Prop where
  /-- Call by call they are those that it is given without the calls elsewhere, or a time for a fault. -/
  kept : List.Forall₂ (TimeReply.Keeps (.pool (calls.map fun call => repos call.1)))
    (empty.repliesAt repos place calls)
    (empty.repliesAt repos place (calls.filter fun call => call.1 = place))
  /-- They are the same exactly when the repository answers every call by itself. -/
  same : empty.repliesAt repos place calls =
      empty.repliesAt repos place (calls.filter fun call => call.1 = place) ↔
    ∀ before asked, before ++ [(place, asked)] <+: calls →
      (empty.afterCalls repos before).IsOwn (repos place) asked

variable {repos : ι → Repository} {place other : ι} {first : TimeCall} {calls later : List (ι × TimeCall)}

theorem repliesAt_here : shared.repliesAt repos place ((place, asked) :: later) =
    (asked, (shared.call (repos place) asked).1) ::
      (shared.call (repos place) asked).2.repliesAt repos place later :=
  if_pos rfl

theorem repliesAt_elsewhere (helse : other ≠ place) : shared.repliesAt repos place ((other, asked) :: later) =
    (shared.call (repos other) asked).2.repliesAt repos place later :=
  if_neg helse

/-- The simulation. The right memo is not asked what is asked elsewhere, and knows nothing but the times of
the one repository. -/
theorem forall₂_repliesAt (grows : ∀ call ∈ calls, (repos call.1).Grows larger) (sound : shared.Sound larger)
    (soundAlone : alone.Sound (repos place)) :
    List.Forall₂ (TimeReply.Keeps larger) (shared.repliesAt repos place calls)
      (alone.repliesAt repos place (calls.filter fun call => call.1 = place)) := by
  induction calls generalizing shared alone with
  | nil => exact .nil
  | cons call later ih =>
      obtain ⟨other, asked⟩ := call
      obtain ⟨hgrows, hlater⟩ := List.forall_mem_cons.mp grows
      have hsound := sound.call hgrows asked
      by_cases hplace : other = place
      · obtain rfl := hplace
        rw [List.filter_cons_of_pos (by simp), repliesAt_here, repliesAt_here]
        exact .cons (sound.keeps hgrows soundAlone)
          (ih hlater hsound (soundAlone.call (Repository.Grows.refl _) asked))
      · rw [List.filter_cons_of_neg (by simpa using hplace), repliesAt_elsewhere hplace]
        exact ih hlater hsound soundAlone

omit [DecidableEq ι] in
theorem forall_prefix_cons {holds : List (ι × TimeCall) → TimeCall → Prop} :
    (∀ before asked, before ++ [(place, asked)] <+: (other, first) :: later → holds before asked) ↔
      (other = place → holds [] first) ∧
        ∀ before asked, before ++ [(place, asked)] <+: later → holds ((other, first) :: before) asked := by
  constructor
  · refine fun hall => ⟨?_, fun before asked hprefix => hall _ asked (List.cons_prefix_cons.mpr ⟨rfl, hprefix⟩)⟩
    rintro rfl
    exact hall [] first (List.cons_prefix_cons.mpr ⟨rfl, List.nil_prefix⟩)
  · rintro ⟨hfirst, hlater⟩ before asked hprefix
    cases before with
    | nil =>
        obtain ⟨heq, _⟩ := List.cons_prefix_cons.mp hprefix
        cases heq
        exact hfirst rfl
    | cons call before =>
        obtain ⟨rfl, hrest⟩ := List.cons_prefix_cons.mp hprefix
        exact hlater before asked hrest

theorem repliesAt_eq_iff (grows : ∀ call ∈ calls, (repos call.1).Grows larger) (sound : shared.Sound larger)
    (soundAlone : alone.Sound (repos place)) :
    shared.repliesAt repos place calls =
        alone.repliesAt repos place (calls.filter fun call => call.1 = place) ↔
      ∀ before asked, before ++ [(place, asked)] <+: calls →
        (shared.afterCalls repos before).IsOwn (repos place) asked := by
  induction calls generalizing shared alone with
  | nil => exact iff_of_true rfl fun before asked hprefix => by simp at hprefix
  | cons call later ih =>
      obtain ⟨other, asked⟩ := call
      obtain ⟨hgrows, hlater⟩ := List.forall_mem_cons.mp grows
      have hsound := sound.call hgrows asked
      rw [forall_prefix_cons]
      by_cases hplace : other = place
      · obtain rfl := hplace
        have hrest := ih hlater hsound (soundAlone.call (Repository.Grows.refl _) asked)
        rw [List.filter_cons_of_pos (by simp), repliesAt_here, repliesAt_here, List.cons_eq_cons, Prod.mk.injEq,
          sound.call_eq_iff hgrows soundAlone, hrest]
        simp only [true_and, forall_const]
        exact Iff.rfl
      · rw [List.filter_cons_of_neg (by simpa using hplace), repliesAt_elsewhere hplace,
          ih hlater hsound soundAlone]
        exact ⟨fun hrest => ⟨fun heq => absurd heq hplace, hrest⟩, And.right⟩

/-- Stores that do not contradict each other may share a memo: nothing that a repository knows is answered in
another way. -/
theorem shares (agree : ∀ left right, (repos left).Agrees (repos right)) (place : ι)
    (calls : List (ι × TimeCall)) : Shares repos place calls := by
  have hagree : ∀ left ∈ calls.map (fun call => repos call.1), ∀ right ∈ calls.map (fun call => repos call.1),
      left.Agrees right := by
    simp only [List.forall_mem_map]
    exact fun left _ right _ => agree left.1 right.1
  have grows : ∀ call ∈ calls, (repos call.1).Grows (.pool (calls.map fun call => repos call.1)) :=
    fun call hcall => Repository.grows_pool hagree (List.mem_map_of_mem hcall)
  exact ⟨forall₂_repliesAt grows derived_empty.sound derived_empty.sound,
    repliesAt_eq_iff grows derived_empty.sound derived_empty.sound⟩

end Calls

open Repository (firstChange underReview)

def twoShelves (filled : Bool) : Repository := if filled then underReview else { underReview with objects := [] }

/-- The time of a commit is asked for where it is, and then where it is not. -/
def lentTime : List (Bool × TimeCall) := [(true, .time firstChange), (false, .time firstChange), (true, .tags none)]

theorem twoShelves_agree (left right : Bool) : (twoShelves left).Agrees (twoShelves right) := by
  have grows : (twoShelves false).Grows (twoShelves true) := by
    intro id object hobject
    obtain rfl : id = .emptyTree := List.mem_singleton.mp (Repository.mem_of_object hobject)
    rw [show (twoShelves false).object .emptyTree = .ok .tree by decide] at hobject
    cases hobject
    decide +kernel
  cases left <;> cases right
  · exact Repository.Grows.agrees (Repository.Grows.refl _)
  · exact grows.agrees
  · exact grows.agrees.symm
  · exact Repository.Grows.agrees (Repository.Grows.refl _)

theorem shares_lentTime :
    (∀ left right, (twoShelves left).Agrees (twoShelves right)) ∧ Shares twoShelves true lentTime ∧
      Shares twoShelves false lentTime :=
  ⟨twoShelves_agree, shares twoShelves_agree true lentTime, shares twoShelves_agree false lentTime⟩

/-- The repository without the commit is given its time, and by itself a fault. -/
theorem repliesAt_ne_lentTime :
    (∀ left right, (twoShelves left).Agrees (twoShelves right)) ∧
      empty.repliesAt twoShelves false lentTime = [(.time firstChange, .time (.ok 1))] ∧
      empty.repliesAt twoShelves false (lentTime.filter fun call => call.1 = false) =
        [(.time firstChange, .time (.error (.missingObject firstChange)))] :=
  ⟨twoShelves_agree, by decide +kernel, by decide +kernel⟩

end TimeMemo

end GuardedRevision
