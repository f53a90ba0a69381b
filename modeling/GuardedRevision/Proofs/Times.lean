import GuardedRevision.Proofs.Completeness
import GuardedRevision.Proofs.Service
import GuardedRevision.TagListing
import Mathlib.Logic.Relation

/-!
# Remembered times

`HasTime` is what the time of an object means, apart from what is remembered. A memo that was only asked
holds such times, and with an object also those that it inherits its time from. So it answers what a memo
would that remembers nothing, and it is known exactly what an answer adds to it.
-/

namespace GuardedRevision

namespace Repository

/-- A tag without a tagger has the time of the object it points at. -/
def InheritsFrom (repo : Repository) (id target : ObjectId) : Prop :=
  repo.object id = .ok (.tag ⟨target, none⟩)

/-- The time of an object: a commit's is the committer's, a tag's the tagger's, and where there is no
tagger that of the target. -/
inductive HasTime (repo : Repository) : ObjectId → Int → Prop where
  | commit {id : ObjectId} {commit : Commit} (stored : repo.object id = .ok (.commit commit)) :
      HasTime repo id commit.time
  | tagger {id target : ObjectId} {time : Int}
      (stored : repo.object id = .ok (.tag ⟨target, some time⟩)) : HasTime repo id time
  | target {id target : ObjectId} {time : Int} (inherits : repo.InheritsFrom id target)
      (rest : HasTime repo target time) : HasTime repo id time
  | tree {id : ObjectId} (stored : repo.object id = .ok .tree) : HasTime repo id noTime
  | blob {id : ObjectId} (stored : repo.object id = .ok .blob) : HasTime repo id noTime

/-- The chain that an object inherits its time along, the object itself first. -/
def InheritsAlong (repo : Repository) : ObjectId → ObjectId → Prop :=
  Relation.ReflTransGen repo.InheritsFrom

/-- Whether the object, if it is there, inherits no time. -/
def Decides (repo : Repository) (id : ObjectId) : Prop := ∀ target, ¬ repo.InheritsFrom id target

def ownTime (repo : Repository) (id : ObjectId) : Except Fault Int := do
  match ← repo.object id with
  | .commit commit => return commit.time
  | .tag tag => return tag.time.getD noTime
  | _ => return noTime

/-- `InheritsIn repo links id last`: so many tags without a tagger stand before `last`, which decides. -/
inductive InheritsIn (repo : Repository) : Nat → ObjectId → ObjectId → Prop where
  | stop {id : ObjectId} (decides : repo.Decides id) : InheritsIn repo 0 id id
  | tag {links : Nat} {id target last : ObjectId} (inherits : repo.InheritsFrom id target)
      (rest : InheritsIn repo links target last) : InheritsIn repo (links + 1) id last

variable {repo larger : Repository} {id target other last : ObjectId} {time : Int} {links : Nat}

theorem InheritsFrom.unique (left : repo.InheritsFrom id target) (right : repo.InheritsFrom id other) :
    target = other := by
  unfold InheritsFrom at left right
  rw [left] at right
  cases right
  rfl

theorem InheritsFrom.hasTime_iff (inherits : repo.InheritsFrom id target) :
    repo.HasTime id time ↔ repo.HasTime target time := by
  refine ⟨fun hasTime => ?_, .target inherits⟩
  cases hasTime with
  | target inherits' rest => exact inherits.unique inherits' ▸ rest
  | commit stored => cases inherits.symm.trans stored
  | tagger stored => cases inherits.symm.trans stored
  | tree stored => cases inherits.symm.trans stored
  | blob stored => cases inherits.symm.trans stored

theorem Decides.hasTime_iff (decides : repo.Decides id) :
    repo.HasTime id time ↔ repo.ownTime id = .ok time := by
  unfold ownTime
  constructor
  · intro hasTime
    cases hasTime with
    | target inherits rest => exact absurd inherits (decides _)
    | commit stored => rw [stored]; rfl
    | tagger stored => rw [stored]; rfl
    | tree stored => rw [stored]; rfl
    | blob stored => rw [stored]; rfl
  · intro hown
    cases hobject : repo.object id with
    | error fault => simp [hobject, bind, Except.bind] at hown
    | ok object =>
        simp only [hobject, bind, Except.bind] at hown
        cases object with
        | commit commit => cases hown; exact .commit hobject
        | tree => cases hown; exact .tree hobject
        | blob => cases hown; exact .blob hobject
        | tag tag =>
            obtain ⟨target, found⟩ := tag
            cases found with
            | none => exact absurd hobject (decides target)
            | some found => cases hown; exact .tagger hobject

theorem inheritsFrom_or_decides (repo : Repository) (id : ObjectId) :
    (∃ target, repo.InheritsFrom id target) ∨ repo.Decides id := by
  by_cases hinherits : ∃ target, repo.InheritsFrom id target
  · exact .inl hinherits
  · exact .inr fun target inherits => hinherits ⟨target, inherits⟩

theorem InheritsAlong.hasTime_iff (along : repo.InheritsAlong id other) :
    repo.HasTime id time ↔ repo.HasTime other time := by
  induction along with
  | refl => exact Iff.rfl
  | tail _ inherits ih => exact ih.trans inherits.hasTime_iff

theorem decides_of_object {object : StoredObject} (stored : repo.object id = .ok object)
    (plain : ∀ target, object ≠ .tag ⟨target, none⟩) : repo.Decides id := by
  intro target inherits
  exact plain target (Except.ok.inj (stored.symm.trans inherits))

theorem decides_of_fault {fault : Fault} (hfault : repo.object id = .error fault) : repo.Decides id := by
  intro target inherits
  cases hfault.symm.trans inherits

theorem HasTime.exists_links (hasTime : repo.HasTime id time) :
    ∃ links last, repo.InheritsIn links id last := by
  induction hasTime with
  | target inherits _ ih =>
      obtain ⟨links, last, chain⟩ := ih
      exact ⟨links + 1, last, .tag inherits chain⟩
  | commit stored => exact ⟨0, _, .stop (decides_of_object stored (by simp))⟩
  | tagger stored => exact ⟨0, _, .stop (decides_of_object stored (by simp))⟩
  | tree stored => exact ⟨0, _, .stop (decides_of_object stored (by simp))⟩
  | blob stored => exact ⟨0, _, .stop (decides_of_object stored (by simp))⟩

theorem InheritsAlong.grow (grows : repo.Grows larger) (along : repo.InheritsAlong id other) :
    larger.InheritsAlong id other := by
  induction along with
  | refl => exact .refl
  | tail _ inherits ih => exact ih.tail (grows inherits)

theorem InheritsAlong.exists_links (along : repo.InheritsAlong id last) (decides : repo.Decides last) :
    ∃ links, repo.InheritsIn links id last := by
  induction along using Relation.ReflTransGen.head_induction_on with
  | refl => exact ⟨0, .stop decides⟩
  | head inherits _ ih =>
      obtain ⟨links, chain⟩ := ih
      exact ⟨links + 1, .tag inherits chain⟩

namespace InheritsIn

theorem hasTime_iff (chain : repo.InheritsIn links id last) :
    repo.HasTime id time ↔ repo.ownTime last = .ok time := by
  induction chain with
  | stop decides => exact decides.hasTime_iff
  | tag inherits _ ih => exact inherits.hasTime_iff.trans ih

theorem unique {left right : Nat} (hleft : repo.InheritsIn left id last)
    (hright : repo.InheritsIn right id last) : left = right := by
  induction hleft generalizing right with
  | stop decides =>
      cases hright with
      | stop _ => rfl
      | tag inherits _ => exact absurd inherits (decides _)
  | tag inherits _ ih =>
      cases hright with
      | stop decides => exact absurd inherits (decides _)
      | tag inherits' rest =>
          obtain rfl := inherits.unique inherits'
          rw [ih rest]

end InheritsIn

theorem HasTime.unique {found : Int} (left : repo.HasTime id time) (right : repo.HasTime id found) :
    time = found := by
  obtain ⟨links, last, chain⟩ := left.exists_links
  rw [chain.hasTime_iff] at left right
  exact Except.ok.inj (left.symm.trans right)

theorem HasTime.grow (grows : repo.Grows larger) (hasTime : repo.HasTime id time) :
    larger.HasTime id time := by
  induction hasTime with
  | target inherits _ ih => exact .target (grows inherits) ih
  | commit stored => exact .commit (grows stored)
  | tagger stored => exact .tagger (grows stored)
  | tree stored => exact .tree (grows stored)
  | blob stored => exact .blob (grows stored)

theorem HasTime.holds (hasTime : repo.HasTime id time) : repo.Holds id := by
  cases hasTime with
  | target inherits _ => exact ⟨_, inherits⟩
  | commit stored => exact ⟨_, stored⟩
  | tagger stored => exact ⟨_, stored⟩
  | tree stored => exact ⟨_, stored⟩
  | blob stored => exact ⟨_, stored⟩

theorem PeelsTo.exists_hasTime (peels : repo.PeelsTo id last) : ∃ time, repo.HasTime id time := by
  induction peels with
  | @stop id object stored plain =>
      cases object with
      | commit commit => exact ⟨_, .commit stored⟩
      | tree => exact ⟨_, .tree stored⟩
      | blob => exact ⟨_, .blob stored⟩
      | tag tag => exact absurd rfl plain
  | @tag id last tag stored _ ih =>
      obtain ⟨target, own⟩ := tag
      cases own with
      | some time => exact ⟨time, .tagger stored⟩
      | none =>
          obtain ⟨time, hasTime⟩ := ih
          exact ⟨time, .target stored hasTime⟩

/-- One step for every stored object is enough for any chain. -/
theorem InheritsIn.lt_steps (chain : repo.InheritsIn links id last) :
    links < repo.objects.length + 1 := by
  have hbound : links ≤ (repo.objects.map Prod.fst).length := by
    refine @distance_le_length id (fun links other => repo.InheritsIn links other last) _
      InheritsIn.unique ?_ links chain
    intro links id chain
    cases chain with
    | tag inherits rest => exact ⟨mem_keys_of_object inherits (by simp), _, rest⟩
  rw [List.length_map] at hbound
  omega

end Repository

namespace TimeMemo

open Repository

variable {repo larger : Repository} {memo : TimeMemo} {id other target last : ObjectId} {time known : Int}
  {links steps : Nat} {ids visited : List ObjectId}

theorem time?_remember : (memo.remember id time).time? other =
    (memo.time? other).or (if other = id then some time else none) := by
  unfold remember
  split
  · next hknown =>
      by_cases hsame : other = id
      · subst hsame
        obtain ⟨known, hknown⟩ := Option.isSome_iff_exists.mp hknown
        rw [hknown, Option.some_or]
      · rw [if_neg hsame, Option.or_none]
  · next hnew =>
      have hnone : memo.time? id = none := by simpa using hnew
      change List.lookup other ((id, time) :: memo.times) = _
      rw [List.lookup_cons]
      by_cases hsame : other = id
      · subst hsame
        simp [hnone]
      · rw [beq_false_of_ne hsame, if_neg hsame, Option.or_none]
        rfl

theorem time?_rememberAll : (memo.rememberAll time ids).time? other =
    (memo.time? other).or (if other ∈ ids then some time else none) := by
  induction ids generalizing memo with
  | nil => simp [rememberAll]
  | cons id rest ih =>
      calc ((memo.remember id time).rememberAll time rest).time? other
          = ((memo.time? other).or (if other = id then some time else none)).or
              (if other ∈ rest then some time else none) := by rw [ih, time?_remember]
        _ = (memo.time? other).or (if other ∈ id :: rest then some time else none) := by
            by_cases hsame : other = id
            · simp [hsame]
            · simp [hsame]

/-! ### Deriving one time -/

theorem deriveWithin_of_known (hknown : memo.time? id = some time) :
    memo.deriveWithin repo (steps + 1) id = .ok (time, [id]) := by
  rw [deriveWithin, hknown]

theorem deriveWithin_of_decides (hnew : memo.time? id = none) (decides : repo.Decides id) :
    memo.deriveWithin repo (steps + 1) id = (repo.ownTime id).map (·, [id]) := by
  rw [deriveWithin, hnew, ownTime]
  cases hobject : repo.object id with
  | error fault => rfl
  | ok object =>
      cases object with
      | commit commit => rfl
      | tree => rfl
      | blob => rfl
      | tag tag =>
          obtain ⟨target, found⟩ := tag
          cases found with
          | none => exact absurd hobject (decides target)
          | some found => rfl

theorem deriveWithin_of_inherits (hnew : memo.time? id = none) (inherits : repo.InheritsFrom id target) :
    memo.deriveWithin repo (steps + 1) id =
      (memo.deriveWithin repo steps target).map fun found => (found.1, id :: found.2) := by
  rw [deriveWithin, hnew, inherits]
  simp only [bind, Except.bind]
  cases memo.deriveWithin repo steps target with
  | error fault => rfl
  | ok found => rfl

/-- How a time is come by: it is remembered, it is the object's own, or it is inherited. -/
inductive Derives (memo : TimeMemo) (repo : Repository) : ObjectId → Int → List ObjectId → Prop where
  | known {id : ObjectId} {time : Int} (hknown : memo.time? id = some time) : Derives memo repo id time [id]
  | own {id : ObjectId} {time : Int} (hnew : memo.time? id = none) (decides : repo.Decides id)
      (hown : repo.ownTime id = .ok time) : Derives memo repo id time [id]
  | inherited {id target : ObjectId} {time : Int} {visited : List ObjectId}
      (hnew : memo.time? id = none) (inherits : repo.InheritsFrom id target)
      (rest : Derives memo repo target time visited) : Derives memo repo id time (id :: visited)

theorem derives_of_deriveWithin (hderive : memo.deriveWithin repo steps id = .ok (time, visited)) :
    memo.Derives repo id time visited := by
  induction steps generalizing id visited with
  | zero => cases hderive
  | succ steps ih =>
      cases hknown : memo.time? id with
      | some known =>
          rw [deriveWithin_of_known hknown] at hderive
          cases hderive
          exact .known hknown
      | none =>
          rcases repo.inheritsFrom_or_decides id with ⟨target, inherits⟩ | decides
          · rw [deriveWithin_of_inherits hknown inherits] at hderive
            cases hrest : memo.deriveWithin repo steps target with
            | error fault => simp [hrest, Except.map] at hderive
            | ok found =>
                rw [hrest] at hderive
                cases hderive
                exact .inherited hknown inherits (ih hrest)
          · rw [deriveWithin_of_decides hknown decides] at hderive
            cases hown : repo.ownTime id with
            | error fault => simp [hown, Except.map] at hderive
            | ok found =>
                rw [hown] at hderive
                cases hderive
                exact .own hknown decides hown

/-- Every time that is remembered is that of the object. -/
def Sound (repo : Repository) (memo : TimeMemo) : Prop :=
  ∀ id time, memo.time? id = some time → repo.HasTime id time

/-- The memo may know more than the store that is asked, if it knows it from a larger one. -/
theorem Sound.deriveWithin_of_hasTime (grows : repo.Grows larger) (sound : memo.Sound larger)
    (within : repo.InheritsIn links id last) (henough : links < steps) (hasTime : repo.HasTime id time) :
    ∃ visited, memo.deriveWithin repo steps id = .ok (time, visited) := by
  induction within generalizing steps with
  | @stop id decides =>
      obtain ⟨steps, rfl⟩ := Nat.exists_eq_succ_of_ne_zero (by omega : steps ≠ 0)
      cases hknown : memo.time? id with
      | some known =>
          obtain rfl := (hasTime.grow grows).unique (sound id known hknown)
          exact ⟨_, deriveWithin_of_known hknown⟩
      | none =>
          rw [deriveWithin_of_decides hknown decides, decides.hasTime_iff.mp hasTime]
          exact ⟨_, rfl⟩
  | @tag links id target last inherits _ ih =>
      obtain ⟨steps, rfl⟩ := Nat.exists_eq_succ_of_ne_zero (by omega : steps ≠ 0)
      cases hknown : memo.time? id with
      | some known =>
          obtain rfl := (hasTime.grow grows).unique (sound id known hknown)
          exact ⟨_, deriveWithin_of_known hknown⟩
      | none =>
          obtain ⟨visited, hrest⟩ := ih (by omega : links < steps) (inherits.hasTime_iff.mp hasTime)
          rw [deriveWithin_of_inherits hknown inherits, hrest]
          exact ⟨_, rfl⟩

/-- A fault is met before anything that is remembered. -/
theorem deriveWithin_empty_of_fault {fault : Fault} (hfault : memo.deriveWithin repo steps id = .error fault) :
    empty.deriveWithin repo steps id = .error fault := by
  induction steps generalizing id with
  | zero => exact hfault
  | succ steps ih =>
      cases hknown : memo.time? id with
      | some known =>
          rw [deriveWithin_of_known hknown] at hfault
          cases hfault
      | none =>
          rcases repo.inheritsFrom_or_decides id with ⟨target, inherits⟩ | decides
          · rw [deriveWithin_of_inherits hknown inherits] at hfault
            cases hrest : memo.deriveWithin repo steps target with
            | ok found =>
                rw [hrest] at hfault
                cases hfault
            | error met =>
                rw [hrest] at hfault
                cases hfault
                rw [deriveWithin_of_inherits rfl inherits, ih hrest]
                rfl
          · rwa [deriveWithin_of_decides rfl decides, ← deriveWithin_of_decides hknown decides]

theorem deriveWithin_of_fault {fault : Fault} (within : repo.InheritsIn links id last)
    (henough : links < steps) (hfault : repo.object last = .error fault) :
    empty.deriveWithin repo steps id = .error fault := by
  induction within generalizing steps with
  | stop decides =>
      obtain ⟨steps, rfl⟩ := Nat.exists_eq_succ_of_ne_zero (by omega : steps ≠ 0)
      rw [deriveWithin_of_decides rfl decides, ownTime, hfault]
      rfl
  | @tag links id target last inherits _ ih =>
      obtain ⟨steps, rfl⟩ := Nat.exists_eq_succ_of_ne_zero (by omega : steps ≠ 0)
      rw [deriveWithin_of_inherits rfl inherits, ih (by omega : links < steps) hfault]
      rfl

theorem Derives.hasTime (derives : memo.Derives repo id time visited) (grows : repo.Grows larger)
    (sound : memo.Sound larger) : larger.HasTime id time := by
  induction derives with
  | known hknown => exact sound _ _ hknown
  | own _ decides hown => exact (decides.hasTime_iff.mpr hown).grow grows
  | inherited _ inherits _ ih => exact .target (grows inherits) ih

theorem Derives.along (derives : memo.Derives repo id time visited) (hmem : other ∈ visited) :
    repo.InheritsAlong id other := by
  induction derives with
  | known _ => exact List.mem_singleton.mp hmem ▸ .refl
  | own _ _ _ => exact List.mem_singleton.mp hmem ▸ .refl
  | inherited _ inherits _ ih =>
      rcases List.mem_cons.mp hmem with rfl | hrest
      · exact .refl
      · exact .head inherits (ih hrest)

/-- With an object that is remembered, so are those that it inherits from. -/
def Closed (repo : Repository) (memo : TimeMemo) : Prop :=
  ∀ id target, memo.time? id ≠ none → repo.InheritsFrom id target → memo.time? target ≠ none

theorem Closed.along (closed : memo.Closed repo) (hknown : memo.time? id ≠ none)
    (along : repo.InheritsAlong id other) : memo.time? other ≠ none := by
  induction along with
  | refl => exact hknown
  | tail _ inherits ih => exact closed _ _ ih inherits

theorem Derives.covers (derives : memo.Derives repo id time visited) (closed : memo.Closed repo)
    (along : repo.InheritsAlong id other) : other ∈ visited ∨ memo.time? other ≠ none := by
  induction derives with
  | known hknown => exact .inr (closed.along (by simp [hknown]) along)
  | own _ decides _ =>
      rcases Relation.ReflTransGen.cases_head along with rfl | ⟨target, inherits, _⟩
      · exact .inl (List.mem_singleton_self _)
      · exact absurd inherits (decides target)
  | inherited _ inherits _ ih =>
      rcases Relation.ReflTransGen.cases_head along with rfl | ⟨target, inherits', rest⟩
      · exact .inl List.mem_cons_self
      · obtain rfl := inherits.unique inherits'
        exact (ih rest).imp_left (List.mem_cons_of_mem _)

/-- What a memo holds that was only asked. -/
structure Derived (repo : Repository) (memo : TimeMemo) : Prop where
  sound : memo.Sound repo
  closed : memo.Closed repo

theorem derived_empty : empty.Derived repo := by
  constructor
  · intro id time hknown
    cases hknown
  · intro id target hknown
    exact absurd rfl hknown

theorem exists_derives (htime : (memo.time repo id).1 = .ok time) :
    ∃ visited, memo.Derives repo id time visited ∧ (memo.time repo id).2 = memo.rememberAll time visited := by
  unfold TimeMemo.time at htime ⊢
  split at htime
  · cases htime
  · next found visited hderive =>
      cases htime
      exact ⟨visited, derives_of_deriveWithin hderive, rfl⟩

theorem memo_of_fault {fault : Fault} (hfault : (memo.time repo id).1 = .error fault) :
    (memo.time repo id).2 = memo := by
  unfold TimeMemo.time at hfault ⊢
  split
  · rfl
  · next hderive =>
      rw [hderive] at hfault
      cases hfault

theorem Sound.time_of_hasTime (grows : repo.Grows larger) (sound : memo.Sound larger)
    (hasTime : repo.HasTime id time) : (memo.time repo id).1 = .ok time := by
  obtain ⟨links, last, within⟩ := hasTime.exists_links
  obtain ⟨visited, hderive⟩ := sound.deriveWithin_of_hasTime grows within within.lt_steps hasTime
  rw [TimeMemo.time, show memo.derive repo id = .ok (time, visited) from hderive]

theorem Sound.hasTime_of_time (grows : repo.Grows larger) (sound : memo.Sound larger)
    (htime : (memo.time repo id).1 = .ok time) : larger.HasTime id time := by
  obtain ⟨visited, derives, _⟩ := exists_derives htime
  exact derives.hasTime grows sound

theorem Sound.time_eq_ok_iff (sound : memo.Sound repo) :
    (memo.time repo id).1 = .ok time ↔ repo.HasTime id time :=
  ⟨sound.hasTime_of_time (Grows.refl repo), sound.time_of_hasTime (Grows.refl repo)⟩

theorem time_empty_of_fault {fault : Fault} (hfault : (memo.time repo id).1 = .error fault) :
    (empty.time repo id).1 = .error fault := by
  unfold TimeMemo.time at hfault ⊢
  split at hfault
  · next found hderive =>
      cases hfault
      rw [show empty.derive repo id = .error fault from deriveWithin_empty_of_fault hderive]
  · cases hfault

theorem Sound.time_eq (sound : memo.Sound repo) : (memo.time repo id).1 = (empty.time repo id).1 := by
  cases htime : (memo.time repo id).1 with
  | error fault => exact (time_empty_of_fault htime).symm
  | ok time => exact (derived_empty.sound.time_eq_ok_iff.mpr (sound.time_eq_ok_iff.mp htime)).symm

theorem Sound.asked (grows : repo.Grows larger) (sound : memo.Sound larger) :
    (memo.time repo id).2.Sound larger := by
  cases htime : (memo.time repo id).1 with
  | error fault => rwa [memo_of_fault htime]
  | ok time =>
      have hasTime := sound.hasTime_of_time grows htime
      obtain ⟨visited, derives, hafter⟩ := exists_derives htime
      intro other known hknown
      rw [hafter, time?_rememberAll] at hknown
      cases hold : memo.time? other with
      | some old =>
          rw [hold, Option.some_or] at hknown
          exact sound other known (hold.trans hknown)
      | none =>
          rw [hold, Option.none_or] at hknown
          obtain ⟨hmem, hsame⟩ := Option.ite_none_right_eq_some.mp hknown
          obtain rfl := Option.some.inj hsame
          exact ((derives.along hmem).grow grows).hasTime_iff.mp hasTime

theorem time_of_fault {fault : Fault} (along : repo.InheritsAlong id last)
    (hfault : repo.object last = .error fault) : (empty.time repo id).1 = .error fault := by
  obtain ⟨links, within⟩ := along.exists_links (decides_of_fault hfault)
  have hderive : empty.derive repo id = .error fault := deriveWithin_of_fault within within.lt_steps hfault
  simp only [TimeMemo.time, hderive]

/-- An answer is remembered for the chain that it was inherited along, and for nothing else. -/
theorem Derived.time?_time (derived : memo.Derived repo) (htime : (memo.time repo id).1 = .ok time) :
    (memo.time repo id).2.time? other = some known ↔
      memo.time? other = some known ∨ repo.InheritsAlong id other ∧ known = time := by
  have hasTime := derived.sound.time_eq_ok_iff.mp htime
  obtain ⟨visited, derives, hafter⟩ := exists_derives htime
  rw [hafter, time?_rememberAll]
  constructor
  · intro hknown
    cases hold : memo.time? other with
    | some old => exact .inl (by simpa [hold] using hknown)
    | none =>
        rw [hold, Option.none_or] at hknown
        obtain ⟨hmem, hsame⟩ := Option.ite_none_right_eq_some.mp hknown
        exact .inr ⟨derives.along hmem, (Option.some.inj hsame).symm⟩
  · rintro (hold | ⟨along, rfl⟩)
    · rw [hold, Option.some_or]
    · cases hold : memo.time? other with
      | some old =>
          have hsame := (derived.sound other old hold).unique (along.hasTime_iff.mp hasTime)
          rw [Option.some_or, hsame]
      | none =>
          have hmem := (derives.covers derived.closed along).resolve_right (not_not.mpr hold)
          rw [Option.none_or, if_pos hmem]

theorem Derived.asked (derived : memo.Derived repo) : (memo.time repo id).2.Derived repo := by
  refine ⟨derived.sound.asked (Grows.refl repo), ?_⟩
  cases htime : (memo.time repo id).1 with
  | error fault =>
      rw [memo_of_fault htime]
      exact derived.closed
  | ok time =>
      intro other target hknown inherits
      obtain ⟨known, hknown⟩ := Option.ne_none_iff_exists'.mp hknown
      rcases (derived.time?_time htime).mp hknown with hold | ⟨along, rfl⟩
      · obtain ⟨found, hfound⟩ :=
          Option.ne_none_iff_exists'.mp (derived.closed other target (by simp [hold]) inherits)
        exact Option.ne_none_iff_exists'.mpr ⟨found, (derived.time?_time htime).mpr (.inl hfound)⟩
      · exact Option.ne_none_iff_exists'.mpr
          ⟨known, (derived.time?_time htime).mpr (.inr ⟨along.tail inherits, rfl⟩)⟩

theorem Derived.grow (grows : repo.Grows larger) (derived : memo.Derived repo) : memo.Derived larger where
  sound := fun id time hknown => (derived.sound id time hknown).grow grows
  closed := by
    intro id target hknown inherits
    obtain ⟨known, hfound⟩ := Option.ne_none_iff_exists'.mp hknown
    obtain ⟨object, hobject⟩ := (derived.sound id known hfound).holds
    refine derived.closed id target hknown (hobject.trans ?_)
    exact (grows hobject).symm.trans inherits

/-! ### Many times -/

section Keeps

variable {keeps : TimeMemo → Prop} (hask : ∀ memo id, keeps memo → keeps (memo.time repo id).2)
include hask

theorem tagEntries_keeps (refs : List RefEntry) (hkeeps : keeps memo) : keeps (memo.tagEntries repo refs).2 := by
  induction refs generalizing memo with
  | nil => exact hkeeps
  | cons ref rest ih =>
      rw [TimeMemo.tagEntries]
      split
      · exact ih hkeeps
      · have hafter := hask memo ref.target hkeeps
        split
        · next hfault =>
            rw [hfault] at hafter
            exact hafter
        · next hanswer =>
            rw [hanswer] at hafter
            exact ih hafter

theorem listTags_keeps (limit : Option Nat) (hkeeps : keeps memo) : keeps (memo.listTags repo limit).2 := by
  unfold TimeMemo.listTags
  split
  · exact hkeeps
  · exact tagEntries_keeps hask _ hkeeps

end Keeps

theorem Derived.listTags (derived : memo.Derived repo) (limit : Option Nat) :
    (memo.listTags repo limit).2.Derived repo :=
  listTags_keeps (fun _ _ => Derived.asked) limit derived

end TimeMemo

/-! ### Runs -/

/-- A repository, and the memo through which its times are asked for. -/
structure Timekeeper where
  repo : Repository
  memo : TimeMemo

inductive TimeEvent where
  | ask (id : ObjectId)
  | list (limit : Option Nat)
  | change (made : Change)

def TimeEvent.IsFaithful : TimeEvent → Prop
  | .change made => made.IsFaithful
  | _ => True

namespace Timekeeper

def opened (repo : Repository) : Timekeeper := ⟨repo, .empty⟩

def after (keeper : Timekeeper) : TimeEvent → Timekeeper
  | .ask id => { keeper with memo := (keeper.memo.time keeper.repo id).2 }
  | .list limit => { keeper with memo := (keeper.memo.listTags keeper.repo limit).2 }
  | .change made => { keeper with repo := made.apply keeper.repo }

def run (keeper : Timekeeper) (events : List TimeEvent) : Timekeeper := events.foldl after keeper

variable {keeper : Timekeeper} {event : TimeEvent} {events : List TimeEvent}

theorem derived_after (derived : keeper.memo.Derived keeper.repo) (faithful : event.IsFaithful) :
    (keeper.after event).memo.Derived (keeper.after event).repo := by
  cases event with
  | ask id => exact derived.asked
  | list limit => exact derived.listTags limit
  | change made => exact derived.grow (Change.IsFaithful.grows faithful)

theorem derived_run (derived : keeper.memo.Derived keeper.repo)
    (faithful : ∀ event ∈ events, event.IsFaithful) :
    (keeper.run events).memo.Derived (keeper.run events).repo := by
  induction events generalizing keeper with
  | nil => exact derived
  | cons event later ih =>
      obtain ⟨hevent, hlater⟩ := List.forall_mem_cons.mp faithful
      exact ih (derived_after derived hevent) hlater

/-- What a question for the time of an object is answered, and what it adds to the memo. -/
structure Answers (keeper : Timekeeper) (id : ObjectId) : Prop where
  /-- The answer is that of a memo that remembers nothing. -/
  fresh : (keeper.memo.time keeper.repo id).1 = (TimeMemo.empty.time keeper.repo id).1
  /-- It is the time of the object, where it has one. -/
  found : ∀ time, (keeper.memo.time keeper.repo id).1 = .ok time ↔ keeper.repo.HasTime id time
  /-- It is a fault where an object of the chain cannot be had. -/
  lost : ∀ last fault, keeper.repo.InheritsAlong id last → keeper.repo.object last = .error fault →
    (keeper.memo.time keeper.repo id).1 = .error fault
  /-- A fault leaves the memo as it was. -/
  kept : ∀ fault, (keeper.memo.time keeper.repo id).1 = .error fault →
    (keeper.memo.time keeper.repo id).2 = keeper.memo
  /-- A time is remembered for the objects of the chain, and what was remembered stays. -/
  added : ∀ time, (keeper.memo.time keeper.repo id).1 = .ok time → ∀ other known,
    ((keeper.memo.time keeper.repo id).2.time? other = some known ↔
      keeper.memo.time? other = some known ∨ keeper.repo.InheritsAlong id other ∧ known = time)

/-- Whatever was asked and changed before, the memo answers with the time that the object has. -/
theorem run_answers {repo : Repository} (faithful : ∀ event ∈ events, event.IsFaithful)
    (hrun : (opened repo).run events = keeper) (id : ObjectId) : keeper.Answers id := by
  have derived : keeper.memo.Derived keeper.repo := hrun ▸ derived_run TimeMemo.derived_empty faithful
  have hfresh : (keeper.memo.time keeper.repo id).1 = (TimeMemo.empty.time keeper.repo id).1 :=
    derived.sound.time_eq
  refine ⟨hfresh, fun _ => derived.sound.time_eq_ok_iff, fun last fault along hfault => ?_,
    fun _ => TimeMemo.memo_of_fault, fun _ htime _ _ => derived.time?_time htime⟩
  exact hfresh.trans (TimeMemo.time_of_fault along hfault)

open Repository (firstChange secondChange)

/-- A tag of a tag of something that is not there, all without a tagger. -/
def undatedTags : Repository where
  scope := "/srv/git/undated"
  objects := [(secondChange, .readable (.tag ⟨firstChange, none⟩)),
    (firstChange, .readable (.tag ⟨.zero, none⟩))]
  refs := []
  folders := []

/-- A question that is a fault, then the missing tag, and a question for a part of the chain. -/
def datedLater : List TimeEvent :=
  [.ask secondChange, .change (.addObjects [(.zero, .readable (.tag ⟨.emptyTree, some 7⟩))]),
    .ask firstChange]

theorem run_answers_datedLater :
    (∀ event ∈ datedLater, event.IsFaithful) ∧
    ∃ keeper, (opened undatedTags).run datedLater = keeper ∧
      (keeper.memo.time? firstChange, keeper.memo.time? secondChange) = (some 7, none) ∧
      keeper.Answers secondChange ∧ (keeper.memo.time keeper.repo secondChange).1 = .ok 7 := by
  have hnew : ObjectId.emptyTree ≠ ObjectId.zero := by decide
  have faithful : ∀ event ∈ datedLater, event.IsFaithful := by
    simp [datedLater, TimeEvent.IsFaithful, Change.IsFaithful, hnew]
  exact ⟨faithful, _, rfl, by decide +kernel, run_answers faithful rfl secondChange, by decide +kernel⟩

end Timekeeper

end GuardedRevision
