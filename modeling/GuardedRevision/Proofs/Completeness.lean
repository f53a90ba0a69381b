import GuardedRevision.Proofs.RefListing
import Mathlib.Data.Fintype.Card
import Mathlib.Data.Fintype.EquivFin
import Mathlib.Data.Fintype.Sets
import Mathlib.Order.WellFounded

/-!
# Complete repositories

What completeness gives to the look-ups: every stored object peels, refs can be listed, and links of
objects admit induction. `isRanked` is a test by which a given repository is seen to be complete.
-/

namespace GuardedRevision.Repository

variable {repo : Repository} {id other : ObjectId}

theorem leadsTo_of_mem_parentsOf (link : other ∈ repo.parentsOf id) : repo.LeadsTo id other := by
  obtain ⟨commit, hobject⟩ := isCommit_iff.mp (isCommit_of_mem_parentsOf link)
  rw [parentsOf_eq hobject] at link
  exact .link hobject link

theorem LeadsTo.mem_keys (leads : repo.LeadsTo id other) : id ∈ repo.objects.map Prod.fst := by
  induction leads with
  | link stored linked =>
      refine mem_keys_of_object stored ?_
      rintro rfl
      simp [StoredObject.links] at linked
  | trans _ _ ih _ => exact ih

/-- Where only finitely many ids lead anywhere, and none back to itself, no chain goes on for ever. -/
theorem wellFounded_of_sources {leads : ObjectId → ObjectId → Prop} {sources : List ObjectId}
    (trans : ∀ {id middle other}, leads id middle → leads middle other → leads id other)
    (acyclic : ∀ id, ¬ leads id id) (hsource : ∀ {id other}, leads id other → id ∈ sources) :
    WellFounded fun other id => leads id other := by
  let keys : Type := { id // id ∈ sources }
  have : Finite keys := Finite.of_fintype { id // id ∈ sources }
  have : IsTrans keys fun other id => leads id.1 other.1 :=
    ⟨fun _ _ _ hlast hfirst => trans hfirst hlast⟩
  have : Std.Irrefl fun (other id : keys) => leads id.1 other.1 := ⟨fun id => acyclic id.1⟩
  have hkeys := Finite.wellFounded_of_trans_of_irrefl fun (other id : keys) => leads id.1 other.1
  have hacc : ∀ id : keys, Acc (fun other id => leads id other) id.1 := by
    intro id
    induction id using hkeys.induction with
    | _ id ih =>
        refine Acc.intro _ fun other hlead => ?_
        by_cases hmem : other ∈ sources
        · exact ih ⟨other, hmem⟩ hlead
        · exact Acc.intro _ fun next hnext => absurd (hsource hnext) hmem
  refine ⟨fun id => ?_⟩
  by_cases hmem : id ∈ sources
  · exact hacc ⟨id, hmem⟩
  · exact Acc.intro _ fun next hnext => absurd (hsource hnext) hmem

theorem wellFounded_leadsTo (acyclic : ∀ id, ¬ repo.LeadsTo id id) :
    WellFounded fun other id => repo.LeadsTo id other :=
  wellFounded_of_sources .trans acyclic LeadsTo.mem_keys

theorem exists_unlinked (acyclic : ∀ id, ¬ repo.LeadsTo id id) {pending : List ObjectId}
    (hne : pending ≠ []) : ∃ id ∈ pending, ∀ child ∈ pending, ¬ repo.LeadsTo child id := by
  let members : Type := { id // id ∈ pending }
  have : Finite members := Finite.of_fintype { id // id ∈ pending }
  have : IsTrans members fun child id => repo.LeadsTo child.1 id.1 :=
    ⟨fun _ _ _ hfirst hlast => .trans hfirst hlast⟩
  have : Std.Irrefl fun (child id : members) => repo.LeadsTo child.1 id.1 :=
    ⟨fun id => acyclic id.1⟩
  have hmembers := Finite.wellFounded_of_trans_of_irrefl
    fun (child id : members) => repo.LeadsTo child.1 id.1
  obtain ⟨first, hfirst⟩ := List.exists_mem_of_ne_nil pending hne
  obtain ⟨id, _, hleast⟩ := hmembers.has_min Set.univ ⟨⟨first, hfirst⟩, trivial⟩
  exact ⟨id.1, id.2, fun child hchild => hleast ⟨child, hchild⟩ trivial⟩

theorem holds_tip {refs : List RefEntry} (hrefs : repo.listRefs = .ok refs) {entry : RefEntry}
    (hentry : entry ∈ refs) : repo.Holds entry.tip := by
  obtain ⟨object, hobject, _⟩ := (peelsTo_tip hrefs hentry).plain
  exact ⟨object, hobject⟩

namespace Complete

variable (complete : repo.Complete)
include complete

theorem exists_peelsTo (holds : repo.Holds id) : ∃ last, repo.PeelsTo id last := by
  induction id using (wellFounded_leadsTo complete.acyclic).induction with
  | _ id ih =>
      obtain ⟨object, hobject⟩ := holds
      by_cases hkind : object.kind = .tag
      · cases object with
        | tag tag =>
            have hlead : repo.LeadsTo id tag.target :=
              .link hobject (by simp [StoredObject.links])
            obtain ⟨last, hlast⟩ := ih _ hlead (complete.links hlead)
            exact ⟨last, .tag hobject hlast⟩
        | commit commit => simp [StoredObject.kind] at hkind
        | tree => simp [StoredObject.kind] at hkind
        | blob => simp [StoredObject.kind] at hkind
      · exact ⟨id, .stop hobject hkind⟩

theorem holds_of_points {name : String} (points : repo.Points name id) : repo.Holds id := by
  obtain ⟨holder, hlookup⟩ := points.exists_id
  exact complete.targets hlookup

theorem exists_listRefs : ∃ refs, repo.listRefs = .ok refs := by
  refine exists_entries fun name _ target hlisted => ?_
  obtain ⟨last, hlast⟩ :=
    complete.exists_peelsTo (complete.holds_of_points (points_of_listedTarget? hlisted))
  exact hlast.exists_peelTag

end Complete

/-! ### A test -/

def linksOf (repo : Repository) (id : ObjectId) : List ObjectId :=
  match repo.object id with
  | .ok object => object.links
  | .error _ => []

def isSettled : RefEnd → Bool
  | .id _ => true
  | .absent => true
  | _ => false

def targetIsStored (repo : Repository) : RefTarget → Bool
  | .id id => (repo.object id).isOk
  | .symbolic _ => true

/-- Whether nothing is missing and the rank falls along each link. -/
def isRanked (repo : Repository) (rank : ObjectId → Nat) : Bool :=
  repo.objects.all (fun stored =>
    (repo.linksOf stored.1).all (fun other => (repo.object other).isOk && rank other < rank stored.1) &&
      (repo.parentsOf stored.1).all repo.isCommit) &&
  repo.refs.all fun entry =>
    repo.targetIsStored entry.2 && (RefName.problem? entry.1.toList).isNone &&
      isSettled (repo.follow entry.2)

theorem holds_iff_isOk : repo.Holds id ↔ (repo.object id).isOk = true := by
  unfold Holds
  cases repo.object id with
  | error fault => simp [Except.isOk, Except.toBool]
  | ok object => simp [Except.isOk, Except.toBool]

section Ranked

variable {rank : ObjectId → Nat} (ranked : repo.isRanked rank = true)
include ranked

theorem leadsTo_of_isRanked (leads : repo.LeadsTo id other) :
    repo.Holds other ∧ rank other < rank id := by
  unfold isRanked at ranked
  simp only [Bool.and_eq_true, List.all_eq_true, decide_eq_true_eq] at ranked
  induction leads with
  | @link id other object stored linked =>
      have hne : object ≠ .tree := by
        rintro rfl
        simp [StoredObject.links] at linked
      obtain ⟨entry, hentry, heq⟩ := List.mem_map.mp (mem_keys_of_object stored hne)
      have hlinks : repo.linksOf entry.1 = object.links := by rw [heq, linksOf, stored]
      obtain ⟨hstored, hless⟩ := (ranked.1 entry hentry).1 other (hlinks ▸ linked)
      exact ⟨holds_iff_isOk.mpr hstored, heq ▸ hless⟩
  | trans _ _ hfirst hrest => exact ⟨hrest.1, hrest.2.trans hfirst.2⟩

theorem complete_of_isRanked : repo.Complete := by
  have htest := ranked
  unfold isRanked at htest
  simp only [Bool.and_eq_true, List.all_eq_true, decide_eq_true_eq] at htest
  obtain ⟨hobjects, hrefs⟩ := htest
  refine ⟨?_, fun leads => (leadsTo_of_isRanked ranked leads).1, ?_, ?_, ?_, ?_⟩
  · intro name id hlookup
    obtain ⟨before, after, heq, _⟩ := List.lookup_eq_some_iff.mp hlookup
    have hentry : (name, RefTarget.id id) ∈ repo.refs := by simp [heq]
    exact holds_iff_isOk.mpr (hrefs _ hentry).1.1
  · intro id parent link
    obtain ⟨commit, hobject⟩ := isCommit_iff.mp (isCommit_of_mem_parentsOf link)
    obtain ⟨entry, hentry, heq⟩ := List.mem_map.mp (mem_keys_of_object hobject (by simp))
    exact (hobjects entry hentry).2 parent (heq ▸ link)
  · intro id leads
    exact Nat.lt_irrefl _ (leadsTo_of_isRanked ranked leads).2
  · intro entry hentry
    exact ⟨⟨entry.1, Option.isNone_iff_eq_none.mp (hrefs entry hentry).1.2⟩, rfl⟩
  · intro entry hentry
    have hsettled := (hrefs entry hentry).2
    cases hfollow : repo.follow entry.2 with
    | id target => exact .inr ⟨target, rfl⟩
    | absent => exact .inl rfl
    | broken => simp [hfollow, isSettled] at hsettled
    | misnamed => simp [hfollow, isSettled] at hsettled

end Ranked

/-! ### A small repository -/

def firstChange : ObjectId := ⟨"1111111111111111111111111111111111111111", by decide⟩

def secondChange : ObjectId := ⟨"2222222222222222222222222222222222222222", by decide⟩

/-- A commit and its child. Only a ref below `refs/changes/` points at the child. -/
def underReview : Repository where
  scope := "/srv/git/review"
  objects :=
    [(secondChange, .readable (.commit ⟨[firstChange], ⟨.empty, .empty, 2⟩, 2, .empty⟩)),
      (firstChange, .readable (.commit ⟨[], ⟨.empty, .empty, 1⟩, 1, .empty⟩))]
  refs := [("refs/changes/1", .id secondChange)]
  folders := []

def changeRank (id : ObjectId) : Nat := if id = secondChange then 1 else 0

theorem underReview_complete : underReview.Complete :=
  complete_of_isRanked (by decide +kernel : underReview.isRanked changeRank = true)

theorem underReview_holds : underReview.Holds firstChange ∧ underReview.Holds secondChange :=
  ⟨holds_iff_isOk.mpr (by decide +kernel), holds_iff_isOk.mpr (by decide +kernel)⟩

end GuardedRevision.Repository
