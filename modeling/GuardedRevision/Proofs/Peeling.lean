import GuardedRevision.Proofs.Outcome
import GuardedRevision.Proofs.Storage
import Mathlib.Data.List.Basic
import Mathlib.Data.List.Nodup
import Mathlib.Data.List.Perm.Subperm

/-!
# Peeling tags

`Repository.peel` follows tag targets for a bounded number of steps. The bound is never felt: `peel`
gives exactly the ends of chains that `PeelsTo` describes, and in a complete repository every stored
object has one.
-/

namespace GuardedRevision.Repository

variable {repo larger : Repository} {id last : ObjectId}

theorem PeelsTo.holds (peels : repo.PeelsTo id last) : repo.Holds id := by
  cases peels with
  | stop stored _ => exact ⟨_, stored⟩
  | tag stored _ => exact ⟨_, stored⟩

theorem PeelsTo.plain (peels : repo.PeelsTo id last) :
    ∃ object, repo.object last = .ok object ∧ object.kind ≠ .tag := by
  induction peels with
  | stop stored plain => exact ⟨_, stored, plain⟩
  | tag _ _ ih => exact ih

theorem PeelsTo.holds_right (peels : repo.PeelsTo id last) : repo.Holds last := by
  obtain ⟨object, hobject, _⟩ := peels.plain
  exact ⟨object, hobject⟩

theorem PeelsTo.of_isCommit (hcommit : repo.isCommit id = true) : repo.PeelsTo id id := by
  obtain ⟨commit, hobject⟩ := isCommit_iff.mp hcommit
  exact .stop hobject (by simp [StoredObject.kind])

theorem PeelsTo.grow (grows : repo.Grows larger) (peels : repo.PeelsTo id last) :
    larger.PeelsTo id last := by
  induction peels with
  | stop stored plain => exact .stop (grows stored) plain
  | tag stored _ ih => exact .tag (grows stored) ih

theorem peelsTo_of_peelWithin {steps : Nat} (hpeel : repo.peelWithin steps id = .ok last) :
    repo.PeelsTo id last := by
  induction steps generalizing id with
  | zero => simp [peelWithin] at hpeel
  | succ steps ih =>
      simp only [peelWithin] at hpeel
      cases hobject : repo.object id with
      | error fault => simp [hobject, bind, Except.bind] at hpeel
      | ok object =>
          cases object with
          | tag tag =>
              simp only [hobject, bind, Except.bind] at hpeel
              exact .tag hobject (ih hpeel)
          | commit commit =>
              simp only [hobject, bind, Except.bind, pure, Except.pure, Except.ok.injEq] at hpeel
              exact hpeel ▸ .stop hobject (by simp [StoredObject.kind])
          | tree =>
              simp only [hobject, bind, Except.bind, pure, Except.pure, Except.ok.injEq] at hpeel
              exact hpeel ▸ .stop hobject (by simp [StoredObject.kind])
          | blob =>
              simp only [hobject, bind, Except.bind, pure, Except.pure, Except.ok.injEq] at hpeel
              exact hpeel ▸ .stop hobject (by simp [StoredObject.kind])

/-! ### The length of a chain -/

/-- `PeelsIn repo links id last`: the chain from `id` has that many tags before its end `last`. -/
inductive PeelsIn (repo : Repository) : Nat → ObjectId → ObjectId → Prop where
  | stop {id : ObjectId} {object : StoredObject} (stored : repo.object id = .ok object)
      (plain : object.kind ≠ .tag) : PeelsIn repo 0 id id
  | tag {links : Nat} {id last : ObjectId} {tag : Tag} (stored : repo.object id = .ok (.tag tag))
      (rest : PeelsIn repo links tag.target last) : PeelsIn repo (links + 1) id last

theorem PeelsTo.exists_links (peels : repo.PeelsTo id last) : ∃ links, repo.PeelsIn links id last := by
  induction peels with
  | stop stored plain => exact ⟨0, .stop stored plain⟩
  | tag stored _ ih =>
      obtain ⟨links, hlinks⟩ := ih
      exact ⟨links + 1, .tag stored hlinks⟩

/-- `Unwinds repo links id result`: following tag targets from `id` comes to an end after that many tags, at
an object that is no tag or at one that cannot be read. -/
inductive Unwinds (repo : Repository) : Nat → ObjectId → Except Fault ObjectId → Prop where
  | fault {id : ObjectId} {fault : Fault} (unreadable : repo.object id = .error fault) :
      Unwinds repo 0 id (.error fault)
  | stop {id : ObjectId} {object : StoredObject} (stored : repo.object id = .ok object)
      (plain : object.kind ≠ .tag) : Unwinds repo 0 id (.ok id)
  | tag {links : Nat} {id : ObjectId} {result : Except Fault ObjectId} {tag : Tag}
      (stored : repo.object id = .ok (.tag tag)) (rest : Unwinds repo links tag.target result) :
      Unwinds repo (links + 1) id result

theorem PeelsIn.unwinds {links : Nat} (peels : repo.PeelsIn links id last) :
    repo.Unwinds links id (.ok last) := by
  induction peels with
  | stop stored plain => exact .stop stored plain
  | tag stored _ ih => exact .tag stored ih

theorem Unwinds.unique {left right : Nat} {result other : Except Fault ObjectId}
    (hleft : repo.Unwinds left id result) (hright : repo.Unwinds right id other) :
    left = right ∧ result = other := by
  induction hleft generalizing right with
  | fault unreadable =>
      cases hright with
      | fault unreadable' =>
          rw [unreadable] at unreadable'
          cases unreadable'
          exact ⟨rfl, rfl⟩
      | stop stored _ => rw [unreadable] at stored; cases stored
      | tag stored _ => rw [unreadable] at stored; cases stored
  | stop stored plain =>
      cases hright with
      | fault unreadable => rw [stored] at unreadable; cases unreadable
      | stop _ _ => exact ⟨rfl, rfl⟩
      | tag stored' _ =>
          rw [stored] at stored'
          cases stored'
          exact absurd rfl plain
  | tag stored _ ih =>
      cases hright with
      | fault unreadable => rw [stored] at unreadable; cases unreadable
      | stop stored' plain' =>
          rw [stored] at stored'
          cases stored'
          exact absurd rfl plain'
      | tag stored' rest' =>
          rw [stored] at stored'
          cases stored'
          obtain ⟨rfl, rfl⟩ := ih rest'
          exact ⟨rfl, rfl⟩

theorem PeelsTo.unique {last' : ObjectId} (left : repo.PeelsTo id last)
    (right : repo.PeelsTo id last') : last = last' := by
  obtain ⟨_, hleft⟩ := left.exists_links
  obtain ⟨_, hright⟩ := right.exists_links
  exact Except.ok.inj (hleft.unwinds.unique hright.unwinds).2

theorem Unwinds.peelWithin {links steps : Nat} {result : Except Fault ObjectId}
    (unwinds : repo.Unwinds links id result) (henough : links < steps) :
    repo.peelWithin steps id = result := by
  induction unwinds generalizing steps with
  | fault unreadable =>
      obtain ⟨steps, rfl⟩ := Nat.exists_eq_succ_of_ne_zero (Nat.pos_iff_ne_zero.mp henough)
      simp [Repository.peelWithin, unreadable, bind, Except.bind]
  | @stop id object stored plain =>
      obtain ⟨steps, rfl⟩ := Nat.exists_eq_succ_of_ne_zero (Nat.pos_iff_ne_zero.mp henough)
      cases object with
      | tag tag => exact absurd rfl plain
      | commit commit => simp [Repository.peelWithin, stored, bind, Except.bind, pure, Except.pure]
      | tree => simp [Repository.peelWithin, stored, bind, Except.bind, pure, Except.pure]
      | blob => simp [Repository.peelWithin, stored, bind, Except.bind, pure, Except.pure]
  | tag stored _ ih =>
      obtain ⟨steps, rfl⟩ := Nat.exists_eq_succ_of_ne_zero (by omega : steps ≠ 0)
      simp only [Repository.peelWithin, stored, bind, Except.bind]
      exact ih (by omega)

/-- Where every object has one distance, and those at a distance are found in a list and have others nearer,
no distance is greater than the list is long. -/
theorem distance_le_length {At : Nat → ObjectId → Prop} {places : List ObjectId}
    (unique : ∀ {left right : Nat} {id : ObjectId}, At left id → At right id → left = right)
    (nearer : ∀ {distance : Nat} {id : ObjectId}, At (distance + 1) id →
      id ∈ places ∧ ∃ next, At distance next)
    {distance : Nat} (hat : At distance id) : distance ≤ places.length := by
  -- As each object has its own distance, those on the way to the end are distinct.
  have hpath : ∀ distance id, At distance id → ∃ path : List ObjectId, path.length = distance ∧
      path.Nodup ∧ path ⊆ places ∧ ∀ other ∈ path, ∃ left ≤ distance, At left other := by
    intro distance
    induction distance with
    | zero => exact fun _ _ => ⟨[], by simp⟩
    | succ distance ih =>
        intro id hid
        obtain ⟨hplace, next, hnext⟩ := nearer hid
        obtain ⟨path, hlength, hnodup, hplaces, hless⟩ := ih next hnext
        refine ⟨id :: path, by simp [hlength], List.nodup_cons.mpr ⟨?_, hnodup⟩,
          List.cons_subset.mpr ⟨hplace, hplaces⟩, ?_⟩
        · intro hmem
          obtain ⟨left, hle, hleft⟩ := hless id hmem
          have heq := unique hleft hid
          omega
        · intro other hother
          rcases List.mem_cons.mp hother with rfl | hmem
          · exact ⟨distance + 1, Nat.le_refl _, hid⟩
          · obtain ⟨left, hle, hleft⟩ := hless other hmem
            exact ⟨left, by omega, hleft⟩
  obtain ⟨path, rfl, hnodup, hplaces, _⟩ := hpath distance id hat
  exact (List.subperm_of_subset hnodup hplaces).length_le

/-- A chain that ends has at most one tag for every stored object. -/
theorem Unwinds.le_length {links : Nat} {result : Except Fault ObjectId}
    (unwinds : repo.Unwinds links id result) : links ≤ repo.objects.length := by
  have hbound : links ≤ (repo.objects.map Prod.fst).length := by
    refine @distance_le_length id (fun links other => repo.Unwinds links other result) _
      (fun hleft hright => (Unwinds.unique hleft hright).1) ?_ links unwinds
    intro links id unwinds
    cases unwinds with
    | tag stored rest => exact ⟨mem_keys_of_object stored (by simp), _, rest⟩
  rwa [List.length_map] at hbound

theorem Unwinds.peel {links : Nat} {result : Except Fault ObjectId}
    (unwinds : repo.Unwinds links id result) : repo.peel id = result :=
  unwinds.peelWithin (Nat.lt_succ_of_le unwinds.le_length)

theorem PeelsIn.lt_steps {links : Nat} (peels : repo.PeelsIn links id last) :
    links < repo.objects.length + 1 :=
  Nat.lt_succ_of_le peels.unwinds.le_length

theorem PeelsIn.grow {links : Nat} (grows : repo.Grows larger) (peels : repo.PeelsIn links id last) :
    larger.PeelsIn links id last := by
  induction peels with
  | stop stored plain => exact .stop (grows stored) plain
  | tag stored _ ih => exact .tag (grows stored) ih

theorem peel_eq_ok_iff : repo.peel id = .ok last ↔ repo.PeelsTo id last := by
  constructor
  · exact peelsTo_of_peelWithin
  · intro peels
    obtain ⟨links, hlinks⟩ := peels.exists_links
    exact hlinks.unwinds.peel

theorem peelToCommit_eq_ok_iff {found : Option ObjectId} : repo.peelToCommit id = .ok found ↔
    ∃ last, repo.PeelsTo id last ∧ found = if repo.isCommit last = true then some last else none := by
  unfold peelToCommit
  rw [except_bind_eq_ok_iff]
  refine exists_congr fun last => ?_
  rw [peel_eq_ok_iff]
  refine and_congr_right fun peels => ?_
  obtain ⟨object, hobject, _⟩ := peels.plain
  cases object with
  | commit commit => simp [isCommit, commit?, hobject, bind, Except.bind, pure, Except.pure, @eq_comm _ found]
  | tree => simp [isCommit, commit?, hobject, bind, Except.bind, pure, Except.pure, @eq_comm _ found]
  | blob => simp [isCommit, commit?, hobject, bind, Except.bind, pure, Except.pure, @eq_comm _ found]
  | tag tag => simp [isCommit, commit?, hobject, bind, Except.bind, pure, Except.pure, @eq_comm _ found]

theorem of_peelToCommit {commit : ObjectId} (hpeel : repo.peelToCommit id = .ok (some commit)) :
    repo.PeelsTo id commit ∧ repo.isCommit commit = true := by
  obtain ⟨last, peels, hfound⟩ := peelToCommit_eq_ok_iff.mp hpeel
  obtain ⟨hcommit, hsame⟩ := Option.ite_none_right_eq_some.mp hfound.symm
  cases hsame
  exact ⟨peels, hcommit⟩

theorem peelToCommit_eq {commit : ObjectId} (hpeel : repo.peelToCommit id = .ok (some commit)) :
    repo.PeelsTo id commit := (of_peelToCommit hpeel).1

theorem isCommit_of_peelToCommit {commit : ObjectId} (hpeel : repo.peelToCommit id = .ok (some commit)) :
    repo.isCommit commit = true := (of_peelToCommit hpeel).2

theorem peelTag_eq_ok_iff {peeled : Option ObjectId} :
    repo.peelTag id = .ok peeled ↔
      (∃ tag last, repo.object id = .ok (.tag tag) ∧ repo.PeelsTo id last ∧ peeled = some last) ∨
      (∃ object, repo.object id = .ok object ∧ object.kind ≠ .tag ∧ peeled = none) := by
  unfold peelTag
  cases hobject : repo.object id with
  | error fault => simp [bind, Except.bind]
  | ok object =>
      cases object with
      | tag tag =>
          cases hpeel : repo.peel id with
          | error fault =>
              have hnone : ∀ last, ¬ repo.PeelsTo id last := by
                intro last hpeels
                rw [peel_eq_ok_iff.mpr hpeels] at hpeel
                cases hpeel
              simp [bind, Except.bind, hnone, StoredObject.kind]
          | ok end' =>
              have hiff : ∀ last, repo.PeelsTo id last ↔ end' = last := by
                intro last
                rw [← peel_eq_ok_iff, hpeel, Except.ok.injEq]
              simp [bind, Except.bind, pure, Except.pure, hiff, StoredObject.kind, eq_comm]
      | commit commit =>
          simp [bind, Except.bind, pure, Except.pure, StoredObject.kind, eq_comm]
      | tree => simp [bind, Except.bind, pure, Except.pure, StoredObject.kind, eq_comm]
      | blob => simp [bind, Except.bind, pure, Except.pure, StoredObject.kind, eq_comm]

theorem peelsTo_of_peelTag {peeled : Option ObjectId} (hpeel : repo.peelTag id = .ok peeled) :
    repo.PeelsTo id (peeled.getD id) := by
  rcases peelTag_eq_ok_iff.mp hpeel with ⟨_, _, _, hpeels, rfl⟩ | ⟨_, hobject, hkind, rfl⟩
  · exact hpeels
  · exact .stop hobject hkind

theorem PeelsTo.exists_peelTag (peels : repo.PeelsTo id last) :
    ∃ peeled, repo.peelTag id = .ok peeled := by
  obtain ⟨object, hobject⟩ := peels.holds
  by_cases hkind : object.kind = .tag
  · cases object with
    | tag tag => exact ⟨some last, peelTag_eq_ok_iff.mpr (.inl ⟨tag, last, hobject, peels, rfl⟩)⟩
    | commit commit => simp [StoredObject.kind] at hkind
    | tree => simp [StoredObject.kind] at hkind
    | blob => simp [StoredObject.kind] at hkind
  · exact ⟨none, peelTag_eq_ok_iff.mpr (.inr ⟨object, hobject, hkind, rfl⟩)⟩

theorem Grows.peelTag {peeled : Option ObjectId} (grows : repo.Grows larger)
    (hpeel : repo.peelTag id = .ok peeled) : larger.peelTag id = .ok peeled := by
  rw [peelTag_eq_ok_iff] at hpeel ⊢
  rcases hpeel with ⟨tag, last, hobject, hpeels, heq⟩ | ⟨object, hobject, hkind, heq⟩
  · exact .inl ⟨tag, last, grows hobject, hpeels.grow grows, heq⟩
  · exact .inr ⟨object, grows hobject, hkind, heq⟩

end GuardedRevision.Repository
