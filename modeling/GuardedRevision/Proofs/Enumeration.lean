import GuardedRevision.Proofs.Sowing
import GuardedRevision.Proofs.Reachability

/-!
# Enumerating a history

With nothing hidden a walk yields exactly the commits that what was pushed reaches, each once and each
after all its descendants. Along first parents, from one commit, it yields the line of first parents.
-/

namespace GuardedRevision

namespace Repository

/-- `IsFirstLine repo id line`: the commit, its first parent, the first parent of that, and so on down
to a commit without parents. -/
inductive IsFirstLine (repo : Repository) : ObjectId → List ObjectId → Prop where
  | root {id : ObjectId} (stored : repo.isCommit id = true) (orphan : repo.parentsOf id = []) :
      IsFirstLine repo id [id]
  | child {id parent : ObjectId} {line : List ObjectId}
      (link : (repo.parentsOf id).head? = some parent) (rest : IsFirstLine repo parent line) :
      IsFirstLine repo id (id :: line)

variable {repo : Repository} {firstParent : Bool} {id other start : ObjectId}
  {commits starts : List ObjectId}

/-! ### Descendants first -/

/-- A path to a commit from one that comes after it would enter the commit from a child that does, too. -/
theorem not_reaches_of_forall_notMem (hclosed : ∀ child ∈ commits, ∀ parent ∈ repo.parentsOf child,
      parent = id ∨ parent ∈ commits)
    (hchildren : ∀ child ∈ commits, id ∉ repo.parentsOf child) (hnew : id ∉ commits)
    (hother : other ∈ commits) : ¬ repo.Reaches other id := by
  intro reaches
  induction reaches with
  | refl _ => exact hnew hother
  | @parent other parent id link _ ih =>
      rcases hclosed other hother parent link with rfl | hmem
      · exact hchildren other hother link
      · exact ih hclosed hchildren hnew hmem

theorem pairwise_not_reaches (hnodup : commits.Nodup)
    (hordered : commits.Pairwise fun earlier later => earlier ∉ repo.parentsOf later)
    (hclosed : ∀ child ∈ commits, ∀ parent ∈ repo.parentsOf child, parent ∈ commits) :
    commits.Pairwise fun earlier later => ¬ repo.Reaches later earlier := by
  induction commits with
  | nil => exact List.Pairwise.nil
  | cons id later ih =>
      obtain ⟨hnew, hnodup⟩ := List.nodup_cons.mp hnodup
      obtain ⟨hchildren, hordered⟩ := List.pairwise_cons.mp hordered
      have hsplit : ∀ child ∈ later, ∀ parent ∈ repo.parentsOf child, parent = id ∨ parent ∈ later :=
        fun child hchild parent link =>
          List.mem_cons.mp (hclosed child (List.mem_cons_of_mem _ hchild) parent link)
      refine List.pairwise_cons.mpr ⟨fun other => not_reaches_of_forall_notMem hsplit hchildren hnew,
        ih hnodup hordered fun child hchild parent link => ?_⟩
      -- The first commit is no parent of a later one, so the later ones are closed under parents.
      rcases hsplit child hchild parent link with rfl | hmem
      · exact absurd link (hchildren child hchild)
      · exact hmem

/-! ### Lines of first parents -/

theorem mem_followed_true_iff : other ∈ repo.followed true id ↔ (repo.parentsOf id).head? = some other := by
  unfold followed
  cases repo.parentsOf id with
  | nil => simp
  | cons parent rest => simp [eq_comm]

theorem Follows.eq_or_leadsTo (follows : repo.Follows firstParent id other) :
    id = other ∨ repo.LeadsTo id other := by
  induction follows with
  | refl _ => exact .inl rfl
  | parent link _ ih =>
      have hlead := leadsTo_of_mem_parentsOf (mem_parentsOf_of_mem_followed link)
      rcases ih with rfl | hrest
      · exact .inr hlead
      · exact .inr (.trans hlead hrest)

theorem Follows.exists_last (follows : repo.Follows firstParent id other) (hne : id ≠ other) :
    ∃ child, repo.Follows firstParent id child ∧ other ∈ repo.followed firstParent child := by
  induction follows with
  | refl _ => exact absurd rfl hne
  | @parent id parent other link rest ih =>
      have hcommit : repo.isCommit id = true :=
        isCommit_of_mem_parentsOf (mem_parentsOf_of_mem_followed link)
      by_cases heq : parent = other
      · exact ⟨id, .refl hcommit, heq ▸ link⟩
      · obtain ⟨child, follows, hlast⟩ := ih heq
        exact ⟨child, .parent link follows, hlast⟩

section Lines

variable {first parent : ObjectId} {later : List ObjectId}

/-- Children before parents, a line begins with the only commit without a child on it. -/
theorem first_eq_of_ordered (acyclic : ∀ id, ¬ repo.LeadsTo id id)
    (hchildren : ∀ child ∈ later, first ∉ repo.parentsOf child)
    (hmem : ∀ id, id ∈ first :: later ↔ repo.Follows true start id) : start = first := by
  by_contra hne
  obtain ⟨child, follows, hlast⟩ := ((hmem first).mp List.mem_cons_self).exists_last hne
  have hlink := mem_parentsOf_of_mem_followed hlast
  rcases List.mem_cons.mp ((hmem child).mpr follows) with rfl | hlater
  · exact acyclic child (leadsTo_of_mem_parentsOf hlink)
  · exact hchildren child hlater hlink

theorem mem_later_iff (acyclic : ∀ id, ¬ repo.LeadsTo id id)
    (hparent : (repo.parentsOf start).head? = some parent) (hnew : start ∉ later)
    (hmem : ∀ id, id ∈ start :: later ↔ repo.Follows true start id) :
    other ∈ later ↔ repo.Follows true parent other := by
  have hlink : parent ∈ repo.followed true start := mem_followed_true_iff.mpr hparent
  have hlead := leadsTo_of_mem_parentsOf (mem_parentsOf_of_mem_followed hlink)
  constructor
  · intro hother
    cases (hmem other).mp (List.mem_cons_of_mem _ hother) with
    | refl _ => exact absurd hother hnew
    | parent link rest =>
        rw [mem_followed_true_iff, hparent] at link
        cases link
        exact rest
  · intro follows
    refine (List.mem_cons.mp ((hmem other).mpr (.parent hlink follows))).resolve_left ?_
    rintro rfl
    rcases follows.eq_or_leadsTo with rfl | hback
    · exact acyclic parent hlead
    · exact acyclic other (.trans hlead hback)

theorem later_eq_nil (horphan : repo.parentsOf start = []) (hnew : start ∉ later)
    (hmem : ∀ id, id ∈ start :: later ↔ repo.Follows true start id) : later = [] := by
  refine List.eq_nil_iff_forall_not_mem.mpr fun other hother => ?_
  cases (hmem other).mp (List.mem_cons_of_mem _ hother) with
  | refl _ => exact hnew hother
  | parent link _ => simp [followed, horphan] at link

theorem isFirstLine_of_ordered (acyclic : ∀ id, ¬ repo.LeadsTo id id)
    (hstart : repo.isCommit start = true) (hnodup : commits.Nodup)
    (hordered : commits.Pairwise fun earlier later => earlier ∉ repo.parentsOf later)
    (hmem : ∀ id, id ∈ commits ↔ repo.Follows true start id)
    (hparents : ∀ id, ∀ parent ∈ repo.parentsOf id, repo.isCommit parent = true) :
    repo.IsFirstLine start commits := by
  induction start using (wellFounded_leadsTo acyclic).induction generalizing commits with
  | _ start ih =>
      have hfirst : start ∈ commits := (hmem start).mpr (.refl hstart)
      cases commits with
      | nil => cases hfirst
      | cons first later =>
          obtain ⟨hnew, honce⟩ := List.nodup_cons.mp hnodup
          obtain ⟨hchildren, hlaterOrdered⟩ := List.pairwise_cons.mp hordered
          obtain rfl : start = first := first_eq_of_ordered acyclic hchildren hmem
          cases hparent : (repo.parentsOf start).head? with
          | none =>
              have horphan : repo.parentsOf start = [] := List.head?_eq_none_iff.mp hparent
              exact later_eq_nil horphan hnew hmem ▸ .root hstart horphan
          | some parent =>
              have hlink : parent ∈ repo.parentsOf start := List.mem_of_mem_head? hparent
              exact .child hparent (ih parent (leadsTo_of_mem_parentsOf hlink) (hparents start parent hlink)
                honce hlaterOrdered fun _ => mem_later_iff acyclic hparent hnew hmem)

end Lines

theorem mem_iff_followedBy {walk : HistoryWalk} {seeds : List Seed} (complete : repo.Complete)
    (sown : walk.Sown repo seeds) (lists : walk.Lists repo commits) (hnone : ∀ id, Seed.hide id ∉ seeds) :
    id ∈ commits ↔ repo.FollowedBy walk.firstParent walk.starts id := by
  refine lists.mem_iff complete ?_
  rintro ⟨root, hroot, _⟩
  exact hnone root ((sown.hidden root).mp hroot)

theorem Complete.exists_reached_runs (complete : repo.Complete)
    (hstarts : ∀ id ∈ starts, repo.isCommit id = true) :
    ∃ walk commits last, repo.sown (starts.map .push) = .ok walk ∧ walk.Runs commits last ∧
      commits.Nodup ∧ (∀ id, id ∈ commits ↔ repo.ReachedBy starts id) ∧
      commits.Pairwise fun earlier later => ¬ repo.Reaches later earlier := by
  have hcommits : ∀ id, Seed.push id ∈ starts.map Seed.push ∨ Seed.hide id ∈ starts.map Seed.push →
      repo.isCommit id = true := by
    simpa using hstarts
  obtain ⟨walk, hwalk, sown⟩ := exists_sown hcommits
  obtain ⟨commits, last, hruns, lists⟩ := sown.exists_runs complete hcommits
  have hfirst : walk.firstParent = false := by
    rw [← Bool.not_eq_true, sown.firstParent]
    simp
  have hmem : ∀ id, id ∈ commits ↔ repo.ReachedBy starts id := fun id => by
    rw [mem_iff_followedBy complete sown lists (by simp), hfirst, followedBy_false_iff]
    simp [ReachedBy, sown.starts]
  refine ⟨walk, commits, last, hwalk, hruns, lists.history.nodup, hmem, ?_⟩
  apply pairwise_not_reaches lists.history.nodup lists.ordered
  intro child hchild parent link
  have hstep : repo.Reaches child parent := .parent link (.refl (complete.parents link))
  exact (hmem parent).mpr (((hmem child).mp hchild).trans hstep)

theorem Complete.exists_firstLine_runs (complete : repo.Complete) {seeds : List Seed}
    (hstart : repo.isCommit start = true) (hperm : seeds.Perm [.push start, .firstParent]) :
    ∃ walk line last, repo.sown seeds = .ok walk ∧ walk.Runs line last ∧ repo.IsFirstLine start line := by
  have hseeds : ∀ seed, seed ∈ seeds ↔ seed = .push start ∨ seed = .firstParent := fun seed => by
    simp [hperm.mem_iff]
  have hcommits : ∀ id, Seed.push id ∈ seeds ∨ Seed.hide id ∈ seeds → repo.isCommit id = true := by
    simp [hseeds, hstart]
  obtain ⟨walk, hwalk, sown⟩ := exists_sown hcommits
  obtain ⟨line, last, hruns, lists⟩ := sown.exists_runs complete hcommits
  have hfirst : walk.firstParent = true := sown.firstParent.mpr (by simp [hseeds])
  refine ⟨walk, line, last, hwalk, hruns, isFirstLine_of_ordered complete.acyclic hstart
    lists.history.nodup lists.ordered (fun id => ?_) fun _ _ => complete.parents⟩
  rw [mem_iff_followedBy complete sown lists (by simp [hseeds]), hfirst]
  simp [FollowedBy, sown.starts, hseeds]

/-- A walk enumerates history: what was pushed reaches just the commits that it yields, each once and
descendants first; along first parents it yields the line of the one commit that was pushed. -/
theorem Complete.sown_enumerates (complete : repo.Complete) :
    (∀ starts : List ObjectId, (∀ id ∈ starts, repo.isCommit id = true) →
      ∃ walk commits last, repo.sown (starts.map .push) = .ok walk ∧ walk.Runs commits last ∧
        commits.Nodup ∧ (∀ id, id ∈ commits ↔ repo.ReachedBy starts id) ∧
        commits.Pairwise fun earlier later => ¬ repo.Reaches later earlier) ∧
    ∀ (start : ObjectId) (seeds : List Seed), repo.isCommit start = true →
      seeds.Perm [.push start, .firstParent] →
      ∃ walk line last, repo.sown seeds = .ok walk ∧ walk.Runs line last ∧
        repo.IsFirstLine start line := by
  exact ⟨fun _ => complete.exists_reached_runs, fun _ _ => complete.exists_firstLine_runs⟩

theorem sown_enumerates_underReview :
    underReview.Complete ∧
    (∃ walk commits last,
      underReview.sown ([firstChange, secondChange, firstChange].map .push) = .ok walk ∧
      walk.Runs commits last ∧ commits.Nodup ∧
      (∀ id, id ∈ commits ↔ underReview.ReachedBy [firstChange, secondChange, firstChange] id) ∧
      commits.Pairwise fun earlier later => ¬ underReview.Reaches later earlier) ∧
    ∃ walk line last, underReview.sown [.firstParent, .push secondChange] = .ok walk ∧
      walk.Runs line last ∧ underReview.IsFirstLine secondChange line := by
  have hboth := underReview_complete.sown_enumerates
  have hstarts : ∀ id ∈ [firstChange, secondChange, firstChange], underReview.isCommit id = true := by
    decide +kernel
  exact ⟨underReview_complete, hboth.1 _ hstarts,
    hboth.2 secondChange _ (by decide +kernel) (List.Perm.swap _ _ _)⟩

end Repository

end GuardedRevision
