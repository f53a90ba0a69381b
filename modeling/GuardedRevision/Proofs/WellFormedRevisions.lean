import GuardedRevision.Proofs.ResolvedAgain
import Mathlib.Logic.Relation

/-!
# Well-formed revisions

Every side of a resolution has the kind of the object that is stored under its id, and the end of the tag
chain from there. Following a chain of tags comes to an end in any store without cycles of tags, whether or
not the store is complete.
-/

namespace GuardedRevision

open Relation (TransGen)

variable {repo : Repository} {roots : List ObjectId} {id other : ObjectId} {name : String}
  {before after memo : VisibilityMemo} {text : List Char} {revision : Revision} {resolution : Resolution}

/-! ### Chains without cycles -/

namespace Repository

/-- `Tags repo id other`: the object under `id` is a tag, and what it tags is `other`. -/
def Tags (repo : Repository) (id other : ObjectId) : Prop :=
  ∃ tag, repo.object id = .ok (.tag tag) ∧ tag.target = other

theorem Tags.leadsTo (tags : repo.Tags id other) : repo.LeadsTo id other := by
  obtain ⟨tag, stored, rfl⟩ := tags
  exact .link stored (by simp [StoredObject.links])

theorem mem_keys_of_tags (chain : TransGen repo.Tags id other) : id ∈ repo.objects.map Prod.fst := by
  obtain ⟨_, tags, _⟩ := TransGen.head'_iff.mp chain
  exact tags.leadsTo.mem_keys

/-- Tags come to an end one after another, from the ends of the chains up. -/
theorem exists_unwinds (acyclic : ∀ id, ¬ TransGen repo.Tags id id) (id : ObjectId) :
    ∃ links result, repo.Unwinds links id result := by
  have hwell : WellFounded fun other id => TransGen repo.Tags id other :=
    wellFounded_of_sources TransGen.trans acyclic mem_keys_of_tags
  induction id using hwell.induction with
  | _ id ih =>
      cases hobject : repo.object id with
      | error fault => exact ⟨0, .error fault, .fault hobject⟩
      | ok object =>
          cases object with
          | tag tag =>
              obtain ⟨links, result, hrest⟩ := ih tag.target (.single ⟨tag, hobject, rfl⟩)
              exact ⟨links + 1, result, .tag hobject hrest⟩
          | commit commit => exact ⟨0, .ok id, .stop hobject (by simp [StoredObject.kind])⟩
          | tree => exact ⟨0, .ok id, .stop hobject (by simp [StoredObject.kind])⟩
          | blob => exact ⟨0, .ok id, .stop hobject (by simp [StoredObject.kind])⟩

theorem Complete.acyclic_tags (complete : repo.Complete) (id : ObjectId) : ¬ TransGen repo.Tags id id := by
  have hleads : ∀ {first last}, TransGen repo.Tags first last → repo.LeadsTo first last := by
    intro first last chain
    induction chain with
    | single tags => exact tags.leadsTo
    | tail _ tags ih => exact ih.trans tags.leadsTo
  exact fun chain => complete.acyclic id (hleads chain)

end Repository

/-! ### The fields of a revision -/

/-- What the fields of a revision say about the object under its id. -/
structure Revision.WellFormed (repo : Repository) (revision : Revision) : Prop where
  kind : repo.kind revision.id = .ok revision.kind
  /-- A tag is followed to the first object of its chain that is no tag. -/
  tag : revision.kind = .tag →
    repo.PeelsTo revision.id revision.peeledId ∧ repo.kind revision.peeledId = .ok revision.peeledKind
  plain : revision.kind ≠ .tag →
    revision.peeledId = revision.id ∧ revision.peeledKind = revision.kind

namespace Repository

theorem PeelsTo.eq_of_plain {kind : ObjectKind} (peels : repo.PeelsTo id other)
    (hkind : repo.kind id = .ok kind) (hplain : kind ≠ .tag) : other = id := by
  obtain ⟨object, hobject, rfl⟩ := kind_eq_ok_iff.mp hkind
  exact peels.unique (.stop hobject hplain)

theorem revision_eq_ok_iff : repo.revision name id = .ok revision ↔
    revision.name = name ∧ revision.id = id ∧ repo.kind id = .ok revision.kind ∧
      repo.PeelsTo id revision.peeledId ∧ repo.kind revision.peeledId = .ok revision.peeledKind := by
  unfold Repository.revision
  simp only [except_bind_eq_ok_iff, peel_eq_ok_iff, pure, Except.pure, Except.ok.injEq]
  constructor
  · rintro ⟨kind, hkind, peeled, peels, peeledKind, hpeeled, rfl⟩
    exact ⟨rfl, rfl, hkind, peels, hpeeled⟩
  · rintro ⟨rfl, rfl, hkind, peels, hpeeled⟩
    exact ⟨_, hkind, _, peels, _, hpeeled, rfl⟩

theorem wellFormed_of_revision (hrevision : repo.revision name id = .ok revision) :
    revision.WellFormed repo := by
  obtain ⟨rfl, rfl, hkind, peels, hpeeled⟩ := revision_eq_ok_iff.mp hrevision
  refine ⟨hkind, fun _ => ⟨peels, hpeeled⟩, fun hplain => ?_⟩
  have hsame : revision.peeledId = revision.id := peels.eq_of_plain hkind hplain
  rw [hsame, hkind, Except.ok.injEq] at hpeeled
  exact ⟨hsame, hpeeled.symm⟩

theorem wellFormed_of_gives
    (hresolve : Gives (repo.resolveFragment roots text) before (some revision) after) :
    revision.WellFormed repo := by
  obtain ⟨_, _, _, _, _, _, _, _, _, _, hrevision⟩ := gives_resolveFragment_iff.mp hresolve
  exact wellFormed_of_revision hrevision

/-- A parent that a commit is compared with is not looked at, and is a commit all the same. -/
theorem wellFormed_ofCommit (hcommit : repo.isCommit id = true) (name : String) :
    (Revision.ofCommit name id).WellFormed repo :=
  ⟨kind_eq_commit_iff.mpr hcommit, nofun, fun _ => ⟨rfl, rfl⟩⟩

end Repository

/-! ### The sides of a resolution -/

/-- What the sides of a resolution say about the objects under their ids, and about the text. -/
structure Resolution.WellFormed (repo : Repository) (text : String) (resolution : Resolution) : Prop where
  new : resolution.revision.WellFormed repo
  old : ∀ old ∈ resolution.old, old.WellFormed repo
  /-- There is no old side for single revisions and for commits without parents, and only for them. -/
  alone : ∃ expression, Expression.read? text.toList = some expression ∧
    (resolution.old = none ↔ expression.form = .single ∨
      expression.form = .againstParent ∧ repo.isCommit resolution.revision.peeledId = true ∧
        repo.parentsOf resolution.revision.peeledId = [])

namespace Repository

theorem Resolves.new_wellFormed {expression : Expression}
    (resolves : repo.Resolves before after expression resolution) :
    resolution.revision.WellFormed repo := by
  obtain ⟨_, _, _, hfragment, _⟩ := resolves.exists_newSide
  exact wellFormed_of_gives hfragment

theorem Resolves.old_wellFormed (complete : repo.Complete) {expression : Expression}
    (resolves : repo.Resolves before after expression resolution) :
    ∀ old ∈ resolution.old, old.WellFormed repo := by
  intro old hold
  cases resolves with
  | range _ resolvesOld =>
      obtain rfl := Option.some.inj hold
      exact wellFormed_of_gives resolvesOld
  | againstParent _ _ _ =>
      obtain ⟨parent, hparent, rfl⟩ := Option.map_eq_some_iff.mp hold
      exact wellFormed_ofCommit (complete.parents (List.mem_of_mem_head? hparent)) _
  | single _ => cases hold

theorem Resolves.old_eq_none_iff {expression : Expression}
    (resolves : repo.Resolves before after expression resolution) :
    resolution.old = none ↔ expression.form = .single ∨
      expression.form = .againstParent ∧ repo.isCommit resolution.revision.peeledId = true ∧
        repo.parentsOf resolution.revision.peeledId = [] := by
  cases resolves with
  | range _ _ => simp [Expression.form]
  | againstParent _ stored _ => simp [Expression.form, stored]
  | single _ => simp [Expression.form]

/-- All that a complete repository resolves is well formed, and chains of tags come to an end wherever tags
lead back to none of themselves. -/
theorem resolve_wellFormed :
    (∀ {repo : Repository} {memo : VisibilityMemo} {text : String} {resolution : Resolution},
      repo.Complete → ((repo.resolve text).on memo).1 = .ok (some resolution) →
        resolution.WellFormed repo text) ∧
    ∀ {repo : Repository}, (∀ id, ¬ TransGen repo.Tags id id) →
      ∀ id, ∃ links result, repo.Unwinds links id result ∧
        ∀ steps > repo.objects.length, repo.peelWithin steps id = result := by
  constructor
  · intro repo memo text resolution complete hresolve
    obtain ⟨expression, hread, resolves⟩ := resolves_of_resolve hresolve
    exact ⟨resolves.new_wellFormed, resolves.old_wellFormed complete,
      expression, hread, resolves.old_eq_none_iff⟩
  · intro repo acyclic id
    obtain ⟨links, result, unwinds⟩ := exists_unwinds acyclic id
    exact ⟨links, result, unwinds,
      fun steps hsteps => unwinds.peelWithin (unwinds.le_length.trans_lt hsteps)⟩

def innerTag : ObjectId := ⟨"5555555555555555555555555555555555555555", by decide⟩

def outerTag : ObjectId := ⟨"6666666666666666666666666666666666666666", by decide⟩

/-- The first change is tagged, and the tag is tagged again. -/
def taggedTwice : Repository where
  scope := "/srv/git/review"
  objects :=
    [(outerTag, .readable (.tag ⟨innerTag, none⟩)), (innerTag, .readable (.tag ⟨firstChange, some 5⟩)),
      (firstChange, .readable (.commit ⟨[], ⟨.empty, .empty, 1⟩, 1, .empty⟩))]
  refs := [("refs/tags/v1", .id outerTag)]
  folders := []

def tagRank (id : ObjectId) : Nat := if id = outerTag then 2 else if id = innerTag then 1 else 0

theorem resolve_wellFormed_taggedTwice :
    let resolution : Resolution := ⟨⟨"v1", outerTag, .tag, firstChange, .commit⟩, none, "/doc"⟩
    taggedTwice.Complete ∧
    ((taggedTwice.resolve "v1^!/doc").on (.empty ⟨[]⟩ 4)).1 = .ok (some resolution) ∧
    resolution.WellFormed taggedTwice "v1^!/doc" ∧
    (∀ id, ¬ TransGen taggedTwice.Tags id id) ∧
    ∃ links result, taggedTwice.Unwinds links outerTag result ∧
      ∀ steps > taggedTwice.objects.length, taggedTwice.peelWithin steps outerTag = result := by
  intro resolution
  have complete : taggedTwice.Complete :=
    complete_of_isRanked (by decide +kernel : taggedTwice.isRanked tagRank = true)
  have hresolve : ((taggedTwice.resolve "v1^!/doc").on (.empty ⟨[]⟩ 4)).1 = .ok (some resolution) := by
    decide +kernel
  exact ⟨complete, hresolve, resolve_wellFormed.1 complete hresolve, complete.acyclic_tags,
    resolve_wellFormed.2 complete.acyclic_tags outerTag⟩

end Repository

end GuardedRevision
