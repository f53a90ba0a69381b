import GuardedRevision.Proofs.RefFolders
import GuardedRevision.Proofs.Times

/-!
# Listed tags

`ListsTags` says which tags a repository has and how they are ordered, without a word about refs being
gathered, times being remembered or anything being sorted. There is one such list, and it is what a memo
answers, cut off at the limit: whatever it remembers, and in whatever order the store gives the refs.
-/

namespace GuardedRevision

/-! ### What is listed -/

namespace Repository

/-- `Refers repo name target`: the ref of this name leads to the object. A ref that holds the id itself
has to be one that the store finds under its name. -/
inductive Refers (repo : Repository) (name : String) : ObjectId → Prop where
  | direct {target : ObjectId} {value : RefTarget} (held : repo.refs.lookup name = some (.id target))
      (storable : target.isStorable = true) (found : repo.refValue name = .ok (some value)) :
      Refers repo name target
  | symbolic {target : ObjectId} {next : String} (held : repo.refs.lookup name = some (.symbolic next))
      (leads : repo.follow (.symbolic next) = .id target) : Refers repo name target

/-- What stands for the end of the tag chain beside a target: nothing, if the target is no tag. -/
inductive Peeled (repo : Repository) (target : ObjectId) : Option ObjectId → Prop where
  | tag {tag : Tag} {last : ObjectId} (stored : repo.object target = .ok (.tag tag))
      (peels : repo.PeelsTo target last) : Peeled repo target (some last)
  | plain {object : StoredObject} (stored : repo.object target = .ok object)
      (plain : object.kind ≠ .tag) : Peeled repo target none

/-- The entry says of a ref in the namespace of tags what is so. -/
structure Tagged (repo : Repository) (tag : TagEntry) : Prop where
  named : tag.ref.name.text = RefName.tags ++ tag.name
  refers : repo.Refers tag.ref.name.text tag.ref.target
  peeled : repo.Peeled tag.ref.target tag.ref.peeled
  dated : repo.HasTime tag.ref.target tag.time

end Repository

/-- The later tag stands first, and of two with one time the one whose name has the smaller bytes. -/
def TagEntry.Precedes (left right : TagEntry) : Prop :=
  right.time < left.time ∨
    left.time = right.time ∧ ObjectText.bytes left.name < ObjectText.bytes right.name

/-- The tags of a repository in their order. -/
structure Repository.ListsTags (repo : Repository) (tags : List TagEntry) : Prop where
  tagged : ∀ tag ∈ tags, repo.Tagged tag
  complete : ∀ (name : RefName) (target : ObjectId), RefName.isUnder RefName.tags name.text = true →
    repo.Refers name.text target → ∃ tag ∈ tags, tag.ref.name = name
  once : (tags.map (·.ref.name)).Nodup
  ordered : tags.Pairwise TagEntry.Precedes

namespace Repository

variable {repo : Repository} {name : String} {target other : ObjectId} {peeled : Option ObjectId}
  {left right : TagEntry} {tags all : List TagEntry}

theorem follow_id_eq_id_iff : repo.follow (.id target) = .id other ↔
    target.isStorable = true ∧ target = other := by
  change (if target.isStorable then RefEnd.id target else .broken) = _ ↔ _
  by_cases hstorable : target.isStorable = true <;> simp [hstorable]

theorem listedTarget?_eq_some_iff : repo.listedTarget? name = some target ↔ repo.Refers name target := by
  unfold listedTarget?
  constructor
  · intro hlisted
    split at hlisted
    · cases hlisted
    · next value hlookup =>
        split at hlisted
        · next hfollow =>
            cases hlisted
            exact .symbolic hlookup hfollow
        · next held _ hfollow =>
            split at hlisted
            · next found hfound =>
                cases hlisted
                obtain ⟨hstorable, hfollow⟩ := follow_id_eq_id_iff.mp hfollow
                exact .direct (hfollow ▸ hlookup) (hfollow ▸ hstorable) hfound
            · cases hlisted
        · cases hlisted
  · rintro (⟨held, storable, found⟩ | ⟨held, leads⟩)
    · have hfollow : repo.follow (.id target) = .id target := if_pos storable
      simp only [held, hfollow, found]
    · simp only [held, leads]

theorem Refers.unique (left : repo.Refers name target) (right : repo.Refers name other) :
    target = other := by
  rw [← listedTarget?_eq_some_iff] at left right
  exact Option.some.inj (left.symm.trans right)

theorem Refers.mem (refers : repo.Refers name target) : name ∈ repo.refs.map Prod.fst := by
  obtain ⟨value, hlookup⟩ : ∃ value, repo.refs.lookup name = some value := by
    cases refers with
    | direct held _ _ => exact ⟨_, held⟩
    | symbolic held _ => exact ⟨_, held⟩
  obtain ⟨before, after, hrefs, _⟩ := List.lookup_eq_some_iff.mp hlookup
  simp [hrefs]

theorem peelTag_iff : repo.peelTag target = .ok peeled ↔ repo.Peeled target peeled := by
  rw [peelTag_eq_ok_iff]
  constructor
  · rintro (⟨tag, last, stored, peels, rfl⟩ | ⟨object, stored, plain, rfl⟩)
    · exact .tag stored peels
    · exact .plain stored plain
  · rintro (⟨stored, peels⟩ | ⟨stored, plain⟩)
    · exact .inl ⟨_, _, stored, peels, rfl⟩
    · exact .inr ⟨_, stored, plain, rfl⟩

theorem Tagged.eq_of_name (hleft : repo.Tagged left) (hright : repo.Tagged right)
    (hname : left.ref.name = right.ref.name) : left = right := by
  have htarget : left.ref.target = right.ref.target := hleft.refers.unique (hname ▸ hright.refers)
  have hpeeled : left.ref.peeled = right.ref.peeled := by
    have hpeel := peelTag_iff.mpr hleft.peeled
    rw [htarget, peelTag_iff.mpr hright.peeled] at hpeel
    exact (Except.ok.inj hpeel).symm
  have htime : left.time = right.time := hleft.dated.unique (htarget ▸ hright.dated)
  have hshort : left.name = right.name := by
    exact (String.append_right_inj _).mp (hleft.named.symm.trans (hname ▸ hright.named))
  obtain ⟨_, ⟨_, _, _⟩, _⟩ := left
  obtain ⟨_, ⟨_, _, _⟩, _⟩ := right
  simp_all

theorem ListsTags.mem_iff (lists : repo.ListsTags tags) : left ∈ tags ↔ repo.Tagged left := by
  refine ⟨lists.tagged left, fun tagged => ?_⟩
  obtain ⟨tag, hmem, hname⟩ := lists.complete _ _ (RefName.isUnder_iff.mpr ⟨_, tagged.named⟩) tagged.refers
  exact (lists.tagged tag hmem).eq_of_name tagged hname ▸ hmem

end Repository

namespace TagEntry

variable {left middle right : TagEntry}

theorem isBefore_iff : isBefore left right = true ↔
    right.time < left.time ∨ left.time = right.time ∧ left.name ≤ right.name := by
  simp [isBefore]

theorem isBefore_total (hnot : isBefore left right = false) : isBefore right left = true := by
  have hnot : ¬ (right.time < left.time ∨ left.time = right.time ∧ left.name ≤ right.name) := by
    rw [← isBefore_iff, hnot]
    decide
  rw [isBefore_iff]
  rw [not_or, not_and, not_le] at hnot
  rcases lt_or_eq_of_le (not_lt.mp hnot.1) with hless | heq
  · exact .inl hless
  · exact .inr ⟨heq.symm, (hnot.2 heq).le⟩

theorem isBefore_trans (hfirst : isBefore left middle = true) (hrest : isBefore middle right = true) :
    isBefore left right = true := by
  rw [isBefore_iff] at hfirst hrest ⊢
  rcases hfirst with hfirst | ⟨hfirst, hname⟩
  · exact .inl (hrest.elim (fun hless => hless.trans hfirst) fun heq => heq.1 ▸ hfirst)
  · rw [hfirst]
    exact hrest.imp_right fun ⟨heq, hmore⟩ => ⟨heq, hname.trans hmore⟩

theorem Precedes.asymm (hleft : left.Precedes right) : ¬ right.Precedes left := by
  rintro (hless | ⟨heq, hbytes⟩)
  · rcases hleft with hmore | ⟨hsame, _⟩
    · exact lt_asymm hmore hless
    · exact hless.ne hsame
  · rcases hleft with hmore | ⟨_, hmore⟩
    · exact hmore.ne heq
    · exact List.lt_asymm hbytes hmore

theorem precedes_of_isBefore (hbefore : isBefore left right = true) (hne : left.name ≠ right.name) :
    left.Precedes right := by
  refine (isBefore_iff.mp hbefore).imp_right fun ⟨heq, hname⟩ => ⟨heq, ?_⟩
  exact ObjectText.bytes_lt_iff.mpr (lt_of_le_of_ne hname hne)

end TagEntry

namespace Repository

variable {repo : Repository} {tags all : List TagEntry}

theorem ListsTags.unique (left : repo.ListsTags tags) (right : repo.ListsTags all) : tags = all := by
  have hperm : tags.Perm all := by
    refine (List.perm_ext_iff_of_nodup left.once.of_map right.once.of_map).mpr fun tag => ?_
    rw [left.mem_iff, right.mem_iff]
  exact hperm.eq_of_pairwise (fun _ _ _ _ hbefore hafter => absurd hafter hbefore.asymm)
    left.ordered right.ordered

end Repository

/-! ### What is answered -/

namespace TimeMemo

/-- The tags as `listTags` answers them when the store gives its refs in this order of their names. -/
def listTagsInOrder (memo : TimeMemo) (repo : Repository) (names : List RefName) (limit : Option Nat) :
    Except Fault (List TagEntry) := do
  let refs ← repo.entries names
  let entries ← (memo.tagEntries repo refs).1
  let tags := Sorting.sortBy TagEntry.isBefore entries
  return (limit.map tags.take).getD tags

variable {repo larger : Repository} {memo other : TimeMemo} {limit : Option Nat} {names : List RefName}
  {refs rest : List RefEntry} {ref : RefEntry} {name : String} {tags : List TagEntry}

theorem listTags_eq_inOrder :
    (memo.listTags repo limit).1 = memo.listTagsInOrder repo (repo.refNames RefName.tags) limit := by
  unfold listTags listTagsInOrder
  rw [Repository.listRefsUnder_eq RefName.spellsFolder_tags]
  cases repo.entries (repo.refNames RefName.tags) with
  | error fault => rfl
  | ok refs =>
      simp only [bind, Except.bind]
      cases (memo.tagEntries repo refs).1 with
      | error fault => rfl
      | ok entries => rfl

theorem tagEntries_of_tag (hname : RefName.after? RefName.tags ref.name.text = some name) :
    (memo.tagEntries repo (ref :: rest)).1 = (do
      let time ← (memo.time repo ref.target).1
      let later ← ((memo.time repo ref.target).2.tagEntries repo rest).1
      return ⟨name, ref, time⟩ :: later) := by
  rw [tagEntries, hname]
  dsimp only
  obtain ⟨answer, after⟩ := memo.time repo ref.target
  cases answer with
  | error fault => rfl
  | ok time =>
      simp only [bind, Except.bind]
      cases (after.tagEntries repo rest).1 <;> rfl

theorem Sound.tagEntries_eq_ok_iff (sound : memo.Sound repo)
    (hrefs : ∀ ref ∈ refs, RefName.isUnder RefName.tags ref.name.text = true) :
    (memo.tagEntries repo refs).1 = .ok tags ↔ tags.map (·.ref) = refs ∧
      ∀ tag ∈ tags, tag.ref.name.text = RefName.tags ++ tag.name ∧
        repo.HasTime tag.ref.target tag.time := by
  induction refs generalizing memo tags with
  | nil =>
      rw [tagEntries, Except.ok.injEq, List.map_eq_nil_iff, eq_comm]
      exact ⟨fun hnil => ⟨hnil, by simp [hnil]⟩, And.left⟩
  | cons ref rest ih =>
      obtain ⟨hunder, hrest⟩ := List.forall_mem_cons.mp hrefs
      obtain ⟨name, hname⟩ := RefName.isUnder_iff.mp hunder
      rw [tagEntries_of_tag (RefName.after?_eq_some_iff.mpr hname), except_bind_eq_ok_iff]
      simp only [except_bind_eq_ok_iff, sound.time_eq_ok_iff, ih (sound.asked (Repository.Grows.refl repo)) hrest,
        pure, Except.pure, Except.ok.injEq]
      constructor
      · rintro ⟨time, hasTime, later, ⟨hmap, hdated⟩, rfl⟩
        exact ⟨by rw [List.map_cons, hmap], List.forall_mem_cons.mpr ⟨⟨hname, hasTime⟩, hdated⟩⟩
      · rintro ⟨hmap, hdated⟩
        obtain ⟨tag, later, rfl, rfl, hlater⟩ := List.map_eq_cons_iff.mp hmap
        obtain ⟨⟨hname', hasTime⟩, hlaterDated⟩ := List.forall_mem_cons.mp hdated
        obtain rfl := (String.append_right_inj _).mp (hname.symm.trans hname')
        exact ⟨tag.time, hasTime, later, ⟨hlater, hlaterDated⟩, rfl⟩

theorem Sound.exists_tagEntries (sound : memo.Sound repo)
    (hdated : ∀ ref ∈ refs, ∃ time, repo.HasTime ref.target time) :
    ∃ tags, (memo.tagEntries repo refs).1 = .ok tags := by
  induction refs generalizing memo with
  | nil => exact ⟨[], rfl⟩
  | cons ref rest ih =>
      obtain ⟨⟨time, hasTime⟩, hrest⟩ := List.forall_mem_cons.mp hdated
      cases hname : RefName.after? RefName.tags ref.name.text with
      | none =>
          rw [tagEntries, hname]
          exact ih sound hrest
      | some name =>
          obtain ⟨later, hlater⟩ := ih (sound.asked (Repository.Grows.refl repo)) hrest
          rw [tagEntries_of_tag hname, sound.time_eq_ok_iff.mpr hasTime, hlater]
          exact ⟨_, rfl⟩

/-- What is remembered makes no difference to the entries, not even what is known from a larger store. -/
theorem Sound.tagEntries_eq (grows : repo.Grows larger) (sound : memo.Sound larger)
    (soundOther : other.Sound repo) (hdated : ∀ ref ∈ refs, ∃ time, repo.HasTime ref.target time) :
    (memo.tagEntries repo refs).1 = (other.tagEntries repo refs).1 := by
  induction refs generalizing memo other with
  | nil => rfl
  | cons ref rest ih =>
      obtain ⟨⟨time, hasTime⟩, hrest⟩ := List.forall_mem_cons.mp hdated
      cases hname : RefName.after? RefName.tags ref.name.text with
      | none =>
          rw [tagEntries, tagEntries, hname]
          exact ih sound soundOther hrest
      | some name =>
          rw [tagEntries_of_tag hname, tagEntries_of_tag hname, sound.time_of_hasTime grows hasTime,
            soundOther.time_eq_ok_iff.mpr hasTime,
            ih (sound.asked grows) (soundOther.asked (Repository.Grows.refl repo)) hrest]

/-- A ref that is listed peels, so its target has a time. -/
theorem Sound.listTags_eq (grows : repo.Grows larger) (sound : memo.Sound larger) (soundOther : other.Sound repo) :
    (memo.listTags repo limit).1 = (other.listTags repo limit).1 := by
  rw [listTags_eq_inOrder, listTags_eq_inOrder]
  unfold listTagsInOrder
  cases hentries : repo.entries (repo.refNames RefName.tags) with
  | error fault => rfl
  | ok refs =>
      have hdated : ∀ ref ∈ refs, ∃ time, repo.HasTime ref.target time := fun ref href =>
        (Repository.peelsTo_of_peelTag ((Repository.mem_entries hentries).mp href).2.2).exists_hasTime
      simp only [bind, Except.bind, sound.tagEntries_eq grows soundOther hdated]

section Order

variable {all : List TagEntry} (horder : names.Perm (repo.refNames RefName.tags))
include horder

theorem listsTags_sortBy (hentries : repo.entries names = .ok refs) (hrefs : tags.map (·.ref) = refs)
    (hdated : ∀ tag ∈ tags, tag.ref.name.text = RefName.tags ++ tag.name ∧
      repo.HasTime tag.ref.target tag.time) :
    repo.ListsTags (Sorting.sortBy TagEntry.isBefore tags) := by
  have hperm := Sorting.sortBy_perm TagEntry.isBefore tags
  have hnodup : ((Sorting.sortBy TagEntry.isBefore tags).map (·.ref.name)).Nodup := by
    have hsublist := Repository.map_name_entries_sublist hentries
    rw [← hrefs, List.map_map] at hsublist
    exact (hperm.map _).nodup_iff.mpr ((horder.nodup_iff.mpr Repository.nodup_refNames).sublist hsublist)
  have htagged : ∀ tag ∈ Sorting.sortBy TagEntry.isBefore tags, repo.Tagged tag := by
    intro tag htag
    have hmem := hperm.mem_iff.mp htag
    obtain ⟨_, hlisted, hpeeled⟩ := (Repository.mem_entries hentries).mp (hrefs ▸ List.mem_map_of_mem hmem)
    exact ⟨(hdated tag hmem).1, Repository.listedTarget?_eq_some_iff.mp hlisted,
      Repository.peelTag_iff.mp hpeeled, (hdated tag hmem).2⟩
  refine ⟨htagged, fun name target hunder refers => ?_, hnodup, ?_⟩
  · have hname := horder.mem_iff.mpr (Repository.mem_refNames.mpr ⟨hunder, refers.mem⟩)
    obtain ⟨ref, href, rfl⟩ :=
      Repository.exists_mem_entries hentries hname (Repository.listedTarget?_eq_some_iff.mpr refers)
    rw [← hrefs] at href
    obtain ⟨tag, htag, rfl⟩ := List.mem_map.mp href
    exact ⟨tag, hperm.mem_iff.mpr htag, rfl⟩
  · have hsorted := Sorting.pairwise_sortBy TagEntry.isBefore (fun _ _ => TagEntry.isBefore_total)
      (fun _ _ _ => TagEntry.isBefore_trans) tags
    refine (hsorted.and (List.pairwise_map.mp hnodup)).imp_of_mem ?_
    rintro left right hleft hright ⟨hbefore, hne⟩
    refine TagEntry.precedes_of_isBefore hbefore fun hsame => hne (RefName.ext ?_)
    rw [(htagged left hleft).named, (htagged right hright).named, hsame]

/-- Where there is a listing, no ref of the namespace is in the way. -/
theorem exists_entries_of_listsTags (lists : repo.ListsTags all) :
    ∃ refs, repo.entries names = .ok refs ∧ ∀ ref ∈ refs,
      RefName.isUnder RefName.tags ref.name.text = true ∧ ∃ time, repo.HasTime ref.target time := by
  have htag : ∀ name ∈ names, ∀ target, repo.listedTarget? name.text = some target →
      ∃ tag, repo.Tagged tag ∧ tag.ref.target = target := by
    intro name hname target hlisted
    have refers := Repository.listedTarget?_eq_some_iff.mp hlisted
    have hunder := (Repository.mem_refNames.mp (horder.mem_iff.mp hname)).1
    obtain ⟨tag, hmem, rfl⟩ := lists.complete name target hunder refers
    exact ⟨tag, lists.tagged tag hmem, (lists.tagged tag hmem).refers.unique refers⟩
  obtain ⟨refs, hentries⟩ := Repository.exists_entries fun name hname target hlisted => by
    obtain ⟨tag, tagged, rfl⟩ := htag name hname target hlisted
    exact ⟨_, Repository.peelTag_iff.mpr tagged.peeled⟩
  refine ⟨refs, hentries, fun ref href => ?_⟩
  obtain ⟨hname, hlisted, _⟩ := (Repository.mem_entries hentries).mp href
  obtain ⟨tag, tagged, htarget⟩ := htag ref.name hname ref.target hlisted
  exact ⟨(Repository.mem_refNames.mp (horder.mem_iff.mp hname)).1, tag.time, htarget ▸ tagged.dated⟩

theorem Sound.listTagsInOrder_eq_ok_iff (sound : memo.Sound repo) :
    memo.listTagsInOrder repo names limit = .ok tags ↔
      ∃ all, repo.ListsTags all ∧ tags = (limit.map all.take).getD all := by
  have hanswer : ∀ refs entries, repo.entries names = .ok refs → (memo.tagEntries repo refs).1 = .ok entries →
      repo.ListsTags (Sorting.sortBy TagEntry.isBefore entries) := by
    intro refs entries hentries htags
    have hunder : ∀ ref ∈ refs, RefName.isUnder RefName.tags ref.name.text = true := fun ref href =>
      (Repository.mem_refNames.mp (horder.mem_iff.mp ((Repository.mem_entries hentries).mp href).1)).1
    obtain ⟨hrefs, hdated⟩ := (sound.tagEntries_eq_ok_iff hunder).mp htags
    exact listsTags_sortBy horder hentries hrefs hdated
  unfold listTagsInOrder
  simp only [except_bind_eq_ok_iff, pure, Except.pure, Except.ok.injEq]
  constructor
  · rintro ⟨refs, hentries, entries, htags, rfl⟩
    exact ⟨_, hanswer refs entries hentries htags, rfl⟩
  · rintro ⟨all, lists, rfl⟩
    obtain ⟨refs, hentries, hdated⟩ := exists_entries_of_listsTags horder lists
    obtain ⟨entries, htags⟩ := sound.exists_tagEntries fun ref href => (hdated ref href).2
    exact ⟨refs, hentries, entries, htags, by rw [(hanswer refs entries hentries htags).unique lists]⟩

end Order

end TimeMemo

namespace Timekeeper

/-- A keeper that some questions, listings and changes have brought about. -/
def Reachable (keeper : Timekeeper) : Prop :=
  ∃ repo events, (∀ event ∈ events, event.IsFaithful) ∧ (opened repo).run events = keeper

/-- What a listing with a limit is answered. -/
structure Listing (keeper : Timekeeper) (limit : Option Nat) : Prop where
  /-- It is the listing of the repository up to the limit. -/
  listed : ∀ tags, (keeper.memo.listTags keeper.repo limit).1 = .ok tags ↔
    ∃ all, keeper.repo.ListsTags all ∧ tags = (limit.map all.take).getD all
  /-- The order in which the store gives the refs makes no difference. -/
  anyOrder : ∀ names tags, names.Perm (keeper.repo.refNames RefName.tags) →
    (keeper.memo.listTagsInOrder keeper.repo names limit = .ok tags ↔
      (keeper.memo.listTags keeper.repo limit).1 = .ok tags)
  /-- What is remembered makes none either, not even to a fault. -/
  fresh : (keeper.memo.listTags keeper.repo limit).1 = (TimeMemo.empty.listTags keeper.repo limit).1

variable {keeper : Timekeeper}

theorem Reachable.sound (reachable : keeper.Reachable) : keeper.memo.Sound keeper.repo := by
  obtain ⟨repo, events, faithful, rfl⟩ := reachable
  exact (derived_run TimeMemo.derived_empty faithful).sound

/-- Whatever was asked before, the tags are listed newest first, each once and none left out. -/
theorem Reachable.listing (reachable : keeper.Reachable) (limit : Option Nat) : keeper.Listing limit := by
  have sound := reachable.sound
  have listed (tags : List TagEntry) : (keeper.memo.listTags keeper.repo limit).1 = .ok tags ↔
      ∃ all, keeper.repo.ListsTags all ∧ tags = (limit.map all.take).getD all := by
    rw [TimeMemo.listTags_eq_inOrder]
    exact sound.listTagsInOrder_eq_ok_iff (List.Perm.refl _)
  refine ⟨listed, fun names tags horder => ?_, ?_⟩
  · rw [listed]
    exact sound.listTagsInOrder_eq_ok_iff horder
  · exact sound.listTags_eq (Repository.Grows.refl _) TimeMemo.derived_empty.sound

open Repository (firstChange secondChange)

/-- Refs at a dated tag, by name and through another ref, at a tag of it without a tagger, and at a tree. -/
def releases : Repository where
  scope := "/srv/git/releases"
  objects := [(secondChange, .readable (.tag ⟨firstChange, none⟩)),
    (firstChange, .readable (.tag ⟨.emptyTree, some 7⟩))]
  refs := [("refs/tags/v1", .id firstChange), ("refs/tags/tree", .id .emptyTree),
    ("refs/tags/rc/v1", .id secondChange), ("refs/tags/last", .symbolic "refs/tags/v1"),
    ("refs/heads/v2", .id firstChange)]
  folders := []

theorem Reachable.listing_releases :
    ∃ keeper, (opened releases).run [.ask secondChange, .list (some 1)] = keeper ∧ keeper.Reachable ∧
      keeper.Listing none ∧ keeper.Listing (some 3) ∧
      ((keeper.memo.listTags keeper.repo none).1.map (List.map TagEntry.name) = .ok ["last", "rc/v1", "v1", "tree"] ∧
        (keeper.memo.listTags keeper.repo (some 3)).1.map (List.map TagEntry.name) =
          .ok ["last", "rc/v1", "v1"]) := by
  have reachable : Reachable ((opened releases).run [.ask secondChange, .list (some 1)]) :=
    ⟨releases, _, by simp [TimeEvent.IsFaithful], rfl⟩
  exact ⟨_, rfl, reachable, reachable.listing none, reachable.listing (some 3), by decide +kernel⟩

end Timekeeper

end GuardedRevision
