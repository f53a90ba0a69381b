import GuardedRevision.Proofs.FoundRefs
import GuardedRevision.Proofs.LoadedSettings
import GuardedRevision.Proofs.PlainDigits
import GuardedRevision.Proofs.UniqueDigits

/-!
# Ordinary branches and tags

A namespace that settings may exclude is a folder, and none of those that branches and tags lie in. So no
settings can hide the history of a branch or a tag that lies in no folder of its own.
-/

namespace GuardedRevision

namespace RefName

variable {name : RefName} {space short : String} {folder rest : List Char}

/-- A branch or a tag that lies in no folder of its own. -/
def IsOrdinary (name : RefName) : Prop :=
  ∃ short : String, '/' ∉ short.toList ∧ (name.text = heads ++ short ∨ name.text = tags ++ short)

/-- The name lies in none of the namespaces. -/
def IsOutside (spaces : List String) (name : RefName) : Prop :=
  ∀ space ∈ spaces, isUnder space name.text = false

theorem prefix_folder {lead : List Char} (hlead : lead <+: folder ++ rest) (hslash : lead.getLast? = some '/')
    (hflat : '/' ∉ rest) : lead <+: folder := by
  rcases List.prefix_or_prefix_of_prefix hlead (List.prefix_append folder rest) with hshort | ⟨later, rfl⟩
  · exact hshort
  · -- A slash after the folder would be one of the rest.
    have hlater : later <+: rest := (List.prefix_append_right_inj folder).mp hlead
    cases later using List.reverseRecOn with
    | nil => rw [List.append_nil]
    | append_singleton front c =>
        rw [← List.append_assoc, List.getLast?_concat, Option.some.injEq] at hslash
        exact absurd (hlater.subset (by simp [hslash])) hflat

/-- Only folders that have to stay browsable are on the way to a branch or a tag. -/
theorem mem_neededSpaces_of_prefix (hfolder : folder = heads.toList ∨ folder = tags.toList)
    (shaped : FileSettings.Shaped space) (hlead : space.toList <+: folder) :
    space ∈ FileSettings.neededSpaces := by
  have hslash : space.toList.getLast? = some '/' := FileSettings.endsInSlash_iff.mpr shaped.folder
  have hunder : "refs/".toList.isPrefixOf space.toList = true := isUnder_iff.mpr shaped.below
  have hmem : space.toList ∈ folder.inits := (List.mem_inits _ _).mpr hlead
  have hheads : ∀ lead ∈ heads.toList.inits, lead.getLast? = some '/' → "refs/".toList.isPrefixOf lead = true →
      String.ofList lead ∈ FileSettings.neededSpaces := by decide
  have htags : ∀ lead ∈ tags.toList.inits, lead.getLast? = some '/' → "refs/".toList.isPrefixOf lead = true →
      String.ofList lead ∈ FileSettings.neededSpaces := by decide
  rw [← String.ofList_toList (s := space)]
  rcases hfolder with rfl | rfl
  · exact hheads _ hmem hslash hunder
  · exact htags _ hmem hslash hunder

theorem IsOrdinary.isUnder_eq_false (ordinary : name.IsOrdinary) (excludable : FileSettings.Excludable space) :
    isUnder space name.text = false := by
  obtain ⟨short, hflat, hname⟩ := ordinary
  have hslash : space.toList.getLast? = some '/' := FileSettings.endsInSlash_iff.mpr excludable.folder
  rw [Bool.eq_false_iff]
  intro hunder
  have hlead := List.isPrefixOf_iff_prefix.mp hunder
  apply excludable.spare
  rcases hname with heq | heq
  · rw [heq, String.toList_append] at hlead
    exact mem_neededSpaces_of_prefix (.inl rfl) excludable.toShaped (prefix_folder hlead hslash hflat)
  · rw [heq, String.toList_append] at hlead
    exact mem_neededSpaces_of_prefix (.inr rfl) excludable.toShaped (prefix_folder hlead hslash hflat)

theorem IsOrdinary.isOutside {spaces : List String} (ordinary : name.IsOrdinary)
    (excludable : ∀ space ∈ spaces, FileSettings.Excludable space) : name.IsOutside spaces :=
  fun space hmem => ordinary.isUnder_eq_false (excludable space hmem)

theorem IsOrdinary.isUnder_refFolder (ordinary : name.IsOrdinary) :
    isUnder Repository.refFolder name.text = true := by
  obtain ⟨short, _, hname | hname⟩ := ordinary
  · exact isUnder_iff.mpr ⟨"heads/" ++ short, by rw [hname, ← String.append_assoc]; rfl⟩
  · exact isUnder_iff.mpr ⟨"tags/" ++ short, by rw [hname, ← String.append_assoc]; rfl⟩

theorem isBrowsable_iff_isOutside {spaces : List String} :
    BrowsePolicy.isBrowsable ⟨spaces⟩ name = true ↔ name.IsOutside spaces := by
  simp [BrowsePolicy.isBrowsable, isUnderAny, IsOutside]

end RefName

namespace Repository

variable {policy : BrowsePolicy} {capacity : Nat} {repo : Repository} {name : RefName} {target commit : ObjectId}

/-- The commit is in the history that the ref of this name leads to. -/
def InHistoryOf (repo : Repository) (name : RefName) (commit : ObjectId) : Prop :=
  ∃ target tip, repo.Points name.text target ∧ repo.PeelsTo target tip ∧ repo.Reaches tip commit

/-- A listing passes over a ref that holds an id and cannot be looked for by its name. -/
def Listable (repo : Repository) (name : RefName) : Prop :=
  Seekable name ∨ ∃ next, repo.refs.lookup name.text = some (.symbolic next)

theorem listedTarget?_eq_some_iff_points (hunder : RefName.isUnder refFolder name.text = true) :
    repo.listedTarget? name.text = some target ↔ repo.Points name.text target ∧ repo.Listable name := by
  constructor
  · intro hlisted
    have points := points_of_listedTarget? hlisted
    refine ⟨points, ?_⟩
    obtain ⟨value, hlookup, _⟩ := points
    cases value with
    | id id => exact .inl (seekable_of_listedTarget? hunder hlookup hlisted)
    | symbolic next => exact .inr ⟨next, hlookup⟩
  · rintro ⟨points, seekable | ⟨next, hlookup⟩⟩
    · exact (seekable.listedTarget?_eq_some_iff hunder).mpr points
    · obtain ⟨value, hvalue, hfollow⟩ := points
      obtain rfl := Option.some.inj (hlookup.symm.trans hvalue)
      unfold listedTarget?
      simp only [hlookup, hfollow]

namespace Complete

variable (complete : repo.Complete)
include complete

theorem shows_of_inHistoryOf (hunder : RefName.isUnder refFolder name.text = true)
    (browsable : policy.isBrowsable name = true) (listable : repo.Listable name)
    (history : repo.InHistoryOf name commit) : policy.Shows capacity repo commit := by
  obtain ⟨target, tip, points, peels, path⟩ := history
  obtain ⟨refs, hlisted⟩ := complete.exists_listRefs
  obtain ⟨peeled, hpeeled⟩ := peels.exists_peelTag
  have hentry : (⟨name, target, peeled⟩ : RefEntry) ∈ refs :=
    (mem_listRefs_iff hlisted).mpr ⟨hunder, (listedTarget?_eq_some_iff_points hunder).mpr ⟨points, listable⟩, hpeeled⟩
  exact (complete.shows_iff hlisted).mpr (.ref hentry browsable peels path)

theorem resolve_text (shown : policy.Shows capacity repo commit) (hcommit : repo.isCommit commit = true)
    (htag : repo.findRef (RefName.tags ++ commit.text) = .ok none)
    (hbranch : repo.findRef (RefName.heads ++ commit.text) = .ok none) :
    ((repo.resolve commit.text).on (.empty policy capacity)).1 =
      .ok (some ⟨.ofCommit commit.text commit, none, ""⟩) := by
  obtain ⟨refs, hlisted⟩ := complete.exists_listRefs
  obtain ⟨hstored, _⟩ := List.mem_filter.mp (mem_commitIds.mpr hcommit)
  have hdigits := withDigits?_text hstored (holds_of_isCommit hcommit)
  have lead := ObjectId.isLead_iff.mp (ObjectId.isLead_text (isStorable_of_mem_ids hstored))
  have plain : repo.NoRef commit.text := ⟨(Bool.and_eq_true_iff.mp lead).1, htag, hbranch⟩
  exact (plain.resolve_iff complete hlisted VisibilityMemo.truthful_empty).mpr
    ⟨commit, _, hdigits, (complete.shows_iff hlisted).mp shown, revision_of_isCommit hcommit _, rfl⟩

end Complete

end Repository

/-- Settings that are accepted spare every ordinary branch and tag, and whatever lies in no namespace that they
exclude: it is browsable, its history is shown, and the commits of the history are resolved by their ids. -/
theorem Settings.spares_ordinary {files : FileView} {globalPath gitDirectory : Option String} {settings : Settings}
    (hload : Settings.load files globalPath gitDirectory = .ok settings) (capacity : Nat) :
    (∀ name : RefName, name.IsOrdinary ∨ name.IsOutside settings.excluded →
      BrowsePolicy.isBrowsable ⟨settings.excluded⟩ name = true) ∧
    ∀ {repo : Repository}, repo.Complete → ∀ {name : RefName} {commit : ObjectId},
      name.IsOrdinary ∨ name.IsOutside settings.excluded ∧ RefName.isUnder Repository.refFolder name.text = true →
      repo.Listable name → repo.InHistoryOf name commit →
      BrowsePolicy.Shows ⟨settings.excluded⟩ capacity repo commit ∧
        (repo.findRef (RefName.tags ++ commit.text) = .ok none →
          repo.findRef (RefName.heads ++ commit.text) = .ok none →
          ((repo.resolve commit.text).on (.empty ⟨settings.excluded⟩ capacity)).1 =
            .ok (some ⟨.ofCommit commit.text commit, none, ""⟩)) := by
  have loaded := Settings.loaded_of_load hload
  have hspared : ∀ name : RefName, name.IsOrdinary ∨ name.IsOutside settings.excluded →
      BrowsePolicy.isBrowsable ⟨settings.excluded⟩ name = true := by
    rintro name (ordinary | outside)
    · exact RefName.isBrowsable_iff_isOutside.mpr (ordinary.isOutside loaded.excludable)
    · exact RefName.isBrowsable_iff_isOutside.mpr outside
  refine ⟨hspared, fun {repo} complete {name commit} hplace listable history => ?_⟩
  have browsable := hspared name (hplace.imp_right And.left)
  have hunder : RefName.isUnder Repository.refFolder name.text = true := by
    rcases hplace with ordinary | ⟨_, hunder⟩
    · exact ordinary.isUnder_refFolder
    · exact hunder
  have shown : BrowsePolicy.Shows ⟨settings.excluded⟩ capacity repo commit :=
    complete.shows_of_inHistoryOf hunder browsable listable history
  obtain ⟨_, _, _, _, path⟩ := history
  exact ⟨shown, complete.resolve_text shown path.isCommit_right⟩

namespace Repository

def underName (text : String) : Repository :=
  { underReview with refs := [(text, .id secondChange)] }

def reviewedBranch : RefName := ⟨"refs/heads/reviewed", by decide⟩

def dottedBranch : RefName := ⟨"refs/heads/a.", by decide⟩

theorem inHistoryOf_underName (name : RefName) : (underName name.text).InHistoryOf name firstChange := by
  have hlookup : (underName name.text).refs.lookup name.text = some (.id secondChange) := List.lookup_cons_self
  have path : (underName name.text).Reaches secondChange firstChange :=
    .parent (List.mem_singleton_self firstChange) (.refl rfl)
  exact ⟨secondChange, secondChange, ⟨.id secondChange, hlookup, rfl⟩, .of_isCommit rfl, path⟩

end Repository

open Repository

theorem Settings.spares_ordinary_reviewedBranch :
    ∃ settings, Settings.load (Settings.twoFiles "30") (some "/etc/revgate.toml") (some "/srv/git") = .ok settings ∧
      settings.excluded = ["refs/heads/wip/"] ∧ (underName reviewedBranch.text).Complete ∧ reviewedBranch.IsOrdinary ∧
      (underName reviewedBranch.text).Listable reviewedBranch ∧
      (underName reviewedBranch.text).InHistoryOf reviewedBranch firstChange ∧
      BrowsePolicy.Shows ⟨settings.excluded⟩ 4 (underName reviewedBranch.text) firstChange ∧
      (((underName reviewedBranch.text).resolve firstChange.text).on (.empty ⟨settings.excluded⟩ 4)).1 =
        .ok (some ⟨.ofCommit firstChange.text firstChange, none, ""⟩) := by
  have hload : ∃ settings,
      Settings.load (Settings.twoFiles "30") (some "/etc/revgate.toml") (some "/srv/git") = .ok settings ∧
        settings.excluded = ["refs/heads/wip/"] :=
    ⟨⟨⟨some ["refs/heads/wip/"], none, some 30⟩, ⟨none, some 7, some 5⟩, some "/etc/revgate.toml",
      some "/srv/git/revgate/config.toml", []⟩, by decide +kernel, rfl⟩
  obtain ⟨settings, hload, hexcluded⟩ := hload
  have complete : (underName reviewedBranch.text).Complete :=
    complete_of_isRanked (by decide +kernel : (underName reviewedBranch.text).isRanked changeRank = true)
  have ordinary : reviewedBranch.IsOrdinary := ⟨"reviewed", by decide, .inl (by decide)⟩
  have listable : (underName reviewedBranch.text).Listable reviewedBranch := .inl ⟨by decide, by decide, by decide⟩
  have history := inHistoryOf_underName reviewedBranch
  obtain ⟨_, spared⟩ := Settings.spares_ordinary hload 4
  obtain ⟨shown, resolved⟩ := spared complete (.inl ordinary) listable history
  exact ⟨settings, hload, hexcluded, complete, ordinary, listable, history, shown,
    resolved (by decide +kernel) (by decide +kernel)⟩

/-- A search for a name that ends in a dot is refused. The listing passes over such a branch, and its history
stays hidden under the settings that hold by default. -/
theorem Settings.hides_dottedBranch :
    ∃ settings, Settings.load (fun _ => none) none none = .ok settings ∧
      (underName dottedBranch.text).Complete ∧ dottedBranch.IsOrdinary ∧
      BrowsePolicy.isBrowsable ⟨settings.excluded⟩ dottedBranch = true ∧
      (underName dottedBranch.text).InHistoryOf dottedBranch firstChange ∧
      ¬ BrowsePolicy.Shows ⟨settings.excluded⟩ 4 (underName dottedBranch.text) firstChange ∧
      (((underName dottedBranch.text).resolve firstChange.text).on (.empty ⟨settings.excluded⟩ 4)).1 =
        .ok none := by
  refine ⟨⟨.empty, .empty, none, none, []⟩, by decide +kernel, ?_, ⟨"a.", by decide, .inl (by decide)⟩,
    by decide +kernel, inHistoryOf_underName dottedBranch, ?_, by decide +kernel⟩
  · exact complete_of_isRanked (by decide +kernel : (underName dottedBranch.text).isRanked changeRank = true)
  · unfold BrowsePolicy.Shows
    decide +kernel

end GuardedRevision
