import GuardedRevision.Proofs.Outcome
import GuardedRevision.Proofs.RefFolders
import GuardedRevision.Settings

/-!
# Loading settings

Loading fails with the first failure in a fixed order: both files are read, the global one first, before
either is judged. If nothing fails, each value is taken by itself, from the file of the repository if it is
set there, else from the global one, else it is the default.
-/

namespace GuardedRevision

namespace FileSettings

variable {file : FileSettings} {space : String} {problem : SettingsProblem}

/-! ### Values that a file may set -/

def neededSpaces : List String := ["refs/", "refs/heads/", "refs/tags/"]

/-- A namespace has the shape of a directory below `refs/`. -/
structure Shaped (space : String) : Prop where
  below : ∃ rest, space = "refs/" ++ rest
  folder : ∃ front, space = front ++ "/"

structure Excludable (space : String) : Prop extends Shaped space where
  spare : space ∉ neededSpaces

inductive Faulty (space : String) : SettingsProblem → Prop where
  | shape (unshaped : ¬ Shaped space) : Faulty space (.shape space)
  | needed (shaped : Shaped space) (needed : space ∈ neededSpaces) : Faulty space (.needed space)

def spaces (file : FileSettings) : List String := file.excluded.getD []

structure Sound (file : FileSettings) : Prop where
  excludable : ∀ space ∈ file.spaces, Excludable space
  page : file.pageSize ≠ some 0

/-- The first value of a file that may not be set: the page size comes after the namespaces. -/
inductive Offends (file : FileSettings) : SettingsProblem → Prop where
  | space {space : String} {before after : List String} {problem : SettingsProblem}
      (listed : file.spaces = before ++ space :: after) (faulty : Faulty space problem)
      (fine : ∀ earlier ∈ before, Excludable earlier) : Offends file problem
  | page (fine : ∀ space ∈ file.spaces, Excludable space) (empty : file.pageSize = some 0) :
      Offends file .emptyPage

theorem endsInSlash_iff : space.toList.getLast? = some '/' ↔ ∃ front, space = front ++ "/" := by
  rw [List.getLast?_eq_some_iff]
  constructor
  · rintro ⟨front, heq⟩
    refine ⟨String.ofList front, ?_⟩
    rw [← String.toList_inj, heq]
    simp
  · rintro ⟨front, rfl⟩
    exact ⟨front.toList, by simp⟩

theorem shaped_iff :
    Shaped space ↔ (!RefName.isUnder "refs/" space || space.toList.getLast? != some '/') = false := by
  simp only [Bool.or_eq_false_iff, Bool.not_eq_false', bne_eq_false_iff_eq, RefName.isUnder_iff, endsInSlash_iff]
  exact ⟨fun shaped => ⟨shaped.below, shaped.folder⟩, fun ⟨below, folder⟩ => ⟨below, folder⟩⟩

theorem mem_neededSpaces_iff :
    space ∈ neededSpaces ↔ (space == "refs/" || space == RefName.heads || space == RefName.tags) = true := by
  simp [neededSpaces, RefName.heads, RefName.tags, or_assoc]

theorem namespaceProblem?_eq_some_iff : namespaceProblem? space = some problem ↔ Faulty space problem := by
  unfold namespaceProblem?
  constructor
  · intro hproblem
    split at hproblem
    · next hshape =>
        cases hproblem
        exact .shape fun shaped => by simp [shaped_iff.mp shaped] at hshape
    · next hshape =>
        obtain ⟨hneeded, heq⟩ := Option.ite_none_right_eq_some.mp hproblem
        cases heq
        exact .needed (shaped_iff.mpr (Bool.not_eq_true _ ▸ hshape)) (mem_neededSpaces_iff.mpr hneeded)
  · intro faulty
    cases faulty with
    | shape unshaped =>
        rw [shaped_iff, Bool.not_eq_false] at unshaped
        rw [if_pos unshaped]
    | needed shaped hneeded =>
        rw [shaped_iff] at shaped
        rw [if_neg (by simp [shaped]), if_pos (mem_neededSpaces_iff.mp hneeded)]

theorem excludable_iff : Excludable space ↔ ∀ problem, ¬ Faulty space problem := by
  constructor
  · rintro ⟨shaped, spare⟩ problem faulty
    cases faulty with
    | shape unshaped => exact unshaped shaped
    | needed _ hneeded => exact spare hneeded
  · intro hnone
    have shaped : Shaped space := by
      by_contra unshaped
      exact hnone _ (.shape unshaped)
    exact ⟨shaped, fun hneeded => hnone _ (.needed shaped hneeded)⟩

theorem namespaceProblem?_eq_none_iff : namespaceProblem? space = none ↔ Excludable space := by
  simp only [excludable_iff, ← namespaceProblem?_eq_some_iff, Option.eq_none_iff_forall_ne_some, ne_eq]

theorem problem?_eq_some_iff : file.problem? = some problem ↔ Offends file problem := by
  unfold problem?
  constructor
  · intro hproblem
    split at hproblem
    · next found hfound =>
        cases hproblem
        obtain ⟨before, space, after, hlisted, hfaulty, hfine⟩ := List.findSome?_eq_some_iff.mp hfound
        exact .space hlisted (namespaceProblem?_eq_some_iff.mp hfaulty)
          fun earlier hmem => namespaceProblem?_eq_none_iff.mp (hfine earlier hmem)
    · next hnone =>
        obtain ⟨hpage, heq⟩ := Option.ite_none_right_eq_some.mp hproblem
        cases heq
        exact .page (fun space hmem => namespaceProblem?_eq_none_iff.mp (List.findSome?_eq_none_iff.mp hnone space hmem))
          hpage
  · intro offends
    cases offends with
    | @space space before after _ listed faulty fine =>
        have hfound : file.spaces.findSome? namespaceProblem? = some problem :=
          List.findSome?_eq_some_iff.mpr ⟨before, space, after, listed, namespaceProblem?_eq_some_iff.mpr faulty,
            fun earlier hmem => namespaceProblem?_eq_none_iff.mpr (fine earlier hmem)⟩
        rw [← spaces, hfound]
    | page fine empty =>
        have hnone : file.spaces.findSome? namespaceProblem? = none :=
          List.findSome?_eq_none_iff.mpr fun space hmem => namespaceProblem?_eq_none_iff.mpr (fine space hmem)
        rw [← spaces, hnone]
        exact if_pos empty

theorem problem?_eq_none_iff : file.problem? = none ↔ file.Sound := by
  unfold problem?
  split
  · next problem hfound =>
      obtain ⟨before, space, after, hlisted, hfaulty, _⟩ := List.findSome?_eq_some_iff.mp hfound
      constructor
      · exact fun hnone => nomatch hnone
      · intro sound
        have excludable := sound.excludable space (by rw [spaces, hlisted]; simp)
        exact absurd (namespaceProblem?_eq_some_iff.mp hfaulty) (excludable_iff.mp excludable problem)
  · next hnone =>
      have fine : ∀ space ∈ file.spaces, Excludable space := fun space hmem =>
        namespaceProblem?_eq_none_iff.mp (List.findSome?_eq_none_iff.mp hnone space hmem)
      rw [ite_eq_right_iff]
      constructor
      · exact fun hpage => ⟨fine, fun empty => nomatch hpage empty⟩
      · exact fun sound empty => absurd empty sound.page

/-! ### Keys -/

/-- What stands under a key of a section that is written as a table. -/
def itemAt? (entries : Toml.Entries) (part key : String) : Option Toml.Item :=
  ((entries.lookup part).bind Toml.Item.entries?).bind fun inner => inner.lookup key

/-- A value is set exactly when something stands under its key, and it is what that reads as. -/
def Sets {α : Type} (read : Toml.Item → Option α) (item : Option Toml.Item) (value : Option α) : Prop :=
  value = item.bind read ∧ (value.isSome ↔ item.isSome)

theorem sets_of_value? {α : Type} {read : Toml.Item → Option α} {entries : Toml.Entries} {key : String}
    {value : Option α} (hvalue : value? read entries key = some value) :
    Sets read (entries.lookup key) value := by
  unfold value? at hvalue
  split at hvalue
  · next hlookup =>
      cases hvalue
      simp [Sets, hlookup]
  · next item hlookup =>
      obtain ⟨found, hread, rfl⟩ := Option.map_eq_some_iff.mp hvalue
      simp [Sets, hlookup, hread]

/-- Every section that is there is written as a table. -/
def HasTables (entries : Toml.Entries) : Prop :=
  ∀ part item, entries.lookup part = some item → ∃ origin inner, item = .table origin inner

theorem lookup_of_nested? {entries inner : Toml.Entries} {keys : List String} {part : String}
    (tables : HasTables entries) (hnested : nested? keys entries part = some inner) (key : String) :
    inner.lookup key = itemAt? entries part key := by
  unfold nested? value? at hnested
  unfold itemAt?
  cases hlookup : entries.lookup part with
  | none =>
      rw [hlookup] at hnested
      cases hnested
      rfl
  | some item =>
      obtain ⟨origin, found, rfl⟩ := tables part item hlookup
      simp only [hlookup, sectionEntries?] at hnested
      split at hnested
      · cases hnested
        rfl
      · cases hnested

/-- A file sets what stands under its keys and nothing else. -/
structure SetsKeys (file : FileSettings) (entries : Toml.Entries) : Prop where
  excluded : Sets Toml.Item.strings? (itemAt? entries "visibility" "excluded_namespaces") file.excluded
  capacity : Sets count? (itemAt? entries "visibility" "negative_cache_entries") file.capacity
  pageSize : Sets count? (itemAt? entries "log" "page_size") file.pageSize

theorem setsKeys_of_ofEntries? {entries : Toml.Entries} (tables : HasTables entries)
    (hfile : ofEntries? entries = some file) : file.SetsKeys entries := by
  unfold ofEntries? at hfile
  simp only [Option.bind_eq_bind, Option.bind_eq_some_iff] at hfile
  obtain ⟨sections, hsections, visibility, hvisibility, log, hlog, excluded, hexcluded, capacity, hcapacity,
    pageSize, hpageSize, hreturn⟩ := hfile
  obtain ⟨_, hsame⟩ := Option.ite_none_right_eq_some.mp hsections
  cases hsame
  cases hreturn
  refine ⟨?_, ?_, ?_⟩
  · rw [← lookup_of_nested? tables hvisibility]
    exact sets_of_value? hexcluded
  · rw [← lookup_of_nested? tables hvisibility]
    exact sets_of_value? hcapacity
  · rw [← lookup_of_nested? tables hlog]
    exact sets_of_value? hpageSize

end FileSettings

/-! ### Reading -/

namespace Settings

open FileSettings (Offends Sound Excludable)

variable {files : FileView} {path globalPath gitDirectory : Option String} {file : FileSettings}
  {error : SettingsError} {settings : Settings}

/-- What is read where a file may be named: nothing is set if none is. -/
inductive Reads (files : FileView) : Option String → FileSettings → Prop where
  | unnamed : Reads files none .empty
  | file {path text : String} {bytes : ByteArray} {file : FileSettings} (there : files path = some bytes)
      (utf8 : String.fromUTF8? bytes = some text) (parses : FileSettings.read? text = some file) :
      Reads files (some path) file

inductive ReadFails (files : FileView) : Option String → SettingsError → Prop where
  | unreadable {path : String} (textless : ∀ bytes, files path = some bytes → String.fromUTF8? bytes = none) :
      ReadFails files (some path) (.unreadable path)
  | unparsable {path text : String} {bytes : ByteArray} (there : files path = some bytes)
      (utf8 : String.fromUTF8? bytes = some text) (refused : FileSettings.read? text = none) :
      ReadFails files (some path) (.unparsable path)

theorem readOptional_eq_ok_iff : readOptional files path = .ok file ↔ Reads files path file := by
  constructor
  · intro hread
    cases path with
    | none =>
        cases hread
        exact .unnamed
    | some path =>
        rw [readOptional, readFile] at hread
        split at hread
        · cases hread
        · next text htext =>
            obtain ⟨bytes, there, utf8⟩ := Option.bind_eq_some_iff.mp htext
            split at hread
            · cases hread
            · next found parses =>
                cases hread
                exact .file there utf8 parses
  · intro reads
    cases reads with
    | unnamed => rfl
    | file there utf8 parses => simp only [readOptional, readFile, there, Option.bind_some, utf8, parses]

theorem readOptional_eq_error_iff : readOptional files path = .error error ↔ ReadFails files path error := by
  constructor
  · intro hread
    cases path with
    | none => cases hread
    | some path =>
        rw [readOptional, readFile] at hread
        split at hread
        · next htext =>
            cases hread
            exact .unreadable (Option.bind_eq_none_iff.mp htext)
        · next text htext =>
            obtain ⟨bytes, there, utf8⟩ := Option.bind_eq_some_iff.mp htext
            split at hread
            · next refused =>
                cases hread
                exact .unparsable there utf8 refused
            · cases hread
  · intro fails
    cases fails with
    | unreadable textless =>
        have htext := Option.bind_eq_none_iff.mpr textless
        simp only [readOptional, readFile, htext]
    | unparsable there utf8 refused => simp only [readOptional, readFile, there, Option.bind_some, utf8, refused]

theorem validate_eq_ok_iff {done : Unit} : validate file = .ok done ↔ file.Sound := by
  rw [validate, ← FileSettings.problem?_eq_none_iff]
  cases file.problem? <;> simp

theorem validate_eq_error_iff :
    validate file = .error error ↔ ∃ problem, Offends file problem ∧ error = .invalid problem := by
  simp only [validate, ← FileSettings.problem?_eq_some_iff]
  cases file.problem? with
  | none => simp
  | some problem => simp [eq_comm]

/-! ### Loading -/

def repoPath? (files : FileView) (gitDirectory : Option String) : Option String :=
  (gitDirectory.map repoFile).filter files.has

/-- The first failure: reading comes before judging, and the global file before that of the repository. -/
inductive FailsFirst (files : FileView) (globalPath gitDirectory : Option String) : SettingsError → Prop where
  | readGlobal {error : SettingsError} (fails : ReadFails files globalPath error) :
      FailsFirst files globalPath gitDirectory error
  | readRepo {global : FileSettings} {error : SettingsError} (reads : Reads files globalPath global)
      (fails : ReadFails files (repoPath? files gitDirectory) error) :
      FailsFirst files globalPath gitDirectory error
  | global {global repo : FileSettings} {problem : SettingsProblem} (reads : Reads files globalPath global)
      (readsRepo : Reads files (repoPath? files gitDirectory) repo) (offends : Offends global problem) :
      FailsFirst files globalPath gitDirectory (.invalid problem)
  | repo {global repo : FileSettings} {problem : SettingsProblem} (reads : Reads files globalPath global)
      (readsRepo : Reads files (repoPath? files gitDirectory) repo) (sound : global.Sound)
      (offends : Offends repo problem) : FailsFirst files globalPath gitDirectory (.invalid problem)

/-- `Takes own shared default value`: the value is the repository's own if it is set, else the shared one,
else the default. -/
inductive Takes {α : Type} : Option α → Option α → α → α → Prop where
  | own {shared : Option α} {default value : α} : Takes (some value) shared default value
  | shared {default value : α} : Takes none (some value) default value
  | default {value : α} : Takes none none value value

theorem Takes.holds {α : Type} {own shared : Option α} {default value : α} {property : α → Prop}
    (takes : Takes own shared default value) (hown : ∀ set, own = some set → property set)
    (hshared : ∀ set, shared = some set → property set) (hdefault : property default) : property value := by
  cases takes with
  | own => exact hown value rfl
  | shared => exact hshared value rfl
  | default => exact hdefault

theorem takes_getD {α : Type} (own shared : Option α) (default : α) :
    Takes own shared default ((own <|> shared).getD default) := by
  cases own with
  | some value => exact .own
  | none =>
      cases shared with
      | some value => exact .shared
      | none => exact .default

/-- The repository has no file of its own, and there is one in its directory where none is looked for. -/
def Misplaced (files : FileView) (gitDirectory : Option String) (directory : String) : Prop :=
  gitDirectory = some directory ∧ files.has (repoFile directory) = false ∧
    files.has (misplacedFile directory) = true

def misplacedWarning (directory : String) : SettingsWarning :=
  ⟨"Ignoring config file. Please move it to '" ++ repoFile directory ++ "'", misplacedFile directory⟩

/-- There is a warning exactly when a file is in the wrong place, and no second one. -/
structure Warned (files : FileView) (gitDirectory : Option String) (warnings : List SettingsWarning) : Prop where
  one_iff : warnings.length = 1 ↔ ∃ directory, Misplaced files gitDirectory directory
  once : warnings.length ≤ 1
  warning : ∀ warning ∈ warnings, ∃ directory, Misplaced files gitDirectory directory ∧
    warning = misplacedWarning directory

theorem Warned.of_misplaced {directory : String} (misplaced : Misplaced files gitDirectory directory) :
    Warned files gitDirectory [misplacedWarning directory] where
  one_iff := iff_of_true rfl ⟨directory, misplaced⟩
  once := Nat.le_refl 1
  warning := List.forall_mem_singleton.mpr ⟨directory, misplaced, rfl⟩

theorem Warned.of_placed (hplaced : ∀ directory, ¬ Misplaced files gitDirectory directory) :
    Warned files gitDirectory [] where
  one_iff := iff_of_false (by decide) fun ⟨directory, misplaced⟩ => hplaced directory misplaced
  once := Nat.zero_le 1
  warning := List.forall_mem_nil _

theorem warned (files : FileView) (gitDirectory : Option String) :
    Warned files gitDirectory ((gitDirectory.map (warningsFor files)).getD []) := by
  cases gitDirectory with
  | none => exact .of_placed fun directory misplaced => nomatch misplaced.1
  | some directory =>
      rw [Option.map_some, Option.getD_some, warningsFor]
      split
      · next hplaces =>
          rw [Bool.and_eq_true, Bool.not_eq_true'] at hplaces
          exact .of_misplaced ⟨rfl, hplaces⟩
      · next hplaces =>
          rw [Bool.and_eq_true, Bool.not_eq_true'] at hplaces
          refine .of_placed ?_
          rintro other ⟨hsame, hmisplaced⟩
          cases hsame
          exact hplaces hmisplaced

def document? (files : FileView) (path : String) : Option Toml.Entries :=
  ((files path).bind fun bytes => String.fromUTF8? bytes).bind Toml.read?

/-- What is set was read from the keys that the document in the file has. -/
def KeysCount (files : FileView) (path : Option String) (file : FileSettings) : Prop :=
  ∀ entries, path.bind (document? files) = some entries → FileSettings.HasTables entries → file.SetsKeys entries

theorem Reads.keysCount (reads : Reads files path file) : KeysCount files path file := by
  intro entries hdocument tables
  cases reads with
  | unnamed => cases hdocument
  | file there utf8 parses =>
      simp only [Option.bind_some, document?, there, utf8] at hdocument
      rw [FileSettings.read?, hdocument] at parses
      exact FileSettings.setsKeys_of_ofEntries? tables parses

/-- What settings hold that were loaded. -/
structure Loaded (files : FileView) (globalPath gitDirectory : Option String) (settings : Settings) : Prop where
  global : Reads files globalPath settings.global
  repo : Reads files (repoPath? files gitDirectory) settings.repo
  globalKeys : KeysCount files globalPath settings.global
  repoKeys : KeysCount files (repoPath? files gitDirectory) settings.repo
  excluded : Takes settings.repo.excluded settings.global.excluded defaultExcluded settings.excluded
  capacity : Takes settings.repo.capacity settings.global.capacity defaultCapacity settings.capacity
  pageSize : Takes settings.repo.pageSize settings.global.pageSize defaultPageSize settings.pageSize
  page_pos : 1 ≤ settings.pageSize
  excludable : ∀ space ∈ settings.excluded, Excludable space
  warned : Warned files gitDirectory settings.warnings
  globalPath : settings.globalPath = globalPath
  repoPath : settings.repoPath = repoPath? files gitDirectory

theorem load_eq : load files globalPath gitDirectory = do
    let global ← readOptional files globalPath
    let repo ← readOptional files (repoPath? files gitDirectory)
    validate global
    validate repo
    return ⟨global, repo, globalPath, repoPath? files gitDirectory,
      (gitDirectory.map (warningsFor files)).getD []⟩ := rfl

theorem load_eq_ok_iff : load files globalPath gitDirectory = .ok settings ↔
    (Reads files globalPath settings.global ∧ Reads files (repoPath? files gitDirectory) settings.repo) ∧
      (settings.global.Sound ∧ settings.repo.Sound) ∧ settings.globalPath = globalPath ∧
        settings.repoPath = repoPath? files gitDirectory ∧
          settings.warnings = (gitDirectory.map (warningsFor files)).getD [] := by
  rw [load_eq]
  simp only [except_bind_eq_ok_iff, readOptional_eq_ok_iff, validate_eq_ok_iff]
  constructor
  · rintro ⟨global, reads, repo, readsRepo, _, sound, _, soundRepo, hsettings⟩
    cases hsettings
    exact ⟨⟨reads, readsRepo⟩, ⟨sound, soundRepo⟩, rfl, rfl, rfl⟩
  · rintro ⟨⟨reads, readsRepo⟩, ⟨sound, soundRepo⟩, hglobal, hrepo, hwarnings⟩
    refine ⟨_, reads, _, readsRepo, (), sound, (), soundRepo, ?_⟩
    rw [← hglobal, ← hrepo, ← hwarnings]
    rfl

theorem load_eq_error_iff :
    load files globalPath gitDirectory = .error error ↔ FailsFirst files globalPath gitDirectory error := by
  rw [load_eq]
  simp only [except_bind_eq_error_iff, readOptional_eq_ok_iff, readOptional_eq_error_iff, validate_eq_ok_iff,
    validate_eq_error_iff]
  constructor
  · rintro (fails | ⟨global, reads, fails | ⟨repo, readsRepo, ⟨problem, offends, rfl⟩ |
      ⟨_, sound, ⟨problem, offends, rfl⟩ | ⟨_, _, hreturn⟩⟩⟩⟩)
    · exact .readGlobal fails
    · exact .readRepo reads fails
    · exact .global reads readsRepo offends
    · exact .repo reads readsRepo sound offends
    · cases hreturn
  · intro fails
    cases fails with
    | readGlobal fails => exact .inl fails
    | readRepo reads fails => exact .inr ⟨_, reads, .inl fails⟩
    | global reads readsRepo offends => exact .inr ⟨_, reads, .inr ⟨_, readsRepo, .inl ⟨_, offends, rfl⟩⟩⟩
    | repo reads readsRepo sound offends =>
        exact .inr ⟨_, reads, .inr ⟨_, readsRepo, .inr ⟨(), sound, .inl ⟨_, offends, rfl⟩⟩⟩⟩

/-- Settings are loaded unless something fails. -/
theorem exists_load_iff : (∃ settings, load files globalPath gitDirectory = .ok settings) ↔
    ∀ error, ¬ FailsFirst files globalPath gitDirectory error := by
  simp only [← load_eq_error_iff]
  cases load files globalPath gitDirectory <;> simp

theorem excludable_of_mem_defaultExcluded : ∀ space ∈ defaultExcluded, Excludable space := by
  rw [defaultExcluded, List.forall_mem_singleton]
  exact ⟨⟨⟨"changes/", by decide⟩, ⟨"refs/changes", by decide⟩⟩, by decide⟩

theorem loaded_of_load (hload : load files globalPath gitDirectory = .ok settings) :
    Loaded files globalPath gitDirectory settings := by
  obtain ⟨⟨reads, readsRepo⟩, ⟨sound, soundRepo⟩, hglobal, hrepo, hwarnings⟩ := load_eq_ok_iff.mp hload
  have takesSpaces := takes_getD settings.repo.excluded settings.global.excluded defaultExcluded
  have takesPage := takes_getD settings.repo.pageSize settings.global.pageSize defaultPageSize
  have hspaces : ∀ {file : FileSettings}, file.Sound → ∀ spaces, file.excluded = some spaces →
      ∀ space ∈ spaces, Excludable space := by
    intro file sound spaces hset space hmem
    exact sound.excludable space (by rwa [FileSettings.spaces, hset])
  have hpages : ∀ {file : FileSettings}, file.Sound → ∀ size, file.pageSize = some size → 1 ≤ size := by
    intro file sound size hset
    refine Nat.one_le_iff_ne_zero.mpr ?_
    rintro rfl
    exact sound.page hset
  exact
    { global := reads
      repo := readsRepo
      globalKeys := reads.keysCount
      repoKeys := readsRepo.keysCount
      excluded := takesSpaces
      capacity := takes_getD _ _ _
      pageSize := takesPage
      page_pos := takesPage.holds (hpages soundRepo) (hpages sound) (by decide)
      excludable := takesSpaces.holds (hspaces soundRepo) (hspaces sound) excludable_of_mem_defaultExcluded
      warned := hwarnings ▸ warned files gitDirectory
      globalPath := hglobal
      repoPath := hrepo }

/-- Loading fails with the first failure and with no other error, it succeeds where nothing fails, and then
every value is taken from the first place where it is set. -/
theorem load_decides (files : FileView) (globalPath gitDirectory : Option String) :
    (∀ error, load files globalPath gitDirectory = .error error ↔
      FailsFirst files globalPath gitDirectory error) ∧
    ((∃ settings, load files globalPath gitDirectory = .ok settings) ↔
      ∀ error, ¬ FailsFirst files globalPath gitDirectory error) ∧
    ∀ settings, load files globalPath gitDirectory = .ok settings →
      Loaded files globalPath gitDirectory settings :=
  ⟨fun _ => load_eq_error_iff, exists_load_iff, fun _ => loaded_of_load⟩

/-- A global file with this page size, and a file of the repository that sets other keys of both sections. -/
def twoFiles (pageSize : String) : FileView := fun path =>
  if path = "/etc/revgate.toml" then
    some ("[visibility]\nexcluded_namespaces = ['refs/heads/wip/']\n[log]\npage_size = " ++ pageSize).toUTF8
  else if path = "/srv/git/revgate/config.toml" then
    some "[visibility]\nnegative_cache_entries = 7\n[log]\npage_size = 5\n".toUTF8
  else none

/-- The section on visibility in the one file does not hide the key that only the other one sets. A page size
of zero is refused, though it would not be taken. -/
theorem load_decides_twoFiles :
    (∃ settings, load (twoFiles "30") (some "/etc/revgate.toml") (some "/srv/git") = .ok settings ∧
      settings.excluded = ["refs/heads/wip/"] ∧ settings.capacity = 7 ∧ settings.pageSize = 5 ∧
      Loaded (twoFiles "30") (some "/etc/revgate.toml") (some "/srv/git") settings) ∧
    FailsFirst (twoFiles "0") (some "/etc/revgate.toml") (some "/srv/git") (.invalid .emptyPage) := by
  have hload : load (twoFiles "30") (some "/etc/revgate.toml") (some "/srv/git") =
      .ok ⟨⟨some ["refs/heads/wip/"], none, some 30⟩, ⟨none, some 7, some 5⟩, some "/etc/revgate.toml",
        some "/srv/git/revgate/config.toml", []⟩ := by
    decide +kernel
  have hfails : load (twoFiles "0") (some "/etc/revgate.toml") (some "/srv/git") =
      .error (.invalid .emptyPage) := by
    decide +kernel
  obtain ⟨_, _, hloaded⟩ := load_decides (twoFiles "30") (some "/etc/revgate.toml") (some "/srv/git")
  obtain ⟨hfirst, _, _⟩ := load_decides (twoFiles "0") (some "/etc/revgate.toml") (some "/srv/git")
  exact ⟨⟨_, hload, rfl, rfl, rfl, hloaded _ hload⟩, (hfirst _).mp hfails⟩

end Settings

end GuardedRevision
