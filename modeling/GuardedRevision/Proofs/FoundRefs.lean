import GuardedRevision.Proofs.RefFolders

/-!
# Refs found by their names

A listing meets every ref, while the search for a name follows the path that the name spells. Both come to
the same entry, as long as the name is one that the search takes.
-/

namespace GuardedRevision

namespace RefName

variable {text component : List Char}

theorem infix_intercalate {mark : List Char} {parts : List (List Char)} (hmem : component ∈ parts) :
    component <:+: mark.intercalate parts := by
  induction parts with
  | nil => cases hmem
  | cons first rest ih =>
      cases rest with
      | nil =>
          obtain rfl := List.mem_singleton.mp hmem
          rw [List.intercalate_singleton]
      | cons next later =>
          rw [List.intercalate_cons_cons]
          rcases List.mem_cons.mp hmem with rfl | hrest
          · exact (List.prefix_append_of_prefix (List.prefix_append _ _)).isInfix
          · exact (ih hrest).trans (List.suffix_append _ _).isInfix

theorem infix_of_mem_splitOn (hmem : component ∈ text.splitOn '/') : component <:+: text := by
  have hinfix := @infix_intercalate component ['/'] _ hmem
  rwa [List.intercalate_splitOn] at hinfix

theorem isStorableComponent_of_mem (name : RefName) (hmem : component ∈ name.text.toList.splitOn '/') :
    isStorableComponent component = true := by
  obtain ⟨_, _, _, _, hdots, hreflog, _, hforbidden, hcontrol, hcomponents⟩ :=
    problem?_eq_none_iff.mp name.wellFormed
  have hinfix := infix_of_mem_splitOn hmem
  have hfree (mark : List Char) (hmark : mark ≠ []) (hname : Text.occursIn mark name.text.toList = false) :
      Text.occursIn mark component = false := by
    rw [← Bool.not_eq_true, Text.occursIn_iff hmark] at hname ⊢
    exact fun hin => hname (hin.trans hinfix)
  have hcharacters : component.all (fun c => c != ' ' && !isControl c && !forbidden.contains c) = true := by
    rw [List.all_eq_true]
    intro c hc
    have hc := hinfix.subset hc
    have hallowed : c ∉ forbidden := fun hin =>
      List.find?_eq_none.mp hforbidden c hin (List.contains_iff_mem.mpr hc)
    have hprinted := List.any_eq_false.mp hcontrol c hc
    have hspace : c ≠ ' ' := fun heq => hallowed (heq ▸ List.mem_cons_self)
    simp [hspace, hprinted, hallowed]
  rw [isStorableComponent, hcomponents component hmem, hfree _ (by simp) hdots, hfree _ (by simp) hreflog,
    hcharacters]
  rfl

theorem ofComponents_append {front back : List (List Char)} (hfront : front ≠ []) (hback : back ≠ []) :
    ofComponents (front ++ back) = ofComponents front ++ "/" ++ ofComponents back := by
  have hchars : ['/'].intercalate (front ++ back) = ['/'].intercalate front ++ '/' :: ['/'].intercalate back := by
    induction front with
    | nil => exact absurd rfl hfront
    | cons first rest ih =>
        cases rest with
        | nil =>
            obtain ⟨next, later, rfl⟩ := List.exists_cons_of_ne_nil hback
            simp [List.intercalate_cons_cons]
        | cons next later =>
            have hrest := ih (List.cons_ne_nil _ _)
            simp only [List.cons_append, List.intercalate_cons_cons] at hrest ⊢
            rw [hrest]
            simp
  unfold ofComponents
  rw [hchars, ← String.toList_inj]
  simp

/-- A ref below `refs/` is stored under its own name, unless the name ends in a dot. -/
theorem storeName?_eq (name : RefName) (hunder : isUnder Repository.refFolder name.text = true) :
    storeName? name.text = if name.text.toList.getLast? = some '.' then none else some name.text := by
  have hnil := nil_notMem_of_wellFormed name.wellFormed
  obtain ⟨_, hopening, hclosing, _⟩ := problem?_eq_none_iff.mp name.wellFormed
  obtain ⟨rest, hrest⟩ := isUnder_iff.mp hunder
  have hsplit : name.text.toList.splitOn '/' = "refs".toList :: rest.toList.splitOn '/' := by
    rw [hrest, String.toList_append]
    rfl
  have hcaret : withoutCaret name.text.toList = name.text.toList := by
    rw [hrest, String.toList_append]
    rfl
  have hshape : isStorableShape (name.text.toList.splitOn '/') = true := by
    obtain ⟨next, later, heq⟩ := List.exists_cons_of_ne_nil (List.splitOn_ne_nil '/' rest.toList)
    rw [hsplit, heq]
    rfl
  have hat : name.text ≠ "@" := by
    intro heq
    rw [heq] at hunder
    exact absurd hunder (by decide)
  have hcomponents : (name.text.toList.splitOn '/').all isStorableComponent = true :=
    List.all_eq_true.mpr fun component hmem => isStorableComponent_of_mem name hmem
  rw [storeName?, hcaret, String.ofList_toList, components_eq hnil, hcomponents, hshape, ofComponents_splitOn,
    if_neg hat]
  simp [hopening, hclosing]

end RefName

namespace Repository

variable {repo : Repository} {folder path : List (List Char)} {name : RefName} {value : RefTarget}
  {target : ObjectId} {refs : List RefEntry} {entry : RefEntry}

/-! ### The path of a ref -/

theorem isFolder_of_lookup (hfolder : folder ≠ []) (hpath : path ≠ [])
    (hlookup : repo.refs.lookup (RefName.ofComponents (folder ++ path)) = some value) :
    repo.isFolder folder = true := by
  obtain ⟨before, after, hrefs, _⟩ := List.lookup_eq_some_iff.mp hlookup
  have hunder :
      RefName.isUnder (RefName.ofComponents folder ++ "/") (RefName.ofComponents (folder ++ path)) = true :=
    RefName.isUnder_iff.mpr ⟨_, RefName.ofComponents_append hfolder hpath⟩
  have hany : (repo.refs.any fun ref => RefName.isUnder (RefName.ofComponents folder ++ "/") ref.1) = true :=
    List.any_eq_true.mpr ⟨(RefName.ofComponents (folder ++ path), value), by rw [hrefs]; simp, hunder⟩
  unfold isFolder
  dsimp only
  rw [hany, Bool.or_true]

theorem fileAt_eq_ref_iff :
    repo.fileAt path = .ref value ↔ repo.refs.lookup (RefName.ofComponents path) = some value := by
  refine ⟨lookup_of_fileAt, fun hlookup => ?_⟩
  simp only [fileAt, hlookup]

/-- Every folder on the way to a ref is there, since the ref lies in it. -/
theorem readFrom_eq_ref_iff (hpath : path ≠ [])
    (hplain : ∀ component ∈ path, component ≠ [] ∧ component.head? ≠ some '.') :
    repo.readFrom folder path = .ref value ↔
      repo.refs.lookup (RefName.ofComponents (folder ++ path)) = some value ∧
        ∀ component ∈ path, (String.ofList component).utf8ByteSize ≤ maxComponentBytes := by
  -- What is left of the path gets shorter, while the name that is spelled from the root on stays the same.
  induction path generalizing folder with
  | nil => exact absurd rfl hpath
  | cons component rest ih =>
      obtain ⟨hcomponent, hrest⟩ := List.forall_mem_cons.mp hplain
      have hfolder : folder ++ [component] ≠ [] := List.append_ne_nil_of_right_ne_nil _ (List.cons_ne_nil _ _)
      rw [readFrom_cons hcomponent, List.forall_mem_cons, List.append_cons folder component rest]
      by_cases hlong : maxComponentBytes < (String.ofList component).utf8ByteSize
      · rw [if_pos hlong]
        constructor
        · exact fun hread => nomatch hread
        · exact fun ⟨_, hshort, _⟩ => absurd hshort (Nat.not_le.mpr hlong)
      · have hshort := Nat.not_lt.mp hlong
        rw [if_neg hlong]
        cases rest with
        | nil => simpa [hshort] using fileAt_eq_ref_iff
        | cons next later =>
            have hnext : next :: later ≠ [] := List.cons_ne_nil _ _
            rw [if_neg (by simp)]
            split
            · rw [ih hnext hrest]
              simp [hshort]
            · next hnot =>
                constructor
                · exact fun hread => nomatch hread
                · exact fun ⟨hlookup, _⟩ => absurd (isFolder_of_lookup hfolder hnext hlookup) hnot

/-! ### Names that can be searched for -/

/-- A search takes the name: it does not end in a dot, and neither it nor a component of it is too long. -/
structure Seekable (name : RefName) : Prop where
  undotted : name.text.toList.getLast? ≠ some '.'
  short : name.text.utf8ByteSize ≤ maxNameBytes
  shortComponents : ∀ component ∈ name.text.toList.splitOn '/',
    (String.ofList component).utf8ByteSize ≤ maxComponentBytes

theorem read_of_short {name : String} (hshort : name.utf8ByteSize ≤ maxNameBytes) :
    repo.read name = repo.readFrom [] (name.toList.splitOn '/') := by
  have hpath : ¬ maxPathBytes < name.utf8ByteSize := by
    unfold maxNameBytes at hshort
    unfold maxPathBytes
    omega
  rw [read, if_neg hpath]

theorem read_eq_ref_iff (name : RefName) (hshort : name.text.utf8ByteSize ≤ maxNameBytes) :
    repo.read name.text = .ref value ↔ repo.refs.lookup name.text = some value ∧
      ∀ component ∈ name.text.toList.splitOn '/', (String.ofList component).utf8ByteSize ≤ maxComponentBytes := by
  have hnil := RefName.nil_notMem_of_wellFormed name.wellFormed
  rw [read_of_short hshort, readFrom_eq_ref_iff (List.splitOn_ne_nil _ _), List.nil_append,
    RefName.ofComponents_splitOn]
  exact fun component hmem =>
    ⟨fun hempty => hnil (hempty ▸ hmem), RefName.component_head_ne_dot name.wellFormed hmem⟩

theorem refValue_eq_some_iff (hunder : RefName.isUnder refFolder name.text = true) :
    repo.refValue name.text = .ok (some value) ↔ Seekable name ∧ repo.refs.lookup name.text = some value := by
  rw [refValue, if_neg (by simpa using name.nul_notMem), RefName.storeName?_eq name hunder]
  by_cases hdotted : name.text.toList.getLast? = some '.'
  · rw [if_pos hdotted]
    constructor
    · exact fun hnone => nomatch hnone
    · exact fun ⟨seekable, _⟩ => absurd hdotted seekable.undotted
  · rw [if_neg hdotted]
    dsimp only
    by_cases hlong : maxNameBytes < name.text.utf8ByteSize
    · rw [if_pos hlong]
      constructor
      · exact fun hfault => nomatch hfault
      · exact fun ⟨seekable, _⟩ => absurd seekable.short (Nat.not_le.mpr hlong)
    · have hshort := Nat.not_lt.mp hlong
      rw [if_neg hlong]
      constructor
      · intro hvalue
        split at hvalue
        · next hread =>
            cases hvalue
            obtain ⟨hlookup, hcomponents⟩ := (read_eq_ref_iff name hshort).mp hread
            exact ⟨⟨hdotted, hshort, hcomponents⟩, hlookup⟩
        · cases hvalue
        · cases hvalue
      · rintro ⟨seekable, hlookup⟩
        rw [(read_eq_ref_iff name hshort).mpr ⟨hlookup, seekable.shortComponents⟩]

/-! ### Found and listed -/

theorem findRef_iff (hunder : RefName.isUnder refFolder name.text = true) :
    repo.findRef name.text = .ok (some entry) ↔
      Seekable name ∧ entry.name = name ∧ repo.Points name.text entry.target ∧
        repo.peelTag entry.target = .ok entry.peeled := by
  rw [findRef_eq_some_iff]
  constructor
  · rintro ⟨value, hvalue, hfollow, hname, hpeel⟩
    obtain ⟨seekable, hlookup⟩ := (refValue_eq_some_iff hunder).mp hvalue
    exact ⟨seekable, RefName.ext hname, ⟨value, hlookup, hfollow⟩, hpeel⟩
  · rintro ⟨seekable, rfl, ⟨value, hlookup, hfollow⟩, hpeel⟩
    exact ⟨value, (refValue_eq_some_iff hunder).mpr ⟨seekable, hlookup⟩, hfollow, rfl, hpeel⟩

/-- A listing meets a ref of any name, but asks for one with an id by its name. -/
theorem Seekable.listedTarget?_eq_some_iff (seekable : Seekable name)
    (hunder : RefName.isUnder refFolder name.text = true) :
    repo.listedTarget? name.text = some target ↔ repo.Points name.text target := by
  refine ⟨points_of_listedTarget?, fun ⟨value, hlookup, hfollow⟩ => ?_⟩
  have hfound := (refValue_eq_some_iff hunder).mpr ⟨seekable, hlookup⟩
  unfold listedTarget?
  rw [hlookup]
  cases value with
  | id id => simp only [hfollow, hfound]
  | symbolic next => simp only [hfollow]

theorem mem_listRefs_iff (hrefs : repo.listRefs = .ok refs) :
    entry ∈ refs ↔ RefName.isUnder refFolder entry.name.text = true ∧
      repo.listedTarget? entry.name.text = some entry.target ∧ repo.peelTag entry.target = .ok entry.peeled := by
  rw [mem_entries hrefs, mem_refNames, and_assoc]
  refine and_congr_right fun _ => and_iff_right_of_imp fun ⟨hlisted, _⟩ => ?_
  obtain ⟨value, hlookup, _⟩ := points_of_listedTarget? hlisted
  obtain ⟨before, after, hall, _⟩ := List.lookup_eq_some_iff.mp hlookup
  simp [hall]

/-- A ref with an id is listed only where it is found. -/
theorem seekable_of_listedTarget? {id : ObjectId} (hunder : RefName.isUnder refFolder name.text = true)
    (hlookup : repo.refs.lookup name.text = some (.id id)) (hlisted : repo.listedTarget? name.text = some target) :
    Seekable name := by
  unfold listedTarget? at hlisted
  rw [hlookup] at hlisted
  dsimp only at hlisted
  split at hlisted
  · next heq _ => cases heq
  · split at hlisted
    · next value hvalue => exact ((refValue_eq_some_iff hunder).mp hvalue).1
    · cases hlisted
  · cases hlisted

/-- How the refs of a listing are found by their names. -/
structure FindsListed (repo : Repository) (refs : List RefEntry) : Prop where
  once : (refs.map (·.name)).Nodup
  found_iff : ∀ (name : RefName) (entry : RefEntry), RefName.isUnder refFolder name.text = true →
    (repo.findRef name.text = .ok (some entry) ↔ entry ∈ refs ∧ entry.name = name ∧ Seekable name)
  /-- Only a symbolic ref is listed under a name that a search does not take. -/
  direct : ∀ entry ∈ refs, ∀ id, repo.refs.lookup entry.name.text = some (.id id) → Seekable entry.name

theorem findsListed (hrefs : repo.listRefs = .ok refs) : repo.FindsListed refs := by
  refine ⟨(map_name_entries_sublist hrefs).nodup nodup_refNames, fun name entry hunder => ?_,
    fun entry hentry id hlookup => ?_⟩
  · rw [findRef_iff hunder, mem_listRefs_iff hrefs]
    constructor
    · rintro ⟨seekable, rfl, points, hpeeled⟩
      exact ⟨⟨hunder, (seekable.listedTarget?_eq_some_iff hunder).mpr points, hpeeled⟩, rfl, seekable⟩
    · rintro ⟨⟨_, hlisted, hpeeled⟩, rfl, seekable⟩
      exact ⟨seekable, rfl, points_of_listedTarget? hlisted, hpeeled⟩
  · obtain ⟨hunder, hlisted, _⟩ := (mem_listRefs_iff hrefs).mp hentry
    exact seekable_of_listedTarget? hunder hlookup hlisted

/-- A ref to the tree without entries, and a symbolic ref to it with a dot at the end of its name. -/
def dottedAlias : Repository where
  scope := "/srv/git/alias"
  objects := []
  refs := [("refs/tags/tree", .id .emptyTree), ("refs/tags/tree.", .symbolic "refs/tags/tree")]
  folders := []

def treeEntry : RefEntry := ⟨⟨"refs/tags/tree", by decide⟩, .emptyTree, none⟩

def aliasEntry : RefEntry := ⟨⟨"refs/tags/tree.", by decide⟩, .emptyTree, none⟩

theorem findsListed_dottedAlias : dottedAlias.listRefs = .ok [treeEntry, aliasEntry] ∧
    RefName.isUnder refFolder treeEntry.name.text = true ∧
    dottedAlias.findRef treeEntry.name.text = .ok (some treeEntry) := by
  have hrefs : dottedAlias.listRefs = .ok [treeEntry, aliasEntry] := by decide +kernel
  have hunder : RefName.isUnder refFolder treeEntry.name.text = true := by decide
  have seekable : Seekable treeEntry.name := ⟨by decide, by decide, by decide⟩
  exact ⟨hrefs, hunder,
    ((findsListed hrefs).found_iff treeEntry.name treeEntry hunder).mpr ⟨List.mem_cons_self, rfl, seekable⟩⟩

/-- The symbolic ref is listed, and there is none of its name. -/
theorem findRef_dottedAlias : dottedAlias.listRefs = .ok [treeEntry, aliasEntry] ∧
    RefName.isUnder refFolder aliasEntry.name.text = true ∧
    dottedAlias.findRef aliasEntry.name.text = .ok none :=
  ⟨by decide +kernel, by decide, by decide +kernel⟩

end Repository

end GuardedRevision
