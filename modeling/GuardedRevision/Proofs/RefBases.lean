import GuardedRevision.Proofs.FoundRefs
import GuardedRevision.Proofs.PlainDigits

/-!
# Bases that are refs

A base that is a ref is not looked at again, since a ref shows where it points. What it points at is a tip,
unless `HEAD` leads past the refs that are listed.
-/

namespace GuardedRevision

namespace RefName

variable {text component : List Char} {name stored : String}

theorem slash_notMem_of_mem_splitOn (hmem : component ∈ text.splitOn '/') : '/' ∉ component := by
  induction text generalizing component with
  | nil =>
      rw [List.splitOn_nil, List.mem_singleton] at hmem
      rw [hmem]
      exact List.not_mem_nil
  | cons c rest ih =>
      rw [List.splitOn_cons_eq_if_modifyHead] at hmem
      split at hmem
      · rcases List.mem_cons.mp hmem with rfl | hlater
        · exact List.not_mem_nil
        · exact ih hlater
      · next hslash =>
          obtain ⟨first, later, heq⟩ := List.exists_cons_of_ne_nil (List.splitOn_ne_nil '/' rest)
          rw [heq, List.modifyHead_cons] at hmem
          rcases List.mem_cons.mp hmem with rfl | hlater
          · have hfirst := ih (heq ▸ List.mem_cons_self)
            simp only [beq_iff_eq] at hslash
            exact List.not_mem_cons_of_ne_of_not_mem (Ne.symm hslash) hfirst
          · exact ih (heq ▸ List.mem_cons_of_mem _ hlater)

/-- The last component of a name is empty only behind a slash. -/
theorem getLast_splitOn_ne_nil (hne : name ≠ "") (hslash : name.toList.getLast? ≠ some '/') :
    (name.toList.splitOn '/').getLast? ≠ some [] := by
  intro hlast
  obtain ⟨front, hfront⟩ := List.getLast?_eq_some_iff.mp hlast
  have hname : name = ofComponents (front ++ [[]]) := by rw [← hfront, ofComponents_splitOn]
  cases front with
  | nil => exact hne hname
  | cons first rest =>
      rw [ofComponents_append (List.cons_ne_nil _ _) (List.cons_ne_nil _ _)] at hname
      apply hslash
      rw [hname, String.toList_append, String.toList_append]
      simp [ofComponents]

theorem splitOn_of_storeName? (hat : name ≠ "@") (hstored : storeName? name = some stored) :
    stored.toList.splitOn '/' = (name.toList.splitOn '/').filter (fun component => !component.isEmpty) ∧
      (name.toList.splitOn '/').getLast? ≠ some [] := by
  unfold storeName? at hstored
  split at hstored
  · cases hstored
  · next hends =>
      simp only [Bool.or_eq_true, decide_eq_true_eq, not_or] at hends
      split at hstored
      · next htakes =>
          have hshape := (Bool.and_eq_true_iff.mp htakes).2
          have hcomponents : components name ≠ [] := by
            intro hnone
            rw [hnone] at hshape
            cases hshape
          have hne : name ≠ "" := by
            rintro rfl
            exact hcomponents rfl
          rw [Option.some.injEq] at hstored
          refine ⟨?_, getLast_splitOn_ne_nil hne hends.1.2⟩
          rw [← hstored, ofComponents, String.toList_ofList, List.splitOn_intercalate '/' _ hcomponents]
          · rfl
          · exact fun component hmem => slash_notMem_of_mem_splitOn (List.mem_of_mem_filter hmem)
      · cases hstored

end RefName

namespace Repository

variable {repo : Repository} {folder path : List (List Char)} {name stored text : String} {value : RefTarget}
  {links more : Nat} {id other target : ObjectId} {refs : List RefEntry} {entry : RefEntry}

/-! ### Names that are spelled differently -/

/-- Empty components stay where they are, but for one at the end. -/
theorem readFrom_filter (hlast : path.getLast? ≠ some []) :
    repo.readFrom folder (path.filter fun component => !component.isEmpty) = repo.readFrom folder path := by
  induction path generalizing folder with
  | nil => rfl
  | cons component rest ih =>
      cases rest with
      | nil =>
          have hcomponent : component ≠ [] := by simpa using hlast
          simp [hcomponent]
      | cons next later =>
          rw [List.getLast?_cons_cons] at hlast
          have hrest := fun folder => @ih folder hlast
          by_cases hempty : component = []
          · rw [List.filter_cons_of_neg (by simp [hempty]), hrest, hempty]
            exact (if_pos rfl).symm
          · -- What is left of the path is not all empty, as its last component is not.
            have hne : (next :: later).getLast (List.cons_ne_nil _ _) ≠ [] := fun hnil =>
              hlast (List.getLast?_eq_some_getLast (List.cons_ne_nil _ _) |>.trans (congrArg some hnil))
            have hsome : ((next :: later).filter fun component => !component.isEmpty) ≠ [] :=
              List.ne_nil_of_mem (List.mem_filter.mpr ⟨List.getLast_mem _, by simpa using hne⟩)
            rw [List.filter_cons_of_pos (by simpa using hempty), readFrom, readFrom, hrest, hrest, hrest,
              List.isEmpty_eq_false_iff.mpr hsome]
            rfl

theorem read_of_storeName? (hat : text ≠ "@") (hstored : RefName.storeName? text = some stored)
    (hshort : stored.utf8ByteSize ≤ maxNameBytes) (hread : repo.read text = .ref value) :
    repo.read stored = .ref value := by
  obtain ⟨hcomponents, hlast⟩ := RefName.splitOn_of_storeName? hat hstored
  rw [read_of_short hshort, hcomponents, readFrom_filter hlast]
  unfold read at hread
  split at hread
  · cases hread
  · exact hread

/-! ### Where a path leads -/

theorem followWithin_congr (hread : repo.read name = repo.read text) :
    repo.followWithin links name = repo.followWithin links text := by
  unfold followWithin
  rw [hread]

theorem followWithin_succ (hfollow : repo.followWithin links text = .id target) :
    repo.followWithin (links + 1) text = .id target := by
  induction links generalizing text with
  | zero =>
      rcases followWithin_eq_id_iff.mp hfollow with hid | ⟨_, _, _, hlinks, _⟩
      · exact followWithin_eq_id_iff.mpr (.inl hid)
      · cases hlinks
  | succ links ih =>
      rcases followWithin_eq_id_iff.mp hfollow with hid | ⟨next, fewer, hread, hlinks, hne, hnext⟩
      · exact followWithin_eq_id_iff.mpr (.inl hid)
      · obtain rfl := Nat.succ.inj hlinks
        exact followWithin_eq_id_iff.mpr (.inr ⟨next, _, hread, rfl, hne, ih hnext⟩)

theorem followWithin_unique (hfollow : repo.followWithin links text = .id target)
    (hmore : repo.followWithin more text = .id other) : target = other := by
  have hmono : ∀ {fewer many}, fewer ≤ many → ∀ {id}, repo.followWithin fewer text = .id id →
      repo.followWithin many text = .id id := by
    intro fewer many hle id hid
    induction hle with
    | refl => exact hid
    | step _ ih => exact followWithin_succ ih
  have hleft := hmono (le_max_left links more) hfollow
  have hright := hmono (le_max_right links more) hmore
  exact RefEnd.id.inj (hleft.symm.trans hright)

theorem followWithin_of_storeName? (hat : text ≠ "@") (hstored : RefName.storeName? text = some stored)
    (hshort : stored.utf8ByteSize ≤ maxNameBytes) (hfollow : repo.followWithin links text = .id target) :
    repo.followWithin links stored = .id target := by
  have hread : repo.read stored = repo.read text := by
    rcases followWithin_eq_id_iff.mp hfollow with ⟨hid, _⟩ | ⟨_, _, hsymbolic, _⟩
    · rw [read_of_storeName? hat hstored hshort hid, hid]
    · rw [read_of_storeName? hat hstored hshort hsymbolic, hsymbolic]
  rw [followWithin_congr hread, hfollow]

/-- A path and a symbolic ref of the same text do not lead to different objects. -/
theorem follow_unique (hat : text ≠ "@") (hfollow : repo.follow (.symbolic text) = .id target)
    (hwithin : repo.followWithin links text = .id other) : target = other := by
  obtain ⟨stored, hstored, hshort, hstoredWithin⟩ := follow_symbolic_eq_id_iff.mp hfollow
  exact followWithin_unique hstoredWithin (followWithin_of_storeName? hat hstored hshort hwithin)

/-! ### What `HEAD` names -/

/-- `HEAD` is symbolic, and the ref that it names is listed. -/
def HeadNames (repo : Repository) (refs : List RefEntry) : Prop :=
  ∃ next, ∃ entry ∈ refs, repo.refs.lookup "HEAD" = some (.symbolic next) ∧
    RefName.storeName? next = some entry.name.text

def headName : RefName := ⟨"HEAD", by decide⟩

theorem exists_followWithin_of_head {next : String} (hlookup : repo.refs.lookup "HEAD" = some (.symbolic next))
    (hfollow : repo.followWithin links "HEAD" = .id target) :
    ∃ fewer, repo.followWithin fewer next = .id target := by
  rcases followWithin_eq_id_iff.mp hfollow with ⟨hid, _⟩ | ⟨_, fewer, hsymbolic, _, _, hnext⟩
  · cases (@lookup_of_read_name repo _ headName hid).symm.trans hlookup
  · cases (@lookup_of_read_name repo _ headName hsymbolic).symm.trans hlookup
    exact ⟨fewer, hnext⟩

/-- The ref that `HEAD` names leads to the same object as `HEAD`, even where it is symbolic itself. -/
theorem HeadNames.exists_target (head : repo.HeadNames refs) (hrefs : repo.listRefs = .ok refs)
    (hfound : repo.findRef "HEAD" = .ok (some entry)) : ∃ listed ∈ refs, listed.target = entry.target := by
  obtain ⟨next, listed, hlisted, hlookup, hstored⟩ := head
  obtain ⟨_, hvalue, hfollow, _⟩ := findRef_eq_some_iff.mp hfound
  obtain rfl := Option.some.inj ((@lookup_of_refValue repo _ headName (by decide) hvalue).symm.trans hlookup)
  obtain ⟨_, hsame, hshort, hwithin⟩ := follow_symbolic_eq_id_iff.mp hfollow
  obtain rfl := Option.some.inj (hsame.symm.trans hstored)
  obtain ⟨value, hnamed, hpoints⟩ := points_of_mem_listRefs hrefs hlisted
  refine ⟨listed, hlisted, ?_⟩
  rcases followWithin_eq_id_iff.mp hwithin with ⟨hread, hstorable⟩ | ⟨further, fewer, hread, _, _, hfurther⟩
  · obtain rfl := Option.some.inj (hnamed.symm.trans (lookup_of_read_name hread))
    rw [follow, if_pos hstorable, RefEnd.id.injEq] at hpoints
    exact hpoints.symm
  · obtain rfl := Option.some.inj (hnamed.symm.trans (lookup_of_read_name hread))
    by_cases hat : further = "@"
    · -- The ref names `HEAD` by its other name, which leads back to the ref.
      subst hat
      obtain ⟨_, hhead, _, hback⟩ := follow_symbolic_eq_id_iff.mp hpoints
      obtain rfl : "HEAD" = _ := Option.some.inj hhead
      have hnext : next ≠ "@" := by
        rintro rfl
        have hunder := isUnder_of_mem_listRefs hrefs hlisted
        rw [← Option.some.inj hstored] at hunder
        exact absurd hunder (by decide)
      obtain ⟨_, hagain⟩ := exists_followWithin_of_head hlookup hback
      exact followWithin_unique (followWithin_of_storeName? hnext hstored hshort hagain) hwithin
    · exact follow_unique hat hpoints hfurther

/-! ### Bases -/

theorem eq_head_of_mem_refNamesOf {base : String} (hmem : "HEAD" ∈ refNamesOf base) : base = "HEAD" := by
  have hother : ∀ folder : String, folder.toList.head? = some 'r' → "HEAD" ≠ folder ++ base := by
    intro folder hfolder heq
    have hhead := congrArg (fun name : String => name.toList.head?) heq
    simp [String.toList_append, List.head?_append, hfolder] at hhead
  unfold refNamesOf at hmem
  split at hmem
  · exact (List.mem_singleton.mp hmem).symm
  · rcases List.mem_pair.mp hmem with heq | heq
    · exact absurd heq (hother _ (by decide))
    · exact absurd heq (hother _ (by decide))

theorem mem_listRefs_of_findRef {name : String} (hunder : RefName.isUnder refFolder name = true)
    (hrefs : repo.listRefs = .ok refs) (hfound : repo.findRef name = .ok (some entry)) : entry ∈ refs := by
  obtain ⟨_, _, _, rfl, _⟩ := findRef_eq_some_iff.mp hfound
  obtain ⟨seekable, _, points, hpeeled⟩ := (findRef_iff hunder).mp hfound
  exact (mem_listRefs_iff hrefs).mpr ⟨hunder, (seekable.listedTarget?_eq_some_iff hunder).mpr points, hpeeled⟩

/-- The object of a base that is a ref is a tip, and it is shown under every policy: all that matters is that
`HEAD`, where it is the base, names a ref that is listed. -/
theorem base_isTip {base : String} (hrefs : repo.listRefs = .ok refs)
    (hbase : repo.base base = .ok (some (id, .ref))) (hhead : base = "HEAD" → repo.HeadNames refs) :
    BrowsePolicy.isTip refs id = true ∧
      ∀ (policy : BrowsePolicy) (capacity : Nat), policy.Shows capacity repo id := by
  obtain ⟨name, hname, entry, hfound, rfl⟩ := exists_findRef_of_base hbase
  have hlisted : ∃ listed ∈ refs, listed.target = entry.target := by
    rcases isPlace_of_mem_refNamesOf hname with hunder | rfl
    · exact ⟨entry, mem_listRefs_of_findRef hunder hrefs hfound, rfl⟩
    · exact (hhead (eq_head_of_mem_refNamesOf hname)).exists_target hrefs hfound
  obtain ⟨listed, hmem, htarget⟩ := hlisted
  have htip : BrowsePolicy.isTip refs entry.target = true :=
    (isTip_iff hrefs).mpr ⟨listed, hmem, .inl htarget.symm⟩
  refine ⟨htip, fun policy capacity => ?_⟩
  rw [BrowsePolicy.Shows, VisibilityMemo.check_empty, BrowsePolicy.answer, hrefs]
  exact if_pos htip

/-- `HEAD` is at a branch that stands for another one. -/
def onBranch : Repository :=
  { underReview with
    refs := [("HEAD", .symbolic "refs/heads/current"), ("refs/heads/current", .symbolic "refs/heads/main"),
      ("refs/heads/main", .id secondChange)] }

theorem base_isTip_onBranch : ∃ refs, onBranch.listRefs = .ok refs ∧
    onBranch.base "HEAD" = .ok (some (secondChange, .ref)) ∧ onBranch.HeadNames refs ∧
    BrowsePolicy.isTip refs secondChange = true ∧ BrowsePolicy.Shows ⟨["refs/heads/"]⟩ 4 onBranch secondChange := by
  let listed : List RefEntry :=
    [⟨⟨"refs/heads/current", by decide⟩, secondChange, none⟩, ⟨⟨"refs/heads/main", by decide⟩, secondChange, none⟩]
  have hrefs : onBranch.listRefs = .ok listed := by decide +kernel
  have hbase : onBranch.base "HEAD" = .ok (some (secondChange, .ref)) := by decide +kernel
  have head : onBranch.HeadNames listed := ⟨"refs/heads/current", _, List.mem_cons_self, rfl, rfl⟩
  obtain ⟨htip, hshown⟩ := base_isTip hrefs hbase fun _ => head
  exact ⟨_, hrefs, hbase, head, htip, hshown _ _⟩

/-- `HEAD` is at the parent of the commit under review itself, and no ref is. -/
def detached : Repository :=
  { underReview with refs := [("refs/changes/1", .id secondChange), ("HEAD", .id firstChange)] }

/-- The base is found as a ref and needs no check, though it is no tip and is hidden. -/
theorem base_hidden_detached : ∃ refs, detached.listRefs = .ok refs ∧
    detached.base "HEAD" = .ok (some (firstChange, .ref)) ∧ BrowsePolicy.isTip refs firstChange = false ∧
    ¬ BrowsePolicy.Shows ⟨["refs/changes/"]⟩ 4 detached firstChange := by
  refine ⟨[⟨⟨"refs/changes/1", by decide⟩, secondChange, none⟩], by decide +kernel, by decide +kernel,
    by decide +kernel, ?_⟩
  unfold BrowsePolicy.Shows
  decide +kernel

end Repository

end GuardedRevision
