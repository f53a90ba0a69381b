import GuardedRevision.Exposure
import GuardedRevision.Proofs.Peeling
import GuardedRevision.Proofs.RefPaths

/-!
# Found and listed refs

What the entries of a listing, and the entry that a name finds, say about the refs of a repository:
where each ref points, and which objects it marks as its tips.
-/

namespace GuardedRevision.Repository

/-- `Points repo name target`: the ref of this name leads to the object. -/
def Points (repo : Repository) (name : String) (target : ObjectId) : Prop :=
  ∃ value, repo.refs.lookup name = some value ∧ repo.follow value = .id target

variable {repo : Repository} {target id : ObjectId}

/-- A path leads to an object at once, or over a link and what the link leads to. -/
theorem followWithin_eq_id_iff {links : Nat} {path : String} :
    repo.followWithin links path = .id target ↔
      repo.read path = .ref (.id target) ∧ target.isStorable = true ∨
        ∃ next fewer, repo.read path = .ref (.symbolic next) ∧ links = fewer + 1 ∧ next ≠ "" ∧
          repo.followWithin fewer next = .id target := by
  rw [followWithin.eq_def]
  cases hread : repo.read path with
  | absent => simp
  | overlong => simp
  | foreign => simp
  | ref value =>
      cases value with
      | id id =>
          simp only [RefFile.ref.injEq, RefTarget.id.injEq, reduceCtorEq, false_and, exists_false, or_false]
          constructor
          · intro hid
            split at hid
            · next hstorable =>
                cases hid
                exact ⟨rfl, hstorable⟩
            · cases hid
          · rintro ⟨rfl, hstorable⟩
            rw [if_pos hstorable]
      | symbolic next =>
          cases links with
          | zero => simp
          | succ fewer => by_cases hempty : next = "" <;> simp [hempty]

theorem exists_id_of_followWithin {links : Nat} {path : String}
    (hfollow : repo.followWithin links path = .id target) :
    ∃ name, repo.refs.lookup name = some (.id target) := by
  induction links generalizing path with
  | zero =>
      rcases followWithin_eq_id_iff.mp hfollow with ⟨hread, _⟩ | ⟨_, _, _, hlinks, _⟩
      · exact exists_lookup_of_read hread
      · cases hlinks
  | succ links ih =>
      rcases followWithin_eq_id_iff.mp hfollow with ⟨hread, _⟩ | ⟨next, _, _, hlinks, _, hnext⟩
      · exact exists_lookup_of_read hread
      · obtain rfl := Nat.succ.inj hlinks
        exact ih hnext

theorem follow_symbolic_eq_id_iff {text : String} : repo.follow (.symbolic text) = .id target ↔
    ∃ stored, RefName.storeName? text = some stored ∧ stored.utf8ByteSize ≤ maxNameBytes ∧
      repo.followWithin maxLinks stored = .id target := by
  by_cases hempty : text = ""
  · subst hempty
    have hnone : RefName.storeName? "" = none := rfl
    simp [follow, hnone]
  · rw [follow, if_neg (by simpa using hempty)]
    cases hstored : RefName.storeName? text with
    | none => simp
    | some stored =>
        by_cases hlong : maxNameBytes < stored.utf8ByteSize
        · simp [hlong, Nat.not_le.mpr hlong]
        · simp [hlong, Nat.not_lt.mp hlong]

/-- A ref ends at an id that it holds itself, or that another ref holds. -/
theorem exists_id_of_follow {value : RefTarget} (hfollow : repo.follow value = .id target) :
    value = .id target ∨ ∃ name, repo.refs.lookup name = some (.id target) := by
  cases value with
  | id id =>
      rw [follow] at hfollow
      split at hfollow
      · cases hfollow
        exact .inl rfl
      · cases hfollow
  | symbolic next =>
      obtain ⟨_, _, _, hwithin⟩ := follow_symbolic_eq_id_iff.mp hfollow
      exact .inr (exists_id_of_followWithin hwithin)

theorem Points.exists_id {name : String} (points : repo.Points name target) :
    ∃ holder, repo.refs.lookup holder = some (.id target) := by
  obtain ⟨value, hlookup, hfollow⟩ := points
  rcases exists_id_of_follow hfollow with rfl | hother
  · exact ⟨name, hlookup⟩
  · exact hother

/-! ### Listing -/

theorem points_of_listedTarget? {name : String} (hlisted : repo.listedTarget? name = some target) :
    repo.Points name target := by
  unfold listedTarget? at hlisted
  split at hlisted
  · simp at hlisted
  · next value hlookup =>
      refine ⟨value, hlookup, ?_⟩
      split at hlisted
      · next hfollow =>
          cases hlisted
          exact hfollow
      · next hfollow =>
          split at hlisted
          · cases hlisted
            exact hfollow
          · simp at hlisted
      · simp at hlisted

theorem mem_refNames {folder : String} {name : RefName} : name ∈ repo.refNames folder ↔
    RefName.isUnder folder name.text = true ∧ name.text ∈ repo.refs.map Prod.fst := by
  unfold refNames
  rw [List.mem_filterMap]
  constructor
  · rintro ⟨text, htext, hparsed⟩
    obtain ⟨hunder, hparsed⟩ := Option.ite_none_right_eq_some.mp hparsed
    obtain rfl := RefName.text_of_parse (except_toOption_eq_some_iff.mp hparsed)
    exact ⟨hunder, Sorting.mem_distinctNames.mp htext⟩
  · rintro ⟨hunder, hmem⟩
    exact ⟨name.text, Sorting.mem_distinctNames.mpr hmem, by rw [if_pos hunder, RefName.parse_text]; rfl⟩

theorem entries_cons {name : RefName} {rest : List RefName} {entries : List RefEntry} :
    repo.entries (name :: rest) = .ok entries ↔
      (repo.listedTarget? name.text = none ∧ repo.entries rest = .ok entries) ∨
      ∃ target peeled later, repo.listedTarget? name.text = some target ∧
        repo.peelTag target = .ok peeled ∧ repo.entries rest = .ok later ∧
        entries = ⟨name, target, peeled⟩ :: later := by
  rw [Repository.entries]
  cases repo.listedTarget? name.text with
  | none => simp
  | some target =>
      cases hpeel : repo.peelTag target with
      | error fault => simp [hpeel, bind, Except.bind]
      | ok peeled =>
          cases repo.entries rest with
          | error fault => simp [hpeel, bind, Except.bind]
          | ok later => simp [hpeel, bind, Except.bind, pure, Except.pure, eq_comm]

theorem mem_entries {names : List RefName} {entries : List RefEntry}
    (hentries : repo.entries names = .ok entries) {entry : RefEntry} :
    entry ∈ entries ↔ entry.name ∈ names ∧
      repo.listedTarget? entry.name.text = some entry.target ∧
      repo.peelTag entry.target = .ok entry.peeled := by
  induction names generalizing entries with
  | nil =>
      cases hentries
      simp
  | cons name rest ih =>
      rcases entries_cons.mp hentries with ⟨hnone, hrest⟩ | ⟨target, peeled, later, hsome, hpeel, hrest, rfl⟩
      · rw [ih hrest, List.mem_cons]
        constructor
        · rintro ⟨hmem, h⟩
          exact ⟨.inr hmem, h⟩
        · rintro ⟨hname | hmem, hlisted, hpeeled⟩
          · rw [hname, hnone] at hlisted
            cases hlisted
          · exact ⟨hmem, hlisted, hpeeled⟩
      · rw [List.mem_cons, ih hrest, List.mem_cons]
        constructor
        · rintro (rfl | ⟨hmem, h⟩)
          · exact ⟨.inl rfl, hsome, hpeel⟩
          · exact ⟨.inr hmem, h⟩
        · rintro ⟨hname | hmem, hlisted, hpeeled⟩
          · left
            rw [hname, hsome] at hlisted
            cases hlisted
            rw [hpeel] at hpeeled
            cases hpeeled
            cases entry
            simp_all
          · exact .inr ⟨hmem, hlisted, hpeeled⟩

theorem exists_mem_entries {names : List RefName} {entries : List RefEntry}
    (hentries : repo.entries names = .ok entries) {name : RefName} (hname : name ∈ names)
    (hlisted : repo.listedTarget? name.text = some target) : ∃ entry ∈ entries, entry.name = name := by
  induction names generalizing entries with
  | nil => cases hname
  | cons first rest ih =>
      rcases entries_cons.mp hentries with ⟨hnone, hrest⟩ | ⟨_, _, later, _, _, hrest, rfl⟩
      · rcases List.mem_cons.mp hname with rfl | hmem
        · cases hnone.symm.trans hlisted
        · exact ih hrest hmem
      · rcases List.mem_cons.mp hname with rfl | hmem
        · exact ⟨_, List.mem_cons_self, rfl⟩
        · obtain ⟨entry, hentry, heq⟩ := ih hrest hmem
          exact ⟨entry, List.mem_cons_of_mem _ hentry, heq⟩

theorem map_name_entries_sublist {names : List RefName} {entries : List RefEntry}
    (hentries : repo.entries names = .ok entries) : (entries.map (·.name)).Sublist names := by
  induction names generalizing entries with
  | nil =>
      cases hentries
      exact List.Sublist.refl _
  | cons name rest ih =>
      rcases entries_cons.mp hentries with ⟨_, hrest⟩ | ⟨_, _, later, _, _, hrest, rfl⟩
      · exact (ih hrest).cons name
      · exact (ih hrest).cons_cons name

theorem exists_entries {names : List RefName}
    (hpeel : ∀ name ∈ names, ∀ target, repo.listedTarget? name.text = some target →
      ∃ peeled, repo.peelTag target = .ok peeled) :
    ∃ entries, repo.entries names = .ok entries := by
  induction names with
  | nil => exact ⟨[], rfl⟩
  | cons name rest ih =>
      obtain ⟨hname, hrest⟩ := List.forall_mem_cons.mp hpeel
      obtain ⟨later, hlater⟩ := ih hrest
      cases hlisted : repo.listedTarget? name.text with
      | none => exact ⟨later, entries_cons.mpr (.inl ⟨hlisted, hlater⟩)⟩
      | some target =>
          obtain ⟨peeled, hpeeled⟩ := hname _ hlisted
          exact ⟨_, entries_cons.mpr (.inr ⟨target, peeled, later, hlisted, hpeeled, hlater, rfl⟩)⟩

section Listed

variable {refs : List RefEntry} {entry : RefEntry}

theorem points_of_mem_listRefs (hrefs : repo.listRefs = .ok refs) (hentry : entry ∈ refs) :
    repo.Points entry.name.text entry.target :=
  points_of_listedTarget? ((mem_entries hrefs).mp hentry).2.1

theorem peelTag_of_mem_listRefs (hrefs : repo.listRefs = .ok refs) (hentry : entry ∈ refs) :
    repo.peelTag entry.target = .ok entry.peeled :=
  ((mem_entries hrefs).mp hentry).2.2

theorem isUnder_of_mem_listRefs (hrefs : repo.listRefs = .ok refs) (hentry : entry ∈ refs) :
    RefName.isUnder refFolder entry.name.text = true :=
  (mem_refNames.mp ((mem_entries hrefs).mp hentry).1).1

theorem peelsTo_tip (hrefs : repo.listRefs = .ok refs) (hentry : entry ∈ refs) :
    repo.PeelsTo entry.target entry.tip :=
  peelsTo_of_peelTag (peelTag_of_mem_listRefs hrefs hentry)

theorem isTip_iff (hrefs : repo.listRefs = .ok refs) :
    BrowsePolicy.isTip refs id = true ↔ ∃ entry ∈ refs, repo.Marks entry.target id := by
  unfold BrowsePolicy.isTip
  simp only [List.any_eq_true, Bool.or_eq_true, beq_iff_eq]
  constructor
  · rintro ⟨entry, hentry, htarget | hpeeled⟩
    · exact ⟨entry, hentry, .inl htarget.symm⟩
    · have hpeels := peelsTo_tip hrefs hentry
      rw [RefEntry.tip, hpeeled] at hpeels
      exact ⟨entry, hentry, .inr hpeels⟩
  · rintro ⟨entry, hentry, hid | hpeels⟩
    · exact ⟨entry, hentry, .inl hid.symm⟩
    · refine ⟨entry, hentry, ?_⟩
      have htip : entry.tip = id := (peelsTo_tip hrefs hentry).unique hpeels
      rw [RefEntry.tip] at htip
      cases hpeeled : entry.peeled with
      | none => exact .inl (by simpa [hpeeled] using htip)
      | some peeled => exact .inr (by simpa [hpeeled] using htip)

end Listed

/-! ### Finding -/

theorem findRef_eq_some_iff {text : String} {entry : RefEntry} :
    repo.findRef text = .ok (some entry) ↔ ∃ value, repo.refValue text = .ok (some value) ∧
      repo.follow value = .id entry.target ∧ entry.name.text = text ∧
      repo.peelTag entry.target = .ok entry.peeled := by
  unfold findRef
  constructor
  · intro hfound
    cases hvalue : repo.refValue text with
    | error fault => simp [hvalue, bind, Except.bind] at hfound
    | ok found =>
        cases found with
        | none => simp [hvalue, bind, Except.bind, pure, Except.pure] at hfound
        | some value =>
            simp only [hvalue, bind, Except.bind] at hfound
            split at hfound
            · simp [pure, Except.pure] at hfound
            · simp [throw, throwThe, MonadExceptOf.throw] at hfound
            · simp [throw, throwThe, MonadExceptOf.throw] at hfound
            · next target hfollow =>
                cases hname : RefName.parse text with
                | error error => simp [hname, Except.mapError] at hfound
                | ok parsed =>
                    cases hpeel : repo.peelTag target with
                    | error fault => simp [hname, hpeel, Except.mapError] at hfound
                    | ok peeled =>
                        simp only [hname, hpeel, Except.mapError, pure, Except.pure, Except.ok.injEq,
                          Option.some.injEq] at hfound
                        subst hfound
                        exact ⟨value, rfl, hfollow, RefName.text_of_parse hname, hpeel⟩
  · rintro ⟨value, hvalue, hfollow, rfl, hpeel⟩
    simp [hvalue, hfollow, RefName.parse_text, hpeel, Except.mapError, bind, Except.bind, pure, Except.pure]

theorem of_findRef {name : String} {entry : RefEntry}
    (hfound : repo.findRef name = .ok (some entry)) (hne : name ≠ "@") :
    repo.Points name entry.target ∧ repo.peelTag entry.target = .ok entry.peeled := by
  obtain ⟨value, hvalue, hfollow, rfl, hpeel⟩ := findRef_eq_some_iff.mp hfound
  exact ⟨⟨value, lookup_of_refValue hne hvalue, hfollow⟩, hpeel⟩

end GuardedRevision.Repository
