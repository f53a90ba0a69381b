import GuardedRevision.Proofs.RefListing
import GuardedRevision.Proofs.Sorted
import GuardedRevision.RefGeneration

/-!
# Generations

The text that a generation hashes can be read back into the refs it was made of, since a NUL ends each
name and a newline each id. A listing is in the order of names already, so the text gives back the
very list.
-/

namespace GuardedRevision

namespace Repository

variable {repo : Repository} {refs : List RefEntry} {folder : String}

theorem pairwise_refNames : (repo.refNames folder).Pairwise fun left right => left.text < right.text := by
  unfold refNames
  refine List.Pairwise.filterMap _ ?_ (Sorting.pairwise_distinctNames _)
  have htext : ∀ {name : String} {parsed : RefName},
      (if RefName.isUnder folder name then (RefName.parse name).toOption else none) = some parsed →
      parsed.text = name := by
    intro name parsed hparsed
    obtain ⟨_, hparsed⟩ := Option.ite_none_right_eq_some.mp hparsed
    exact RefName.text_of_parse (except_toOption_eq_some_iff.mp hparsed)
  intro left right hless left' hleft right' hright
  rw [htext hleft, htext hright]
  exact hless

theorem pairwise_listRefs (hrefs : repo.listRefs = .ok refs) :
    refs.Pairwise fun left right => left.name.text < right.name.text := by
  have hnames : (refs.map (·.name)).Pairwise fun left right => left.text < right.text :=
    List.Pairwise.sublist (map_name_entries_sublist hrefs) pairwise_refNames
  rwa [List.pairwise_map] at hnames

end Repository

/-! ### Reading the text back -/

theorem RefName.nul_notMem (name : RefName) : '\x00' ∉ name.text.toList := by
  obtain ⟨_, _, _, _, _, _, _, _, hcontrol, _⟩ := problem?_eq_none_iff.mp name.wellFormed
  intro hmem
  exact absurd (List.any_eq_false.mp hcontrol _ hmem) (by decide)

theorem ObjectId.newline_notMem (id : ObjectId) : '\n' ∉ id.text.toList := by
  have hcanonical := id.canonical
  unfold isCanonical at hcanonical
  rw [Bool.and_eq_true, List.all_eq_true] at hcanonical
  intro hmem
  exact absurd (hcanonical.2 _ hmem) (by decide)

namespace RefGeneration

variable {left right : RefName × ObjectId} {lefts rights : List (RefName × ObjectId)}

/-- Two texts agree up to a character that neither has before it. -/
theorem eq_of_append_cons {mark : Char} {before before' after after' : List Char}
    (hbefore : mark ∉ before) (hbefore' : mark ∉ before')
    (heq : before ++ mark :: after = before' ++ mark :: after') : before = before' ∧ after = after' := by
  induction before generalizing before' with
  | nil =>
      cases before' with
      | nil => exact ⟨rfl, (List.cons.inj heq).2⟩
      | cons first rest => exact absurd (List.cons.inj heq).1 (List.ne_of_not_mem_cons hbefore')
  | cons first rest ih =>
      cases before' with
      | nil => exact absurd (List.cons.inj heq).1.symm (List.ne_of_not_mem_cons hbefore)
      | cons first' rest' =>
          obtain ⟨hfirst, hrest⟩ := List.cons.inj heq
          obtain ⟨hbefores, hafters⟩ := ih (List.not_mem_of_not_mem_cons hbefore)
            (List.not_mem_of_not_mem_cons hbefore') hrest
          exact ⟨by rw [hfirst, hbefores], hafters⟩

theorem toList_record (entry : RefName × ObjectId) :
    (record entry).toList = entry.1.text.toList ++ '\x00' :: (entry.2.text.toList ++ ['\n']) := by
  simp [record]

theorem record_append_inj {after after' : List Char}
    (heq : (record left).toList ++ after = (record right).toList ++ after') :
    left = right ∧ after = after' := by
  simp only [toList_record, List.append_assoc, List.cons_append, List.nil_append] at heq
  obtain ⟨hname, hrest⟩ := eq_of_append_cons left.1.nul_notMem right.1.nul_notMem heq
  obtain ⟨hid, hafter⟩ := eq_of_append_cons left.2.newline_notMem right.2.newline_notMem hrest
  exact ⟨Prod.ext (RefName.ext (String.ext hname)) (ObjectId.ext (String.ext hid)), hafter⟩

theorem join_map_record_inj (heq : String.join (lefts.map record) = String.join (rights.map record)) :
    lefts = rights := by
  have hlists := congrArg String.toList heq
  rw [String.toList_join, String.toList_join] at hlists
  clear heq
  induction lefts generalizing rights with
  | nil =>
      cases rights with
      | nil => rfl
      | cons right rights => simp [toList_record] at hlists
  | cons left lefts ih =>
      cases rights with
      | nil => simp [toList_record] at hlists
      | cons right rights =>
          simp only [List.map_cons, List.flatMap_cons] at hlists
          obtain ⟨hfirst, hrest⟩ := record_append_inj hlists
          rw [hfirst, ih hrest]

/-- The text determines the refs in the order of names. -/
theorem byName_eq_of_serialize (heq : serialize lefts = serialize rights) :
    byName lefts = byName rights := join_map_record_inj heq

end RefGeneration

/-! ### Listings -/

namespace BrowsePolicy

variable {policy : BrowsePolicy} {repo larger : Repository} {refs later : List RefEntry}

def generationText (policy : BrowsePolicy) (refs : List RefEntry) : String :=
  RefGeneration.serialize ((policy.browsable refs).map fun entry => (entry.name, entry.target))

theorem byName_browsable (hrefs : repo.listRefs = .ok refs) :
    RefGeneration.byName ((policy.browsable refs).map fun entry => (entry.name, entry.target)) =
      (policy.browsable refs).map fun entry => (entry.name, entry.target) := by
  apply Sorting.sortBy_of_pairwise
  rw [List.pairwise_map]
  have hsorted : (policy.browsable refs).Pairwise fun left right => left.name.text < right.name.text :=
    List.Pairwise.sublist List.filter_sublist (Repository.pairwise_listRefs hrefs)
  refine hsorted.imp fun hless => ?_
  exact decide_eq_true (String.lt_asymm hless)

theorem peeled_of_mem_browsable (grows : repo.Grows larger) (hrefs : repo.listRefs = .ok refs)
    {entry : RefEntry} (hentry : entry ∈ policy.browsable refs) :
    larger.peelTag entry.target = .ok entry.peeled :=
  grows.peelTag (Repository.peelTag_of_mem_listRefs hrefs (List.mem_of_mem_filter hentry))

/-- The text determines the browsable entries of a listing, also of one from before objects were added:
each tag still peels to what it peeled to. -/
theorem browsable_eq_of_generationText (grows : repo.Grows larger) (hrefs : repo.listRefs = .ok refs)
    (hlater : larger.listRefs = .ok later)
    (heq : policy.generationText refs = policy.generationText later) :
    policy.browsable refs = policy.browsable later := by
  -- An entry can be made again out of its name and target, since the larger store peels every target.
  let filled : RefName × ObjectId → RefEntry := fun pair =>
    ⟨pair.1, pair.2, ((larger.peelTag pair.2).toOption).join⟩
  have hfilled : ∀ entries : List RefEntry,
      (∀ entry ∈ entries, larger.peelTag entry.target = .ok entry.peeled) →
      (entries.map fun entry => (entry.name, entry.target)).map filled = entries := by
    intro entries hpeeled
    rw [List.map_map]
    refine (List.map_congr_left fun entry hentry => ?_).trans (List.map_id entries)
    simp [filled, hpeeled entry hentry, Except.toOption]
  have hpairs := RefGeneration.byName_eq_of_serialize heq
  rw [byName_browsable hrefs, byName_browsable hlater] at hpairs
  calc policy.browsable refs
      = ((policy.browsable refs).map fun entry => (entry.name, entry.target)).map filled :=
        (hfilled _ fun _ => peeled_of_mem_browsable grows hrefs).symm
    _ = ((policy.browsable later).map fun entry => (entry.name, entry.target)).map filled := by
        rw [hpairs]
    _ = policy.browsable later := hfilled _ fun _ => peeled_of_mem_browsable (Repository.Grows.refl larger) hlater

end BrowsePolicy

end GuardedRevision
