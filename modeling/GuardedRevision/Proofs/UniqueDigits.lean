import GuardedRevision.Proofs.Answerable

/-!
# Digits that fit one object

Digits name the only stored object whose id begins with them, however many there are and in either case.
Two things stand apart. An object that cannot be read is a fault, and the tree without entries is there
under its full id, even where nobody stored it.
-/

namespace GuardedRevision

variable {repo : Repository} {id other : ObjectId} {digits left right : String} {fault : Fault} {c : Char}
  {count more : Nat}

/-! ### Case -/

theorem toLower_of_not_isUpper (hlower : c.isUpper = false) : c.toLower = c := by
  unfold Char.toLower
  exact dif_neg (of_decide_eq_false hlower)

theorem isHexDigit_toLower (c : Char) : isHexDigit c.toLower = isHexDigit c := by
  cases hupper : c.isUpper with
  | false => rw [toLower_of_not_isUpper hupper]
  | true =>
      have hle : c.val ≤ 'Z'.val := (of_decide_eq_true hupper).2
      have hsmall : c.toNat < 128 := Nat.lt_of_le_of_lt (UInt32.le_iff_toNat_le.mp hle) (by decide)
      exact of_ascii (fun c => isHexDigit c.toLower = isHexDigit c) (by decide +kernel) hsmall

namespace ObjectId

/-- Digits that a store can be asked for: four at least, and no more than its ids have. -/
structure IsLead (digits : String) : Prop where
  enough : 4 ≤ digits.toList.length
  few : digits.toList.length ≤ storeDigits
  hex : ∀ c ∈ digits.toList, isHexDigit c = true

theorem isLead_iff :
    IsLead digits ↔ (isHashLike digits && digits.utf8ByteSize ≤ storeDigits) = true := by
  have hlong : storeDigits ≤ longDigits := by decide
  simp only [isHashLike, Bool.and_eq_true, decide_eq_true_eq, List.all_eq_true]
  constructor
  · intro lead
    have hsize := utf8ByteSize_eq_length lead.hex
    have henough := lead.enough
    have hfew := lead.few
    exact ⟨⟨⟨by omega, by omega⟩, lead.hex⟩, by omega⟩
  · rintro ⟨⟨⟨henough, _⟩, hhex⟩, hfew⟩
    have hsize := utf8ByteSize_eq_length hhex
    exact ⟨by omega, by omega, hhex⟩

theorem isLead_of_toLower_eq (hcase : left.toLower = right.toLower) (lead : IsLead left) : IsLead right := by
  have hlist : left.toList.map Char.toLower = right.toList.map Char.toLower := by
    rw [← toList_toLower, ← toList_toLower, hcase]
  have hlength : left.toList.length = right.toList.length := by
    rw [← List.length_map, hlist, List.length_map]
  refine ⟨hlength ▸ lead.enough, hlength ▸ lead.few, fun c hc => ?_⟩
  have hmem : c.toLower ∈ left.toList.map Char.toLower := hlist ▸ List.mem_map_of_mem hc
  obtain ⟨d, hd, hsame⟩ := List.mem_map.mp hmem
  rw [← isHexDigit_toLower, ← hsame, isHexDigit_toLower]
  exact lead.hex d hd

theorem fits_iff : id.fits digits = true ↔ digits.toLower.toList <+: id.text.toList :=
  List.isPrefixOf_iff_prefix

/-! ### The digits of an id -/

theorem hex_of_mem (hmem : c ∈ id.text.toList) : isHexDigit c = true ∧ c.isUpper = false := by
  have hcanonical := id.canonical
  simp only [isCanonical, Bool.and_eq_true, List.all_eq_true, Bool.not_eq_true'] at hcanonical
  exact hcanonical.2 c hmem

theorem length_of_isStorable (hstorable : id.isStorable = true) : id.text.toList.length = storeDigits := by
  rw [← utf8ByteSize_eq_length fun c hc => (hex_of_mem hc).1]
  exact beq_iff_eq.mp hstorable

theorem toList_short : (id.short count).toList = id.text.toList.take count := String.toList_ofList

theorem toLower_of_subset (hsub : digits.toList ⊆ id.text.toList) : digits.toLower = digits := by
  rw [← String.toList_inj, toList_toLower, List.map_congr_left, List.map_id]
  intro c hc
  exact toLower_of_not_isUpper (hex_of_mem (hsub hc)).2

theorem toLower_text (id : ObjectId) : id.text.toLower = id.text := toLower_of_subset (List.Subset.refl _)

theorem toLower_short (id : ObjectId) (count : Nat) : (id.short count).toLower = id.short count :=
  toLower_of_subset (by
    rw [toList_short]
    exact List.take_subset _ _)

theorem isLead_text (hstorable : id.isStorable = true) : IsLead id.text where
  enough := by
    rw [length_of_isStorable hstorable]
    decide
  few := (length_of_isStorable hstorable).le
  hex := fun _ hc => (hex_of_mem hc).1

theorem isLead_short (hstorable : id.isStorable = true) (hcount : 4 ≤ count) : IsLead (id.short count) := by
  have hlength := length_of_isStorable hstorable
  have hmost : storeDigits = 40 := rfl
  refine ⟨?_, ?_, fun c hc => ?_⟩
  · rw [toList_short, List.length_take]
    omega
  · rw [toList_short, List.length_take]
    omega
  · rw [toList_short] at hc
    exact (hex_of_mem (List.mem_of_mem_take hc)).1

theorem fits_short_iff : other.fits (id.short count) = true ↔ id.text.toList.take count <+: other.text.toList := by
  rw [fits_iff, toLower_short, toList_short]

/-- An id begins with as many digits of another one exactly when they share these digits. -/
theorem fits_short_iff_short_eq (hid : id.isStorable = true) (hother : other.isStorable = true) :
    other.fits (id.short count) = true ↔ other.short count = id.short count := by
  rw [fits_short_iff, ← String.toList_inj, toList_short, toList_short, List.prefix_iff_eq_take, List.length_take,
    length_of_isStorable hid]
  have hlength := length_of_isStorable hother
  constructor
  · intro heq
    rw [heq, ← hlength, ← List.take_take, List.take_length]
  · intro heq
    rw [← heq, ← hlength, ← List.take_take, List.take_length]

theorem fits_iff_of_full (hfull : digits.toList.length = storeDigits) (hstorable : id.isStorable = true) :
    id.fits digits = true ↔ digits.toLower = id.text := by
  rw [fits_iff, ← String.toList_inj]
  constructor
  · intro hlead
    exact hlead.eq_of_length (by rw [length_toLower, hfull, length_of_isStorable hstorable])
  · intro heq
    rw [heq]

end ObjectId

namespace Repository

open ObjectId (IsLead)

/-! ### What is stored under an id -/

theorem isStorable_of_mem_ids (hmem : id ∈ repo.ids) : id.isStorable = true := by
  unfold ids at hmem
  exact (List.mem_filter.mp (List.mem_eraseDups.mp hmem)).2

theorem present_of_holds (holds : repo.Holds id) : repo.present id = .ok (some id) := by
  obtain ⟨object, hobject⟩ := holds
  rw [present, hobject]

theorem present_of_unreadable (hmem : id ∈ repo.ids) (unreadable : ¬ repo.Holds id) :
    repo.present id = .error .internal := by
  unfold present
  cases hobject : repo.object id with
  | ok object => exact absurd ⟨object, hobject⟩ unreadable
  | error fault =>
      rcases object_error hobject with rfl | rfl
      · -- A stored object is not missing.
        unfold Repository.object at hobject
        rw [if_pos (isStorable_of_mem_ids hmem)] at hobject
        split at hobject
        · cases hobject
        · cases hobject
        · next hlookup =>
            unfold ids at hmem
            obtain ⟨entry, hentry, rfl⟩ := List.mem_map.mp (List.mem_filter.mp (List.mem_eraseDups.mp hmem)).1
            have hother := List.lookup_eq_none_iff.mp hlookup entry hentry
            simp at hother
      · rfl

theorem object_of_notMem (hstorable : id.isStorable = true) (hmem : id ∉ repo.ids) :
    repo.object id = if id = .emptyTree then .ok .tree else .error (.missingObject id) := by
  have hlookup : repo.objects.lookup id = none := by
    rw [List.lookup_eq_none_iff]
    intro entry hentry
    rw [bne_iff_ne]
    rintro rfl
    apply hmem
    unfold ids
    rw [List.mem_eraseDups, List.mem_filter]
    exact ⟨List.mem_map_of_mem hentry, hstorable⟩
  rw [Repository.object, if_pos hstorable, hlookup]

/-! ### The only object that digits fit -/

/-- The id is the only one of a stored object that begins with the digits. -/
structure OnlyFits (repo : Repository) (digits : String) (id : ObjectId) : Prop where
  stored : id ∈ repo.ids
  fits : id.fits digits = true
  only : ∀ other ∈ repo.ids, other.fits digits = true → other = id

theorem fitting_eq_singleton_iff : repo.fitting digits = [id] ↔ repo.OnlyFits digits id := by
  constructor
  · intro heq
    obtain ⟨hstored, hfits⟩ := mem_fitting.mp (heq ▸ List.mem_singleton_self id)
    refine ⟨hstored, hfits, fun other hother hothers => ?_⟩
    exact List.mem_singleton.mp (heq ▸ mem_fitting.mpr ⟨hother, hothers⟩)
  · intro only
    rw [← List.perm_singleton]
    refine (List.perm_ext_iff_of_nodup (nodup_ids.filter _) (List.nodup_singleton id)).mpr fun other => ?_
    rw [← fitting, mem_fitting, List.mem_singleton]
    constructor
    · exact fun ⟨hother, hfits⟩ => only.only other hother hfits
    · rintro rfl
      exact ⟨only.stored, only.fits⟩

theorem onlyFits_of_spelled (hstored : id ∈ repo.ids) (hfull : digits.toLower = id.text) :
    repo.OnlyFits digits id := by
  have hid := isStorable_of_mem_ids hstored
  have hlength : digits.toList.length = ObjectId.storeDigits := by
    rw [← ObjectId.length_toLower, hfull, ObjectId.length_of_isStorable hid]
  refine ⟨hstored, (ObjectId.fits_iff_of_full hlength hid).mpr hfull, fun other hother hfits => ?_⟩
  have hspelled := (ObjectId.fits_iff_of_full hlength (isStorable_of_mem_ids hother)).mp hfits
  exact ObjectId.ext (hspelled.symm.trans hfull)

/-- More digits of an id that is alone already with fewer leave it alone. -/
theorem OnlyFits.longer (only : repo.OnlyFits (id.short count) id) (hmore : count ≤ more) :
    repo.OnlyFits (id.short more) id := by
  refine ⟨only.stored, ObjectId.fits_short_iff.mpr (List.take_prefix _ _), fun other hother hfits => ?_⟩
  refine only.only other hother (ObjectId.fits_short_iff.mpr ?_)
  exact (List.take_prefix_take_left hmore).trans (ObjectId.fits_short_iff.mp hfits)

theorem onlyFits_short_iff (hstored : id ∈ repo.ids) : repo.OnlyFits (id.short count) id ↔
    ∀ other ∈ repo.ids, other.short count = id.short count → other = id := by
  have hid := isStorable_of_mem_ids hstored
  constructor
  · intro only other hother hshort
    exact only.only other hother ((ObjectId.fits_short_iff_short_eq hid (isStorable_of_mem_ids hother)).mpr hshort)
  · intro hall
    refine ⟨hstored, ObjectId.fits_short_iff.mpr (List.take_prefix _ _), fun other hother hfits => ?_⟩
    exact hall other hother ((ObjectId.fits_short_iff_short_eq hid (isStorable_of_mem_ids hother)).mp hfits)

/-! ### What digits name -/

theorem withDigits?_of_not_isLead (hlead : ¬ IsLead digits) : repo.withDigits? digits = .ok none := by
  rw [ObjectId.isLead_iff] at hlead
  rw [withDigits?, if_neg hlead]

theorem isAbbreviation_or_full (lead : IsLead digits) :
    ObjectId.isAbbreviation digits = true ∨ digits.toList.length = ObjectId.storeDigits ∧
      ∃ id : ObjectId, id.text = digits.toLower ∧ id.isStorable = true ∧
        ∀ repo : Repository, repo.withDigits? digits = repo.present id := by
  obtain ⟨hlike, hfew⟩ := Bool.and_eq_true_iff.mp (ObjectId.isLead_iff.mp lead)
  have hfew : digits.utf8ByteSize ≤ ObjectId.storeDigits := of_decide_eq_true hfew
  have hsize := ObjectId.utf8ByteSize_eq_length lead.hex
  cases hshort : ObjectId.isAbbreviation digits with
  | true => exact .inl rfl
  | false =>
      right
      have hfull : digits.toList.length = ObjectId.storeDigits := by
        rw [ObjectId.isAbbreviation, hlike, Bool.true_and, decide_eq_false_iff_not] at hshort
        omega
      obtain ⟨id, hparse⟩ := ObjectId.exists_parse hlike (hsize.trans hfull)
      obtain ⟨hstorable, hfits⟩ := ObjectId.of_parse hparse hlike hfew
      refine ⟨hfull, id, ((ObjectId.fits_iff_of_full hfull hstorable).mp hfits).symm, hstorable, fun repo => ?_⟩
      rw [withDigits?, if_pos (ObjectId.isLead_iff.mp lead), hparse]

theorem OnlyFits.withDigits? (only : repo.OnlyFits digits id) (lead : IsLead digits) :
    repo.withDigits? digits = repo.present id := by
  rcases isAbbreviation_or_full lead with hshort | ⟨hfull, spelled, htext, hstorable, hname⟩
  · rw [withDigits?_of_isAbbreviation hshort, fitting_eq_singleton_iff.mpr only]
  · have hsame := (ObjectId.fits_iff_of_full hfull (isStorable_of_mem_ids only.stored)).mp only.fits
    rw [hname, ObjectId.ext (htext.trans hsame)]

/-- The tree without entries needs nobody to store it, but it is known under its full id only. -/
theorem withDigits?_emptyTree (lead : IsLead digits) (hnew : ObjectId.emptyTree ∉ repo.ids)
    (hfull : digits.toLower = ObjectId.emptyTree.text) :
    repo.withDigits? digits = .ok (some .emptyTree) := by
  have hlength : digits.toList.length = ObjectId.storeDigits := by
    rw [← ObjectId.length_toLower, hfull]
    decide
  rcases isAbbreviation_or_full lead with hshort | ⟨_, spelled, htext, hstorable, hname⟩
  · rw [ObjectId.isAbbreviation, Bool.and_eq_true, decide_eq_true_eq,
      ObjectId.utf8ByteSize_eq_length lead.hex] at hshort
    omega
  · obtain rfl : spelled = .emptyTree := ObjectId.ext (htext.trans hfull)
    rw [hname]
    refine present_of_holds ⟨.tree, ?_⟩
    rw [object_of_notMem hstorable hnew, if_pos rfl]

theorem withDigits?_of_none (lead : IsLead digits) (hnone : ∀ id, ¬ repo.OnlyFits digits id)
    (hother : digits.toLower ≠ ObjectId.emptyTree.text) : repo.withDigits? digits = .ok none := by
  rcases isAbbreviation_or_full lead with hshort | ⟨_, spelled, htext, hstorable, hname⟩
  · rw [withDigits?_of_isAbbreviation hshort]
    split
    · next id honly => exact absurd (fitting_eq_singleton_iff.mp honly) (hnone id)
    · rfl
  · have hnew : spelled ∉ repo.ids := fun hstored => hnone spelled (onlyFits_of_spelled hstored htext.symm)
    have hne : spelled ≠ .emptyTree := by
      rintro rfl
      exact hother htext.symm
    rw [hname, present, object_of_notMem hstorable hnew, if_neg hne]

/-- How digits stand to the objects of a store. -/
inductive Sought (repo : Repository) (digits : String) : Prop where
  | refused (hlead : ¬ IsLead digits)
  | only {id : ObjectId} (lead : IsLead digits) (only : repo.OnlyFits digits id)
  | spare (lead : IsLead digits) (hnew : ObjectId.emptyTree ∉ repo.ids)
      (hfull : digits.toLower = ObjectId.emptyTree.text)
  | none (lead : IsLead digits) (hnone : ∀ id, ¬ repo.OnlyFits digits id)
      (hother : digits.toLower ≠ ObjectId.emptyTree.text)

theorem sought (repo : Repository) (digits : String) : repo.Sought digits := by
  by_cases lead : IsLead digits
  · by_cases hone : ∃ id, repo.OnlyFits digits id
    · obtain ⟨id, only⟩ := hone
      exact .only lead only
    · have hnone := not_exists.mp hone
      by_cases hfull : digits.toLower = ObjectId.emptyTree.text
      · exact .spare lead (fun hstored => hnone _ (onlyFits_of_spelled hstored hfull)) hfull
      · exact .none lead hnone hfull
  · exact .refused lead

theorem withDigits?_eq_some_iff : repo.withDigits? digits = .ok (some id) ↔ IsLead digits ∧
    (repo.OnlyFits digits id ∧ repo.Holds id ∨
      id = .emptyTree ∧ .emptyTree ∉ repo.ids ∧ digits.toLower = ObjectId.emptyTree.text) := by
  constructor
  · intro hfound
    have holds := holds_of_withDigits? hfound
    cases repo.sought digits with
    | refused hlead =>
        rw [withDigits?_of_not_isLead hlead] at hfound
        cases hfound
    | @only alone lead only =>
        rw [only.withDigits? lead] at hfound
        by_cases hread : repo.Holds alone
        · rw [present_of_holds hread] at hfound
          cases hfound
          exact ⟨lead, .inl ⟨only, holds⟩⟩
        · rw [present_of_unreadable only.stored hread] at hfound
          cases hfound
    | spare lead hnew hfull =>
        rw [withDigits?_emptyTree lead hnew hfull] at hfound
        cases hfound
        exact ⟨lead, .inr ⟨rfl, hnew, hfull⟩⟩
    | none lead hnone hother =>
        rw [withDigits?_of_none lead hnone hother] at hfound
        cases hfound
  · rintro ⟨lead, ⟨only, holds⟩ | ⟨rfl, hnew, hfull⟩⟩
    · rw [only.withDigits? lead, present_of_holds holds]
    · exact withDigits?_emptyTree lead hnew hfull

theorem withDigits?_eq_error_iff : repo.withDigits? digits = .error fault ↔
    fault = .internal ∧ IsLead digits ∧ ∃ id, repo.OnlyFits digits id ∧ ¬ repo.Holds id := by
  constructor
  · intro hfault
    cases repo.sought digits with
    | refused hlead =>
        rw [withDigits?_of_not_isLead hlead] at hfault
        cases hfault
    | @only alone lead only =>
        rw [only.withDigits? lead] at hfault
        by_cases hread : repo.Holds alone
        · rw [present_of_holds hread] at hfault
          cases hfault
        · rw [present_of_unreadable only.stored hread] at hfault
          cases hfault
          exact ⟨rfl, lead, alone, only, hread⟩
    | spare lead hnew hfull =>
        rw [withDigits?_emptyTree lead hnew hfull] at hfault
        cases hfault
    | none lead hnone hother =>
        rw [withDigits?_of_none lead hnone hother] at hfault
        cases hfault
  · rintro ⟨rfl, lead, id, only, unreadable⟩
    rw [only.withDigits? lead, present_of_unreadable only.stored unreadable]

theorem withDigits?_text (hstored : id ∈ repo.ids) (holds : repo.Holds id) :
    repo.withDigits? id.text = .ok (some id) :=
  withDigits?_eq_some_iff.mpr ⟨ObjectId.isLead_text (isStorable_of_mem_ids hstored),
    .inl ⟨onlyFits_of_spelled hstored (ObjectId.toLower_text id), holds⟩⟩

/-! ### Abbreviations of an id -/

theorem withDigits?_short_iff (hstored : id ∈ repo.ids) (holds : repo.Holds id) (hcount : 4 ≤ count) :
    repo.withDigits? (id.short count) = .ok (some id) ↔
      ∀ other ∈ repo.ids, other.short count = id.short count → other = id := by
  have lead := ObjectId.isLead_short (isStorable_of_mem_ids hstored) hcount
  rw [withDigits?_eq_some_iff, ← onlyFits_short_iff hstored]
  constructor
  · rintro ⟨_, ⟨only, _⟩ | ⟨rfl, hnew, _⟩⟩
    · exact only
    · exact absurd hstored hnew
  · exact fun only => ⟨lead, .inl ⟨only, holds⟩⟩

theorem withDigits?_longer (hmore : count ≤ more) (hfound : repo.withDigits? (id.short count) = .ok (some id)) :
    repo.withDigits? (id.short more) = .ok (some id) := by
  obtain ⟨object, hobject⟩ := holds_of_withDigits? hfound
  obtain ⟨lead, hcases⟩ := withDigits?_eq_some_iff.mp hfound
  have hcount : 4 ≤ count := by
    have henough := lead.enough
    rw [ObjectId.toList_short, List.length_take] at henough
    omega
  have hlonger := ObjectId.isLead_short (isStorable_of_object hobject) (hcount.trans hmore)
  refine withDigits?_eq_some_iff.mpr ⟨hlonger, ?_⟩
  rcases hcases with ⟨only, holds⟩ | ⟨rfl, hnew, hfull⟩
  · exact .inl ⟨only.longer hmore, holds⟩
  · -- All digits are there already, so that there are no more of them.
    refine .inr ⟨rfl, hnew, ?_⟩
    rw [ObjectId.toLower_short, ← String.toList_inj, ObjectId.toList_short] at hfull ⊢
    exact List.take_of_length_le ((List.take_eq_self_iff _).mp hfull |>.trans hmore)

theorem OnlyFits.of_toLower_eq (only : repo.OnlyFits left id) (hcase : left.toLower = right.toLower) :
    repo.OnlyFits right id := by
  have hfits : ∀ other : ObjectId, other.fits left = other.fits right := fun other => by
    rw [ObjectId.fits, ObjectId.fits, hcase]
  exact ⟨only.stored, hfits id ▸ only.fits, fun other hother h => only.only other hother (hfits other ▸ h)⟩

theorem withDigits?_eq_of_toLower_eq (hcase : left.toLower = right.toLower) :
    repo.withDigits? left = repo.withDigits? right := by
  have hlead : IsLead left → IsLead right := ObjectId.isLead_of_toLower_eq hcase
  cases repo.sought left with
  | refused hrefused =>
      have hright : ¬ IsLead right := fun lead => hrefused (ObjectId.isLead_of_toLower_eq hcase.symm lead)
      rw [withDigits?_of_not_isLead hrefused, withDigits?_of_not_isLead hright]
  | only lead only => rw [only.withDigits? lead, (only.of_toLower_eq hcase).withDigits? (hlead lead)]
  | spare lead hnew hfull =>
      rw [withDigits?_emptyTree lead hnew hfull, withDigits?_emptyTree (hlead lead) hnew (hcase ▸ hfull)]
  | none lead hnone hother =>
      rw [withDigits?_of_none lead hnone hother,
        withDigits?_of_none (hlead lead) (fun id only => hnone id (only.of_toLower_eq hcase.symm)) (hcase ▸ hother)]

/-! ### Looking up digits -/

/-- How a store looks up digits, whatever is stored in it. -/
structure LooksUpDigits (repo : Repository) : Prop where
  /-- Digits name the only stored object that they fit, and the tree without entries if it is spelled in
  full and not stored. -/
  found_iff : ∀ digits id, repo.withDigits? digits = .ok (some id) ↔ IsLead digits ∧
    (repo.OnlyFits digits id ∧ repo.Holds id ∨
      id = .emptyTree ∧ .emptyTree ∉ repo.ids ∧ digits.toLower = ObjectId.emptyTree.text)
  /-- The only fault is an object that cannot be read. -/
  fails_iff : ∀ digits fault, repo.withDigits? digits = .error fault ↔
    fault = .internal ∧ IsLead digits ∧ ∃ id, repo.OnlyFits digits id ∧ ¬ repo.Holds id
  short_iff : ∀ id ∈ repo.ids, repo.Holds id → ∀ count, 4 ≤ count →
    (repo.withDigits? (id.short count) = .ok (some id) ↔
      ∀ other ∈ repo.ids, other.short count = id.short count → other = id)
  longer : ∀ (id : ObjectId) (count more : Nat), count ≤ more →
    repo.withDigits? (id.short count) = .ok (some id) → repo.withDigits? (id.short more) = .ok (some id)
  anyCase : ∀ left right : String, left.toLower = right.toLower →
    repo.withDigits? left = repo.withDigits? right

theorem looksUpDigits (repo : Repository) : repo.LooksUpDigits where
  found_iff _ _ := withDigits?_eq_some_iff
  fails_iff _ _ := withDigits?_eq_error_iff
  short_iff _ hstored holds _ hcount := withDigits?_short_iff hstored holds hcount
  longer _ _ _ hmore hfound := withDigits?_longer hmore hfound
  anyCase _ _ hcase := withDigits?_eq_of_toLower_eq hcase

/-- Nobody stored the tree without entries, and it is found under its full id, though under none of its
abbreviations. The draft that cannot be read is a fault, though no other object fits its digits. -/
theorem lookup_withDrafts :
    ¬ withDrafts.OnlyFits ObjectId.emptyTree.text .emptyTree ∧
    withDrafts.withDigits? ObjectId.emptyTree.text = .ok (some .emptyTree) ∧
    withDrafts.withDigits? (ObjectId.emptyTree.short 39) = .ok none ∧
    withDrafts.OnlyFits tornDraft.text tornDraft ∧
    withDrafts.withDigits? tornDraft.text = .error .internal := by
  have hnew : ObjectId.emptyTree ∉ withDrafts.ids := by decide +kernel
  have hfitting : withDrafts.fitting tornDraft.text = [tornDraft] := by decide +kernel
  exact ⟨fun only => hnew only.stored, by decide +kernel, by decide +kernel,
    fitting_eq_singleton_iff.mp hfitting, by decide +kernel⟩

example : withDrafts.withDigits? "33333" = .ok (some draft) := by decide +kernel

end Repository

end GuardedRevision
