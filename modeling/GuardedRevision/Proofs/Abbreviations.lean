import GuardedRevision.Proofs.FragmentGrammar
import GuardedRevision.Proofs.HiddenObjects

/-!
# Abbreviations

An abbreviation names an object when a single stored id begins with its digits. Every stored id counts,
whether its object may be shown or not, so one that no ref leads to can leave an abbreviation without a
meaning. That is the only thing it can do to one.
-/

namespace GuardedRevision

def ObjectId.fits (digits : String) (id : ObjectId) : Bool :=
  digits.toLower.toList.isPrefixOf id.text.toList

variable {policy : BrowsePolicy} {capacity : Nat} {repo larger : Repository}
  {memo : VisibilityMemo} {id added : ObjectId} {text : String} {roots : List ObjectId}
  {fragmentText : List Char} {expression : Expression}

/-! ### Digits as expressions -/

section Digits

variable (hlike : ObjectId.isHashLike text = true)
include hlike

theorem ObjectId.isHexDigit_of_mem {c : Char} (hmem : c ∈ text.toList) : isHexDigit c = true := by
  simp only [isHashLike, Bool.and_eq_true, List.all_eq_true] at hlike
  exact hlike.2 c hmem

theorem ObjectId.not_mem_of_isHashLike {c : Char} (hother : isHexDigit c = false) :
    c ∉ text.toList := by
  intro hmem
  rw [isHexDigit_of_mem hlike hmem] at hother
  cases hother

theorem ObjectId.toList_ne_nil_of_isHashLike : text.toList ≠ [] := by
  intro hnil
  have hempty : text = "" := String.toList_eq_nil_iff.mp hnil
  subst hempty
  exact absurd hlike (by decide)

theorem Fragment.read?_of_isHashLike : read? text.toList = some ⟨text.toList, []⟩ := by
  have hforeign : ∀ c ∈ forbidden ++ ['^', '~', '/', '.'], c ∉ text.toList := by
    intro c hmem
    have hall : (forbidden ++ ['^', '~', '/', '.']).all (fun c => !isHexDigit c) = true := by decide
    exact ObjectId.not_mem_of_isHashLike hlike (by simpa using List.all_eq_true.mp hall c hmem)
  have hslash : '/' ∉ text.toList := hforeign '/' (by decide)
  have hdot : '.' ∉ text.toList := hforeign '.' (by decide)
  have hbase : BaseText text.toList :=
    { nonempty := ObjectId.toList_ne_nil_of_isHashLike hlike
      unmarked := fun c hmem => hforeign c (List.mem_append_right _ (List.mem_append_left ['/', '.'] hmem))
      opens := fun hhead => hslash (List.mem_of_head? hhead)
      closes := fun hlast => hslash (List.mem_of_getLast? hlast)
      single := fun hinside => hslash (hinside.subset List.mem_cons_self) }
  have hplain : Plain text.toList :=
    ⟨fun c hmem => hforeign c (List.mem_append_left _ hmem),
      fun hinside => hdot (hinside.subset List.mem_cons_self)⟩
  exact read?_eq_some_iff.mpr ⟨hbase, hplain, [], (List.append_nil _).symm, .nil⟩

theorem Expression.read?_of_isHashLike : read? text.toList = some (.single text.toList) := by
  have hslash : '/' ∉ text.toList := ObjectId.not_mem_of_isHashLike hlike (by decide)
  have hdot : '.' ∉ text.toList := ObjectId.not_mem_of_isHashLike hlike (by decide)
  have hcaret : '^' ∉ text.toList := ObjectId.not_mem_of_isHashLike hlike (by decide)
  have hbody : body text.toList = text.toList := by
    unfold body Text.afterLead?
    rw [if_neg, Option.getD_none]
    intro hlead
    exact hslash ((List.isPrefixOf_iff_prefix.mp hlead).subset List.mem_cons_self)
  unfold read?
  rw [hbody, if_neg (by simpa using ObjectId.toList_ne_nil_of_isHashLike hlike), ofBody,
    Text.breakOn_eq_none hdot, Text.breakOn_eq_none hcaret]

theorem Expression.candidates_of_isHashLike : candidates text.toList = [(text.toList, [])] := by
  have hslash : '/' ∉ text.toList := ObjectId.not_mem_of_isHashLike hlike (by decide)
  simp [candidates, Text.pathSplits_eq_singleton hslash, ObjectId.toList_ne_nil_of_isHashLike hlike]

theorem Expression.bases_of_isHashLike : bases text = [text] := by
  have hfragments : (Expression.single text.toList).fragments = [text.toList] := by
    rw [fragments, candidates_of_isHashLike hlike, List.map_singleton]
  unfold bases
  rw [read?_of_isHashLike hlike]
  dsimp only
  rw [hfragments, List.filterMap_cons, Fragment.read?_of_isHashLike hlike]
  simp

end Digits

theorem ObjectId.isHashLike_of_isAbbreviation (hshort : isAbbreviation text = true) :
    isHashLike text = true := by
  rw [isAbbreviation, Bool.and_eq_true] at hshort
  exact hshort.1

theorem Expression.bases_of_isAbbreviation (hshort : ObjectId.isAbbreviation text = true) :
    bases text = [text] :=
  bases_of_isHashLike (ObjectId.isHashLike_of_isAbbreviation hshort)

/-! ### What is not there -/

namespace Repository

theorem resolveFragment_of_absent (habsent : ∀ fragment, Fragment.read? fragmentText = some fragment →
    repo.base (String.ofList fragment.base) = .ok none) :
    Gives (repo.resolveFragment roots fragmentText) memo none memo := by
  unfold resolveFragment
  split
  · next fragment hread =>
      rw [habsent fragment hread]
      exact gives_liftM_bind.mpr ⟨none, rfl, gives_pure.mpr ⟨rfl, rfl⟩⟩
  · exact gives_pure.mpr ⟨rfl, rfl⟩

theorem resolveFirst_of_absent {candidates : List (List Char × List Char)}
    (habsent : ∀ candidate ∈ candidates, Gives (repo.resolveFragment [] candidate.1) memo none memo) :
    Gives (repo.resolveFirst candidates) memo none memo := by
  induction candidates with
  | nil => exact gives_pure.mpr ⟨rfl, rfl⟩
  | cons candidate shorter ih =>
      obtain ⟨hcandidate, hshorter⟩ := List.forall_mem_cons.mp habsent
      exact gives_bind.mpr ⟨none, memo, hcandidate, ih hshorter⟩

theorem resolveExpression_of_absent (habsent : ∀ fragmentText ∈ expression.fragments,
    Gives (repo.resolveFragment [] fragmentText) memo none memo) :
    Gives (repo.resolveExpression expression) memo none memo := by
  cases expression with
  | single text =>
      refine gives_bind.mpr ⟨none, memo, resolveFirst_of_absent fun candidate hmem => ?_,
        gives_pure.mpr ⟨rfl, rfl⟩⟩
      exact habsent candidate.1 (List.mem_map_of_mem hmem)
  | againstParent name rest =>
      simp only [Expression.fragments] at habsent
      simp only [resolveExpression, resolveAgainstParent]
      split
      · exact gives_pure.mpr ⟨rfl, rfl⟩
      · next hwell =>
          rw [if_neg hwell, List.forall_mem_singleton] at habsent
          exact gives_bind.mpr ⟨none, memo, habsent, gives_pure.mpr ⟨rfl, rfl⟩⟩
  | range old new =>
      simp only [Expression.fragments] at habsent
      simp only [resolveExpression, resolveRange]
      split
      · exact gives_pure.mpr ⟨rfl, rfl⟩
      · next hwell =>
          rw [if_neg hwell, List.forall_mem_cons] at habsent
          refine gives_bind.mpr ⟨none, memo, resolveFirst_of_absent fun candidate hmem => ?_,
            gives_pure.mpr ⟨rfl, rfl⟩⟩
          exact habsent.2 candidate.1 (List.mem_map_of_mem hmem)

theorem resolve_of_absent (habsent : ∀ base ∈ Expression.bases text, repo.base base = .ok none) :
    Gives (repo.resolve text) memo none memo := by
  unfold resolve
  split
  · exact gives_pure.mpr ⟨rfl, rfl⟩
  · next expression hread =>
      refine resolveExpression_of_absent fun fragmentText hmem => ?_
      exact resolveFragment_of_absent fun fragment hfragment =>
        habsent _ (Expression.mem_bases hread hmem hfragment)

/-! ### The ids that digits fit -/

def fitting (repo : Repository) (digits : String) : List ObjectId :=
  repo.ids.filter (ObjectId.fits digits)

theorem mem_fitting : id ∈ repo.fitting text ↔ id ∈ repo.ids ∧ id.fits text = true := List.mem_filter

theorem withDigits?_of_isAbbreviation (hshort : ObjectId.isAbbreviation text = true) :
    repo.withDigits? text = match repo.fitting text with
      | [id] => repo.present id
      | _ => .ok none := by
  have hlower : text.toLower.utf8ByteSize = text.utf8ByteSize :=
    ObjectId.utf8ByteSize_toLower fun _ =>
      ObjectId.isHexDigit_of_mem (ObjectId.isHashLike_of_isAbbreviation hshort)
  rw [ObjectId.isAbbreviation, Bool.and_eq_true, decide_eq_true_eq] at hshort
  obtain ⟨hlike, hfew⟩ := hshort
  have hparse : ∃ error, ObjectId.parse text = .error error := by
    have hshorter : text.utf8ByteSize < ObjectId.longDigits :=
      hfew.trans (by decide : ObjectId.storeDigits < ObjectId.longDigits)
    unfold ObjectId.parse
    dsimp only
    rw [hlower, if_pos ⟨by omega, by omega⟩]
    exact ⟨_, rfl⟩
  obtain ⟨error, hparse⟩ := hparse
  unfold withDigits?
  rw [hlike, decide_eq_true (Nat.le_of_lt hfew), hparse]
  rfl

theorem withDigits?_of_many (hshort : ObjectId.isAbbreviation text = true) (hne : id ≠ added)
    (hid : id ∈ repo.fitting text) (hadded : added ∈ repo.fitting text) :
    repo.withDigits? text = .ok none := by
  rw [withDigits?_of_isAbbreviation hshort]
  split
  · next only honly =>
      rw [honly, List.mem_singleton] at hid hadded
      exact absurd (hid.trans hadded.symm) hne
  · rfl

theorem resolve_of_withDigits? (hshort : ObjectId.isAbbreviation text = true)
    (hfree : repo.firstRef (refNamesOf text) = .ok none) (hnone : repo.withDigits? text = .ok none) :
    Gives (repo.resolve text) memo none memo := by
  refine resolve_of_absent ?_
  rw [Expression.bases_of_isAbbreviation hshort, List.forall_mem_singleton, Repository.base, hfree, hnone]
  rfl

theorem exists_fitting_of_resolve (hshort : ObjectId.isAbbreviation text = true)
    (hfree : repo.firstRef (refNamesOf text) = .ok none) {resolution : Resolution}
    (hfound : ((repo.resolve text).on memo).1 = .ok (some resolution)) :
    ∃ only, repo.fitting text = [only] ∧ repo.present only ≠ .ok none := by
  have hsome : repo.withDigits? text ≠ .ok none := by
    intro hnone
    have hgives : Gives (repo.resolve text) memo none memo := resolve_of_withDigits? hshort hfree hnone
    have hnothing : ((repo.resolve text).on memo).1 = .ok none := congrArg Prod.fst hgives
    rw [hfound] at hnothing
    cases hnothing
  rw [withDigits?_of_isAbbreviation hshort] at hsome
  split at hsome
  · next only honly => exact ⟨only, honly, hsome⟩
  · exact absurd rfl hsome

theorem fitting_of_spare {only : ObjectId} (hids : repo.ids ⊆ larger.ids)
    (honly : repo.fitting text = [only])
    (hspare : ¬ ∃ added ∈ larger.ids, added ∉ repo.ids ∧ added.fits text = true) :
    larger.fitting text = [only] := by
  have hsame : ∀ id, id ∈ larger.fitting text ↔ id ∈ repo.fitting text := by
    intro id
    rw [mem_fitting, mem_fitting]
    constructor
    · rintro ⟨hid, hfits⟩
      refine ⟨?_, hfits⟩
      by_contra hnew
      exact hspare ⟨id, hid, hnew, hfits⟩
    · rintro ⟨hid, hfits⟩
      exact ⟨hids hid, hfits⟩
  rw [honly] at hsame
  exact List.perm_singleton.mp ((List.perm_ext_iff_of_nodup (nodup_ids.filter _)
    (List.nodup_singleton only)).mpr hsame)

theorem Within.present_eq (within : repo.Within larger) (hsome : repo.present id ≠ .ok none) :
    larger.present id = repo.present id := by
  have hknown : repo.object id ≠ .error (.missingObject id) := by
    intro hmissing
    apply hsome
    simp only [present, hmissing]
  unfold present
  rw [within.objects hknown]

/-- An abbreviation that is resolved stands for what it stood for, unless an id was added that it fits
as well. Then it names nothing. -/
theorem Within.resolve_abbreviation (within : repo.Within larger) (complete : repo.Complete)
    (policy : BrowsePolicy) (capacity : Nat) {text : String} (hids : repo.ids ⊆ larger.ids)
    (hshort : ObjectId.isAbbreviation text = true)
    (hfree : repo.firstRef (refNamesOf text) = .ok none) {resolution : Resolution}
    (hfound : ((repo.resolve text).on (.empty policy capacity)).1 = .ok (some resolution)) :
    ((larger.resolve text).on (.empty policy capacity)).1 =
      if ∃ added ∈ larger.ids, added ∉ repo.ids ∧ added.fits text = true then .ok none
      else .ok (some resolution) := by
  obtain ⟨only, honly, hpresent⟩ := exists_fitting_of_resolve hshort hfree hfound
  obtain ⟨hstored, hfits⟩ := mem_fitting.mp (honly ▸ List.mem_singleton_self only)
  split
  · next hcrowded =>
      obtain ⟨added, hmem, hnew, hadded⟩ := hcrowded
      have hne : only ≠ added := fun heq => hnew (heq ▸ hstored)
      have hnone := withDigits?_of_many hshort hne (mem_fitting.mpr ⟨hids hstored, hfits⟩)
        (mem_fitting.mpr ⟨hmem, hadded⟩)
      have hgives : Gives (larger.resolve text) (.empty policy capacity) none
          (.empty policy capacity) :=
        resolve_of_withDigits? hshort ((within.firstRef complete _).trans hfree) hnone
      exact congrArg Prod.fst hgives
  · next hspare =>
      have hsame : larger.withDigits? text = repo.withDigits? text := by
        rw [withDigits?_of_isAbbreviation hshort, withDigits?_of_isAbbreviation hshort, honly,
          fitting_of_spare hids honly hspare]
        exact within.present_eq hpresent
      have halike : ∀ base ∈ Expression.bases text, repo.SeesAlike larger base := by
        rw [Expression.bases_of_isAbbreviation hshort, List.forall_mem_singleton]
        left
        rw [Repository.base, Repository.base, within.firstRef complete, hsame]
      rw [← hfound]
      exact within.resolve_of_seesAlike complete VisibilityMemo.kindred_empty halike

theorem resolve_abbreviation_drafts :
    underReview.Complete ∧ underReview.Within withDrafts ∧ underReview.ids ⊆ withDrafts.ids ∧
    withDrafts.ids.length = 4 ∧ ObjectId.isAbbreviation "1111" = true ∧
    underReview.firstRef (refNamesOf "1111") = .ok none ∧
    ∃ resolution, ((underReview.resolve "1111").on (.empty ⟨[]⟩ 4)).1 = .ok (some resolution) ∧
      ((withDrafts.resolve "1111").on (.empty ⟨[]⟩ 4)).1 = .ok (some resolution) := by
  have hids : underReview.ids ⊆ withDrafts.ids := by decide +kernel
  have hshort : ObjectId.isAbbreviation "1111" = true := by decide +kernel
  have hfree : underReview.firstRef (refNamesOf "1111") = .ok none := by decide +kernel
  have hfound : ((underReview.resolve "1111").on (.empty ⟨[]⟩ 4)).1 =
      .ok (some ⟨.ofCommit "1111" firstChange, none, ""⟩) := by
    decide +kernel
  have hspare : ¬ ∃ added ∈ withDrafts.ids, added ∉ underReview.ids ∧ added.fits "1111" = true := by
    decide +kernel
  have hsame := within_withDrafts.resolve_abbreviation underReview_complete ⟨[]⟩ 4 hids hshort hfree hfound
  rw [if_neg hspare] at hsame
  exact ⟨underReview_complete, within_withDrafts, hids, by decide +kernel, hshort, hfree, _, hfound, hsame⟩

/-! ### A look-alike -/

def lookAlike : ObjectId := ⟨"1111111111111111111111111111111111111112", by decide⟩

/-- The repository under review with an object that nothing points at, under an id much like that of the
first change. -/
def withLookAlike : Repository := underReview.addObjects [(lookAlike, .readable .blob)]

/-- What an abbreviation is resolved to tells whether there is a hidden object that it fits. -/
theorem resolve_abbreviation_lookAlike :
    underReview.Complete ∧ underReview.Within withLookAlike ∧ underReview.ids ⊆ withLookAlike.ids ∧
    underReview.object lookAlike = .error (.missingObject lookAlike) ∧
    ObjectId.isAbbreviation "1111" = true ∧ underReview.firstRef (refNamesOf "1111") = .ok none ∧
    ((underReview.resolve "1111").on (.empty ⟨[]⟩ 4)).1 =
      .ok (some ⟨.ofCommit "1111" firstChange, none, ""⟩) ∧
    ((withLookAlike.resolve "1111").on (.empty ⟨[]⟩ 4)).1 = .ok none :=
  ⟨underReview_complete, within_addObjects (.inl (by decide +kernel)), by decide +kernel,
    by decide +kernel, by decide +kernel, by decide +kernel, by decide +kernel, by decide +kernel⟩

end Repository

end GuardedRevision
