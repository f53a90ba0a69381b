import GuardedRevision.Proofs.Sorted
import GuardedRevision.Proofs.Visibility

/-!
# Groups of tips

The tips of a list of refs, said of one id at a time: which group it stands in, and where in it. A sweep over
the entries sorted by their groups, which skips every tip that it has put somewhere already, gathers the same.
-/

namespace GuardedRevision

/-! ### First occurrences -/

section FirstOccurrences

variable {id : ObjectId} {items : List ObjectId}

theorem eraseDups_filter (keeps : ObjectId → Bool) (items : List ObjectId) :
    (items.filter keeps).eraseDups = items.eraseDups.filter keeps := by
  induction hlength : items.length using Nat.strongRecOn generalizing items with
  | _ length ih =>
      cases items with
      | nil => rfl
      | cons id rest =>
          have hshort : (rest.filter fun other => !other == id).length < length := by
            have hle := List.length_filter_le (fun other => !other == id) rest
            rw [List.length_cons] at hlength
            omega
          have hrest := ih _ hshort (rest.filter fun other => !other == id) rfl
          rw [List.eraseDups_cons]
          by_cases hkeeps : keeps id = true
          · rw [List.filter_cons_of_pos hkeeps, List.filter_cons_of_pos hkeeps, List.eraseDups_cons,
              ← hrest, List.filter_filter, List.filter_filter]
            simp only [Bool.and_comm]
          · -- An id that is not kept is none of the others that are, so leaving it out changes nothing.
            rw [List.filter_cons_of_neg hkeeps, List.filter_cons_of_neg hkeeps, ← hrest, List.filter_filter]
            refine congrArg List.eraseDups (List.filter_congr fun other _ => ?_)
            by_cases hsame : other = id
            · simp [hsame, hkeeps]
            · simp [hsame]

theorem eraseDups_concat :
    (items ++ [id]).eraseDups = if id ∈ items then items.eraseDups else items.eraseDups ++ [id] := by
  rw [List.eraseDups_append]
  by_cases hmem : id ∈ items
  · simp [List.removeAll, hmem]
  · simp [List.removeAll, hmem, List.eraseDups_cons]

/-- What is gathered from a list, each once, comes in the order in which it is first met. -/
theorem pairwise_eraseDups_map (entries : List RefEntry) (keeps : RefEntry → Bool) :
    ((entries.filter keeps).map (·.tip)).eraseDups.Pairwise fun left right =>
      entries.findIdx (fun entry => keeps entry && entry.tip == left) <
        entries.findIdx (fun entry => keeps entry && entry.tip == right) := by
  induction entries with
  | nil => exact List.Pairwise.nil
  | cons entry rest ih =>
      simp only [List.findIdx_cons]
      by_cases hkeeps : keeps entry = true
      · rw [List.filter_cons_of_pos hkeeps, List.map_cons, List.eraseDups_cons, eraseDups_filter]
        have hfirst : (keeps entry && entry.tip == entry.tip) = true := by simp [hkeeps]
        have hlater : ∀ id ∈ ((rest.filter keeps).map (·.tip)).eraseDups.filter fun other => !other == entry.tip,
            (keeps entry && entry.tip == id) = false := by
          intro id hid
          have hne : id ≠ entry.tip := by simpa using (List.mem_filter.mp hid).2
          simp [hne.symm]
        refine List.pairwise_cons.mpr ⟨fun id hid => ?_, ?_⟩
        · rw [hfirst, hlater id hid]
          exact Nat.succ_pos _
        · refine (ih.filter _).imp_of_mem fun {left right} hleft hright hless => ?_
          rw [hlater left hleft, hlater right hright]
          exact Nat.succ_lt_succ hless
      · rw [List.filter_cons_of_neg hkeeps]
        refine ih.imp fun {left right} hless => ?_
        simpa [hkeeps] using hless

end FirstOccurrences

/-! ### What a grouping is -/

inductive TipGroup where
  | heads
  | tags
  | other
  deriving DecidableEq

namespace TipGroup

def of (name : RefName) : TipGroup :=
  if name.isBranch then .heads else if name.isTag then .tags else .other

def rank : TipGroup → Nat
  | .heads => 0
  | .tags => 1
  | .other => 2

end TipGroup

namespace Tips

def of (tips : Tips) : TipGroup → List ObjectId
  | .heads => tips.heads
  | .tags => tips.tags
  | .other => tips.other

def ids (tips : Tips) : List ObjectId := tips.stages.flatten

end Tips

namespace BrowsePolicy

def Allows (policy : BrowsePolicy) (name : RefName) : Prop :=
  ∀ space ∈ policy.excluded, ¬ space.toList <+: name.text.toList

/-- An entry that may be browsed and puts the id into the group. -/
def Offers (policy : BrowsePolicy) (group : TipGroup) (id : ObjectId) (entry : RefEntry) : Prop :=
  policy.Allows entry.name ∧ TipGroup.of entry.name = group ∧ entry.tip = id

instance (policy : BrowsePolicy) (group : TipGroup) (id : ObjectId) : DecidablePred (policy.Offers group id) :=
  fun entry => inferInstanceAs (Decidable
    ((∀ space ∈ policy.excluded, ¬ space.toList <+: entry.name.text.toList) ∧ _ ∧ _))

/-- Where the first entry stands that puts the id into the group. -/
def firstOffer (policy : BrowsePolicy) (refs : List RefEntry) (group : TipGroup) (id : ObjectId) : Nat :=
  refs.findIdx fun entry => policy.Offers group id entry

/-- What the tips of some refs are, one id at a time. -/
structure Groups (policy : BrowsePolicy) (refs : List RefEntry) (tips : Tips) : Prop where
  once : tips.ids.Nodup
  covers : ∀ id, id ∈ tips.ids ↔ ∃ entry ∈ refs, policy.Allows entry.name ∧ entry.tip = id
  heads : ∀ id, id ∈ tips.heads ↔ ∃ entry ∈ refs, policy.Offers .heads id entry
  tags : ∀ id, id ∈ tips.tags ↔
    (∃ entry ∈ refs, policy.Offers .tags id entry) ∧ ¬ ∃ entry ∈ refs, policy.Offers .heads id entry
  other : ∀ id, id ∈ tips.other ↔
    (∃ entry ∈ refs, policy.Offers .other id entry) ∧ (¬ ∃ entry ∈ refs, policy.Offers .heads id entry) ∧
      ¬ ∃ entry ∈ refs, policy.Offers .tags id entry
  ordered : ∀ group, (tips.of group).Pairwise fun left right =>
    policy.firstOffer refs group left < policy.firstOffer refs group right
  empty : tips.isEmpty = true ↔ ∀ entry ∈ refs, ¬ policy.Allows entry.name

end BrowsePolicy

/-! ### One group after the other -/

namespace RefEntry

def tipsIn (entries : List RefEntry) (group : TipGroup) : List ObjectId :=
  (entries.filter fun entry => TipGroup.of entry.name = group).map (·.tip)

/-- The tips that the entries of earlier groups have. -/
def tipsBefore (entries : List RefEntry) (group : TipGroup) : List ObjectId :=
  (entries.filter fun entry => (TipGroup.of entry.name).rank < group.rank).map (·.tip)

/-- The tips that no earlier group has, each once. -/
def ownTips (entries : List RefEntry) (group : TipGroup) : List ObjectId :=
  ((tipsIn entries group).filter fun id => id ∉ tipsBefore entries group).eraseDups

variable {entries : List RefEntry} {group : TipGroup} {id : ObjectId}

theorem mem_tipsIn : id ∈ tipsIn entries group ↔
    ∃ entry ∈ entries, TipGroup.of entry.name = group ∧ entry.tip = id := by
  simp [tipsIn, and_assoc]

theorem mem_tipsBefore : id ∈ tipsBefore entries group ↔
    ∃ earlier : TipGroup, earlier.rank < group.rank ∧ id ∈ tipsIn entries earlier := by
  simp only [mem_tipsIn]
  constructor
  · intro hmem
    obtain ⟨entry, hentry, rfl⟩ := List.mem_map.mp hmem
    obtain ⟨hentry, hrank⟩ := List.mem_filter.mp hentry
    exact ⟨_, of_decide_eq_true hrank, entry, hentry, rfl, rfl⟩
  · rintro ⟨earlier, hrank, entry, hentry, rfl, rfl⟩
    exact List.mem_map_of_mem (List.mem_filter.mpr ⟨hentry, decide_eq_true hrank⟩)

theorem mem_ownTips :
    id ∈ ownTips entries group ↔ id ∈ tipsIn entries group ∧ id ∉ tipsBefore entries group := by
  simp [ownTips]

theorem mem_tipsBefore_heads : ¬ id ∈ tipsBefore entries .heads := by
  simp [mem_tipsBefore, TipGroup.rank]

theorem mem_tipsBefore_tags : id ∈ tipsBefore entries .tags ↔ id ∈ tipsIn entries .heads := by
  rw [mem_tipsBefore]
  constructor
  · rintro ⟨_ | _ | _, hrank, hmem⟩
    · exact hmem
    · exact absurd hrank (by decide)
    · exact absurd hrank (by decide)
  · exact fun hmem => ⟨_, by decide, hmem⟩

theorem mem_tipsBefore_other : id ∈ tipsBefore entries .other ↔
    id ∈ tipsIn entries .heads ∨ id ∈ tipsIn entries .tags := by
  rw [mem_tipsBefore]
  constructor
  · rintro ⟨_ | _ | _, hrank, hmem⟩
    · exact .inl hmem
    · exact .inr hmem
    · exact absurd hrank (by decide)
  · rintro (hmem | hmem)
    · exact ⟨_, by decide, hmem⟩
    · exact ⟨_, by decide, hmem⟩

end RefEntry

namespace Tips

open RefEntry

variable {left right tips : Tips} {id : ObjectId} {group : TipGroup}

theorem ext_of (hof : ∀ group, left.of group = right.of group) : left = right := by
  cases left
  cases right
  rw [Tips.mk.injEq]
  exact ⟨hof .heads, hof .tags, hof .other⟩

theorem mem_ids : id ∈ tips.ids ↔ ∃ group, id ∈ tips.of group := by
  simp only [ids, stages, List.mem_flatten, List.mem_cons, List.not_mem_nil, or_false]
  constructor
  · rintro ⟨stage, rfl | rfl | rfl, hmem⟩
    · exact ⟨.heads, hmem⟩
    · exact ⟨.tags, hmem⟩
    · exact ⟨.other, hmem⟩
  · rintro ⟨_ | _ | _, hmem⟩
    · exact ⟨_, .inl rfl, hmem⟩
    · exact ⟨_, .inr (.inl rfl), hmem⟩
    · exact ⟨_, .inr (.inr rfl), hmem⟩

/-- The tips of some entries, group by group. -/
def gathered (entries : List RefEntry) : Tips :=
  ⟨ownTips entries .heads, ownTips entries .tags, ownTips entries .other⟩

theorem of_gathered (entries : List RefEntry) : (gathered entries).of group = ownTips entries group := by
  cases group <;> rfl

end Tips

namespace BrowsePolicy

open RefEntry

variable {policy : BrowsePolicy} {refs : List RefEntry} {name : RefName} {group : TipGroup} {id : ObjectId}

theorem isBrowsable_iff : policy.isBrowsable name = true ↔ policy.Allows name := by
  unfold isBrowsable RefName.isUnderAny RefName.isUnder Allows
  simp

theorem tips_eq_gathered (policy : BrowsePolicy) (refs : List RefEntry) :
    policy.tips refs = .gathered (policy.browsable refs) := by
  have hgroup (keeps : RefEntry → Bool) (group : TipGroup)
      (hkeeps : ∀ entry : RefEntry, keeps entry = decide (TipGroup.of entry.name = group)) :
      ((policy.browsable refs).filter keeps).map (·.tip) = tipsIn (policy.browsable refs) group :=
    congrArg (List.map _) (List.filter_congr fun entry _ => hkeeps entry)
  have hheads := hgroup (·.name.isBranch) .heads fun entry => by
    unfold TipGroup.of
    split_ifs <;> simp_all
  have htags := hgroup (fun entry => !entry.name.isBranch && entry.name.isTag) .tags fun entry => by
    unfold TipGroup.of
    split_ifs <;> simp_all
  have hother := hgroup (fun entry => !entry.name.isBranch && !entry.name.isTag) .other fun entry => by
    unfold TipGroup.of
    split_ifs <;> simp_all
  unfold tips Tips.gathered ownTips
  simp only [hheads, htags, hother, mem_tipsBefore_heads, mem_tipsBefore_tags, mem_tipsBefore_other]
  simp

theorem of_tips : (policy.tips refs).of group = ownTips (policy.browsable refs) group := by
  rw [tips_eq_gathered, Tips.of_gathered]

theorem mem_tipsIn_browsable : id ∈ tipsIn (policy.browsable refs) group ↔
    ∃ entry ∈ refs, policy.Offers group id entry := by
  rw [mem_tipsIn]
  simp only [mem_browsable, isBrowsable_iff, Offers, and_assoc]

theorem mem_ids_tips :
    id ∈ (policy.tips refs).ids ↔ ∃ entry ∈ refs, policy.Allows entry.name ∧ entry.tip = id := by
  simp only [Tips.ids, List.mem_flatten, exists_mem_tips, isBrowsable_iff]

theorem nodup_ids_tips : (policy.tips refs).ids.Nodup := by
  have hapart (earlier later : TipGroup) (hrank : earlier.rank < later.rank) :
      List.Disjoint ((policy.tips refs).of earlier) ((policy.tips refs).of later) := by
    intro id hearlier hlater
    rw [of_tips, mem_ownTips] at hearlier hlater
    exact hlater.2 (mem_tipsBefore.mpr ⟨earlier, hrank, hearlier.1⟩)
  have hstages : (policy.tips refs).stages =
      [(policy.tips refs).of .heads, (policy.tips refs).of .tags, (policy.tips refs).of .other] := rfl
  have honce (group : TipGroup) : ((policy.tips refs).of group).Nodup := by
    rw [of_tips]
    exact Repository.nodup_eraseDups _
  rw [Tips.ids, List.nodup_flatten, hstages]
  constructor
  · simp [honce]
  · simp [hapart .heads .tags (by decide), hapart .heads .other (by decide), hapart .tags .other (by decide)]

theorem isEmpty_tips : (policy.tips refs).isEmpty = true ↔ ∀ entry ∈ refs, ¬ policy.Allows entry.name := by
  have hids : (policy.tips refs).isEmpty = true ↔ (policy.tips refs).ids = [] := by
    simp [Tips.isEmpty, Tips.ids, Tips.stages, and_assoc]
  rw [hids, List.eq_nil_iff_forall_not_mem]
  simp only [mem_ids_tips]
  constructor
  · exact fun hnone entry hentry hallows => hnone entry.tip ⟨entry, hentry, hallows, rfl⟩
  · rintro hnone id ⟨entry, hentry, hallows, _⟩
    exact hnone entry hentry hallows

theorem pairwise_firstOffer : ((policy.tips refs).of group).Pairwise fun left right =>
    policy.firstOffer refs group left < policy.firstOffer refs group right := by
  have hplaces : ∀ id, policy.firstOffer refs group id = refs.findIdx fun entry =>
      (decide (TipGroup.of entry.name = group) && policy.isBrowsable entry.name) && entry.tip == id := by
    intro id
    unfold firstOffer
    congr 1
    funext entry
    rw [Bool.eq_iff_iff, decide_eq_true_iff]
    simp only [decide_eq_true_eq, Bool.and_eq_true, beq_iff_eq, isBrowsable_iff, Offers]
    tauto
  simp only [hplaces]
  rw [of_tips, ownTips, eraseDups_filter, tipsIn, browsable, List.filter_filter]
  exact (pairwise_eraseDups_map refs _).filter _

end BrowsePolicy

/-! ### A sweep -/

namespace TipGroup

def isBefore (left right : RefEntry) : Bool := (of left.name).rank ≤ (of right.name).rank

theorem isBefore_iff {left right : RefEntry} :
    isBefore left right = true ↔ (of left.name).rank ≤ (of right.name).rank :=
  decide_eq_true_iff

theorem rank_inj {left right : TipGroup} (hrank : left.rank = right.rank) : left = right := by
  cases left <;> cases right <;> first | rfl | cases hrank

end TipGroup

namespace RefEntry

variable {entries : List RefEntry} {entry : RefEntry} {group : TipGroup} {id : ObjectId}

theorem tipsIn_concat : tipsIn (entries ++ [entry]) group =
    if TipGroup.of entry.name = group then tipsIn entries group ++ [entry.tip] else tipsIn entries group := by
  unfold tipsIn
  split_ifs with hgroup <;> simp [hgroup]

theorem tipsBefore_concat : tipsBefore (entries ++ [entry]) group =
    if (TipGroup.of entry.name).rank < group.rank then tipsBefore entries group ++ [entry.tip]
    else tipsBefore entries group := by
  unfold tipsBefore
  split_ifs with hrank <;> simp [hrank]

theorem ownTips_concat_of_ne (hne : TipGroup.of entry.name ≠ group)
    (hlast : ∀ earlier ∈ entries, (TipGroup.of earlier.name).rank ≤ (TipGroup.of entry.name).rank) :
    ownTips (entries ++ [entry]) group = ownTips entries group := by
  unfold ownTips
  rw [tipsIn_concat, if_neg hne, tipsBefore_concat]
  split_ifs with hrank
  · have hnone : tipsIn entries group = [] := by
      refine List.eq_nil_iff_forall_not_mem.mpr fun id hmem => ?_
      obtain ⟨earlier, hearlier, hgroup, _⟩ := mem_tipsIn.mp hmem
      have hle := hlast earlier hearlier
      rw [hgroup] at hle
      omega
    rw [hnone]
    rfl
  · rfl

theorem ownTips_concat_self : ownTips (entries ++ [entry]) (.of entry.name) =
    if entry.tip ∈ tipsIn entries (.of entry.name) ∨ entry.tip ∈ tipsBefore entries (.of entry.name) then
      ownTips entries (.of entry.name)
    else ownTips entries (.of entry.name) ++ [entry.tip] := by
  unfold ownTips
  rw [tipsIn_concat, if_pos rfl, tipsBefore_concat, if_neg (Nat.lt_irrefl _), List.filter_append]
  by_cases hbefore : entry.tip ∈ tipsBefore entries (.of entry.name)
  · rw [if_pos (.inr hbefore)]
    simp [hbefore]
  · have hlast : [entry.tip].filter (fun id => id ∉ tipsBefore entries (.of entry.name)) = [entry.tip] := by
      simp [hbefore]
    rw [hlast, eraseDups_concat]
    simp only [List.mem_filter, hbefore, not_false_eq_true, decide_true, and_true, or_false]

theorem mem_tips_iff (hlast : ∀ earlier ∈ entries, (TipGroup.of earlier.name).rank ≤ group.rank) :
    (∃ earlier ∈ entries, earlier.tip = id) ↔ id ∈ tipsIn entries group ∨ id ∈ tipsBefore entries group := by
  simp only [mem_tipsBefore, mem_tipsIn]
  constructor
  · rintro ⟨earlier, hearlier, htip⟩
    rcases Nat.lt_or_eq_of_le (hlast earlier hearlier) with hless | heq
    · exact .inr ⟨_, hless, earlier, hearlier, rfl, htip⟩
    · exact .inl ⟨earlier, hearlier, TipGroup.rank_inj heq, htip⟩
  · rintro (⟨earlier, hearlier, _, htip⟩ | ⟨_, _, earlier, hearlier, _, htip⟩)
    · exact ⟨earlier, hearlier, htip⟩
    · exact ⟨earlier, hearlier, htip⟩

end RefEntry

namespace Tips

open RefEntry

variable {entries : List RefEntry} {entry : RefEntry} {group target : TipGroup} {id : ObjectId} {tips : Tips}

def add (tips : Tips) (id : ObjectId) : TipGroup → Tips
  | .heads => { tips with heads := tips.heads ++ [id] }
  | .tags => { tips with tags := tips.tags ++ [id] }
  | .other => { tips with other := tips.other ++ [id] }

/-- Puts the tip of an entry into the group of its name, unless it stands in some group already. -/
def put (tips : Tips) (entry : RefEntry) : Tips :=
  if entry.tip ∈ tips.ids then tips else tips.add entry.tip (.of entry.name)

theorem of_add :
    (tips.add id target).of group = if target = group then tips.of group ++ [id] else tips.of group := by
  cases target <;> cases group <;> rfl

theorem mem_ids_gathered : id ∈ (gathered entries).ids ↔ ∃ entry ∈ entries, entry.tip = id := by
  rw [mem_ids]
  simp only [of_gathered, mem_ownTips]
  constructor
  · rintro ⟨group, hmem, _⟩
    obtain ⟨entry, hentry, _, htip⟩ := mem_tipsIn.mp hmem
    exact ⟨entry, hentry, htip⟩
  · rintro ⟨entry, hentry, rfl⟩
    have hin : entry.tip ∈ tipsIn entries (.of entry.name) := mem_tipsIn.mpr ⟨entry, hentry, rfl, rfl⟩
    by_cases hheads : entry.tip ∈ tipsIn entries .heads
    · exact ⟨.heads, hheads, mem_tipsBefore_heads⟩
    · by_cases htags : entry.tip ∈ tipsIn entries .tags
      · exact ⟨.tags, htags, fun hbefore => hheads (mem_tipsBefore_tags.mp hbefore)⟩
      · refine ⟨.other, ?_, fun hbefore => (mem_tipsBefore_other.mp hbefore).elim hheads htags⟩
        cases hgroup : TipGroup.of entry.name with
        | heads => exact absurd (hgroup ▸ hin) hheads
        | tags => exact absurd (hgroup ▸ hin) htags
        | other => exact hgroup ▸ hin

/-- Where no entry is of a later group than the next one, putting the next one in gathers it with the others. -/
theorem put_gathered
    (hlast : ∀ earlier ∈ entries, (TipGroup.of earlier.name).rank ≤ (TipGroup.of entry.name).rank) :
    (gathered entries).put entry = gathered (entries ++ [entry]) := by
  have hids : entry.tip ∈ (gathered entries).ids ↔
      entry.tip ∈ tipsIn entries (.of entry.name) ∨ entry.tip ∈ tipsBefore entries (.of entry.name) :=
    mem_ids_gathered.trans (mem_tips_iff hlast)
  apply ext_of
  intro group
  rw [of_gathered]
  unfold put
  by_cases hgroup : TipGroup.of entry.name = group
  · subst hgroup
    rw [ownTips_concat_self]
    by_cases hmem : entry.tip ∈ (gathered entries).ids
    · rw [if_pos hmem, if_pos (hids.mp hmem), of_gathered]
    · rw [if_neg hmem, if_neg (hids.not.mp hmem), of_add, if_pos rfl, of_gathered]
  · rw [ownTips_concat_of_ne hgroup hlast]
    split_ifs
    · rw [of_gathered]
    · rw [of_add, if_neg hgroup, of_gathered]

theorem foldl_put (hsorted : entries.Pairwise fun left right => TipGroup.isBefore left right = true) :
    entries.foldl put ⟨[], [], []⟩ = gathered entries := by
  induction entries using List.reverseRecOn with
  | nil => rfl
  | append_singleton entries entry ih =>
      obtain ⟨hentries, _, hlast⟩ := List.pairwise_append.mp hsorted
      rw [List.foldl_append, ih hentries, List.foldl_cons, List.foldl_nil]
      exact put_gathered fun earlier hearlier =>
        TipGroup.isBefore_iff.mp (hlast earlier hearlier entry List.mem_cons_self)

/-- Sorting by groups moves no entry past another one of its group. -/
theorem gathered_sortBy (entries : List RefEntry) :
    gathered (Sorting.sortBy TipGroup.isBefore entries) = gathered entries := by
  have hin (group : TipGroup) : tipsIn (Sorting.sortBy TipGroup.isBefore entries) group = tipsIn entries group := by
    refine congrArg (List.map _) (Sorting.filter_sortBy fun left _ right _ hleft hright => ?_)
    rw [TipGroup.isBefore_iff, of_decide_eq_true hleft, of_decide_eq_true hright]
  have hbefore (group : TipGroup) (id : ObjectId) :
      id ∈ tipsBefore (Sorting.sortBy TipGroup.isBefore entries) group ↔ id ∈ tipsBefore entries group := by
    simp only [mem_tipsBefore, hin]
  apply ext_of
  intro group
  simp only [of_gathered, ownTips, hin, hbefore]

end Tips

namespace BrowsePolicy

open RefEntry

/-- The browsable entries, sorted by their groups and then put in one by one. -/
def sweep (policy : BrowsePolicy) (refs : List RefEntry) : Tips :=
  (Sorting.sortBy TipGroup.isBefore (policy.browsable refs)).foldl Tips.put ⟨[], [], []⟩

theorem sweep_eq_tips (policy : BrowsePolicy) (refs : List RefEntry) : policy.sweep refs = policy.tips refs := by
  have hsorted := Sorting.pairwise_sortBy TipGroup.isBefore
    (fun left right hnot => TipGroup.isBefore_iff.mpr
      (Nat.le_of_not_le fun hle => absurd (TipGroup.isBefore_iff.mpr hle) (Bool.eq_false_iff.mp hnot)))
    (fun left middle right hfirst hrest => TipGroup.isBefore_iff.mpr
      ((TipGroup.isBefore_iff.mp hfirst).trans (TipGroup.isBefore_iff.mp hrest)))
    (policy.browsable refs)
  rw [sweep, Tips.foldl_put hsorted, Tips.gathered_sortBy, tips_eq_gathered]

/-- Tips are grouped as the sweep groups them. Each stands once, in the first group that an entry puts it into,
and the ids of a group follow the first entries that put them there. -/
theorem tips_grouped (policy : BrowsePolicy) (refs : List RefEntry) :
    policy.Groups refs (policy.tips refs) ∧ policy.sweep refs = policy.tips refs := by
  have hmem (group : TipGroup) (id : ObjectId) : id ∈ (policy.tips refs).of group ↔
      (∃ entry ∈ refs, policy.Offers group id entry) ∧ id ∉ tipsBefore (policy.browsable refs) group := by
    rw [of_tips, mem_ownTips, mem_tipsIn_browsable]
  refine ⟨⟨nodup_ids_tips, fun id => mem_ids_tips, fun id => ?_, fun id => ?_, fun id => ?_,
    fun group => pairwise_firstOffer, isEmpty_tips⟩, sweep_eq_tips policy refs⟩
  · refine (hmem .heads id).trans (and_iff_left mem_tipsBefore_heads)
  · refine (hmem .tags id).trans (and_congr_right' ?_)
    rw [mem_tipsBefore_tags, mem_tipsIn_browsable]
  · refine (hmem .other id).trans (and_congr_right' ?_)
    rw [mem_tipsBefore_other, mem_tipsIn_browsable, mem_tipsIn_browsable, not_or]

end BrowsePolicy

end GuardedRevision
