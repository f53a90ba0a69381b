import GuardedRevision.Proofs.ByteOrder
import GuardedRevision.Proofs.Generations

/-!
# The refs of a folder

A pattern that spells out a folder and ends with an asterisk matches every name in the folder. So what is
listed for it are the refs of the folder, and none of them is lost to the pattern.
-/

namespace GuardedRevision

namespace RefName

variable {space text rest : String}

theorem isUnder_iff : isUnder space text = true ↔ ∃ rest, text = space ++ rest := by
  unfold isUnder
  rw [List.isPrefixOf_iff_prefix]
  constructor
  · rintro ⟨rest, hrest⟩
    exact ⟨String.ofList rest, by rw [← String.ofList_toList (s := text), ← hrest, String.ofList_append,
      String.ofList_toList]⟩
  · rintro ⟨rest, rfl⟩
    exact ⟨rest.toList, String.toList_append.symm⟩

theorem after?_eq_some_iff : after? space text = some rest ↔ text = space ++ rest := by
  change Option.map String.ofList (if isUnder space text then some (text.toList.drop space.toList.length) else none) =
    _ ↔ _
  by_cases hunder : isUnder space text = true
  · obtain ⟨found, rfl⟩ := isUnder_iff.mp hunder
    rw [if_pos hunder, String.toList_append, List.drop_left, Option.map_some, String.ofList_toList,
      Option.some.injEq, String.append_right_inj]
  · rw [if_neg hunder]
    exact ⟨fun hnone => (nomatch hnone), fun heq => absurd (isUnder_iff.mpr ⟨rest, heq⟩) hunder⟩

end RefName

namespace Text

open ObjectText (bytes bytes_eq bytes_append)

/-- A text that a store can be handed, without characters that mean something else in a pattern, and with
a slash at its end. -/
structure SpellsFolder (folder : String) : Prop where
  nul : folder.toList.contains '\x00' = false
  plain : folder.toList.any isSpecial = false
  slash : folder.toList.getLast? = some '/'

namespace Glob

variable {c : Char} {b : UInt8} {lead rest text : List UInt8} {parts : List GlobPart}

def IsPlain (b : UInt8) : Prop := b ≠ code '*' ∧ b ≠ code '?' ∧ b ≠ code '[' ∧ b ≠ code '\\'

theorem toNat_of_mem_encode (hmem : b ∈ String.utf8EncodeChar c) (hascii : b.toNat < 128) :
    c.toNat = b.toNat := by
  change c.val.toNat = _
  simp only [String.utf8EncodeChar] at hmem
  split_ifs at hmem <;>
    simp only [List.mem_cons, List.not_mem_nil, or_false, ← UInt8.toNat_inj, UInt8.toNat_ofNat'] at hmem <;>
    omega

theorem isPlain_of_mem_bytes {folder : String} (plain : folder.toList.any isSpecial = false)
    (hmem : b ∈ bytes folder) : IsPlain b := by
  rw [bytes_eq] at hmem
  obtain ⟨c, hc, hb⟩ := List.mem_flatMap.mp hmem
  have hsame (special : Char) (hcode : (code special).toNat = special.toNat) (hascii : special.toNat < 128)
      (heq : b = code special) : c = special := by
    subst heq
    exact Char.toNat_inj.mp ((toNat_of_mem_encode hb (by omega)).trans hcode)
  obtain ⟨⟨⟨hany, hmany⟩, hbracket⟩, hescape⟩ := by
    simpa [isSpecial] using List.any_eq_false.mp plain c hc
  exact ⟨fun heq => hmany (hsame '*' rfl (by decide) heq), fun heq => hany (hsame '?' rfl (by decide) heq),
    fun heq => hbracket (hsame '[' rfl (by decide) heq), fun heq => hescape (hsame '\\' rfl (by decide) heq)⟩

/-- Bytes that stand for themselves are read as such. -/
theorem parts?_lead (plain : ∀ b ∈ lead, IsPlain b) :
    parts? (lead.length + 2) (lead ++ [code '*']) = some (lead.map .byte ++ [.many]) := by
  induction lead with
  | nil => rfl
  | cons b rest ih =>
      obtain ⟨⟨hmany, hany, hbracket, hescape⟩, hrest⟩ := List.forall_mem_cons.mp plain
      have hself : escaped? (b :: (rest ++ [code '*'])) = some (b, rest ++ [code '*']) := by
        rw [escaped?.eq_def]
        simp only [beq_false_of_ne hescape, Bool.false_eq_true, if_false]
      rw [List.length_cons, List.cons_append, Nat.add_right_comm, parts?, beq_false_of_ne hmany, beq_false_of_ne hany,
        beq_false_of_ne hbracket, hself]
      simp [ih hrest]

/-! ### What the parts cover -/

theorem oneMore_cons {d : UInt8} {holds : UInt8 → Bool} {here : Bool} {covered : List Bool} (hne : covered ≠ []) :
    coveredTails.oneMore (d :: text) holds (here :: covered) =
      (holds d && covered.headD false) :: coveredTails.oneMore text holds covered := by
  obtain ⟨first, later, rfl⟩ := List.exists_cons_of_ne_nil hne
  rfl

theorem coveredTails_ne_nil (text : List UInt8) (parts : List GlobPart) : coveredTails text parts ≠ [] := by
  induction parts with
  | nil => simp [coveredTails]
  | cons part parts ih =>
      cases part with
      | many =>
          obtain ⟨first, later, hcovered⟩ := List.exists_cons_of_ne_nil ih
          simp [coveredTails, hcovered]
      | _ => simp [coveredTails, coveredTails.oneMore]

theorem exists_coveredTails_cons (d : UInt8) (text : List UInt8) (parts : List GlobPart) :
    ∃ here, coveredTails (d :: text) parts = here :: coveredTails text parts := by
  induction parts with
  | nil => exact ⟨false, rfl⟩
  | cons part parts ih =>
      obtain ⟨here, hcovered⟩ := ih
      cases part with
      | many => exact ⟨_, by rw [coveredTails, hcovered]; rfl⟩
      | byte b => exact ⟨_, by rw [coveredTails, hcovered, oneMore_cons (coveredTails_ne_nil _ _)]; rfl⟩
      | any => exact ⟨_, by rw [coveredTails, hcovered, oneMore_cons (coveredTails_ne_nil _ _)]; rfl⟩
      | oneOf negated members =>
          exact ⟨_, by rw [coveredTails, hcovered, oneMore_cons (coveredTails_ne_nil _ _)]; rfl⟩

theorem headD_coveredTails_many (text : List UInt8) : (coveredTails text [.many]).headD false = true := by
  induction text with
  | nil => rfl
  | cons d text ih =>
      rw [coveredTails] at ih ⊢
      simp only [coveredTails, List.map_cons, List.cons_append, List.foldr_cons, List.headD_cons] at ih ⊢
      rw [ih, Bool.or_true]

theorem headD_coveredTails_byte :
    (coveredTails (b :: text) (.byte b :: parts)).headD false = (coveredTails text parts).headD false := by
  obtain ⟨here, hcovered⟩ := exists_coveredTails_cons b text parts
  rw [coveredTails, hcovered, oneMore_cons (coveredTails_ne_nil _ _), List.headD_cons, beq_self_eq_true,
    Bool.true_and]

theorem headD_coveredTails_lead (lead text : List UInt8) :
    (coveredTails (lead ++ text) (lead.map .byte ++ [.many])).headD false = true := by
  induction lead with
  | nil => exact headD_coveredTails_many text
  | cons b rest ih =>
      rw [List.map_cons, List.cons_append, List.cons_append, headD_coveredTails_byte, ih]

end Glob

theorem matchesGlob_of_parts {pattern text : String} {parts : List GlobPart}
    (hparts : Glob.parts? ((bytes pattern).length + 1) (bytes pattern) = some parts) :
    matchesGlob pattern text = (Glob.coveredTails (bytes text) parts).headD false := by
  unfold matchesGlob
  dsimp only
  rw [show Glob.parts? (pattern.toUTF8.data.toList.length + 1) pattern.toUTF8.data.toList = some parts from hparts]
  rfl

namespace SpellsFolder

variable {folder name : String} (spells : SpellsFolder folder)
include spells

theorem plainFolder?_eq : plainFolder? (folder ++ "*") = some folder := by
  have hliteral : (folder ++ "*").toList.takeWhile (!isSpecial ·) = folder.toList := by
    rw [String.toList_append, List.takeWhile_append_of_pos (by simpa using spells.plain)]
    simp [isSpecial]
  obtain ⟨before, hfolder⟩ := List.getLast?_eq_some_iff.mp spells.slash
  have hreverse : folder.toList.reverse.dropWhile (· != '/') = folder.toList.reverse := by
    rw [hfolder, List.reverse_append]
    rfl
  have hne : folder.toList.reverse ≠ [] := by simp [hfolder]
  rw [plainFolder?, hliteral, hreverse]
  split
  · next hnil => exact absurd hnil hne
  · rw [List.reverse_reverse, String.ofList_toList]

theorem matchesGlob_of_isUnder (hunder : RefName.isUnder folder name = true) :
    matchesGlob (folder ++ "*") name = true := by
  obtain ⟨rest, rfl⟩ := RefName.isUnder_iff.mp hunder
  have hpattern : bytes (folder ++ "*") = bytes folder ++ [Glob.code '*'] := bytes_append folder "*"
  have hparts := Glob.parts?_lead fun b hb => Glob.isPlain_of_mem_bytes spells.plain hb
  rw [matchesGlob_of_parts (by rw [hpattern, List.length_append, List.length_singleton, hparts]), bytes_append]
  exact Glob.headD_coveredTails_lead _ _

end SpellsFolder

end Text

namespace Repository

variable {repo : Repository} {folder : String}

theorem nodup_refNames : (repo.refNames folder).Nodup := by
  refine pairwise_refNames.imp fun hless heq => ?_
  rw [heq] at hless
  exact String.lt_irrefl _ hless

theorem listRefsUnder_eq (spells : Text.SpellsFolder folder) :
    repo.listRefsUnder folder = repo.entries (repo.refNames folder) := by
  unfold listRefsUnder
  rw [if_neg (by simp only [spells.nul, Bool.false_eq_true, not_false_eq_true])]
  dsimp only
  rw [spells.plainFolder?_eq, Option.getD_some, List.filter_eq_self.mpr]
  intro name hmem
  exact spells.matchesGlob_of_isUnder (mem_refNames.mp hmem).1

end Repository

theorem RefName.spellsFolder_tags : Text.SpellsFolder tags := ⟨by decide, by decide, by decide⟩

end GuardedRevision
