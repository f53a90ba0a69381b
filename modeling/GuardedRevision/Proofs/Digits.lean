import GuardedRevision.Repository
import Mathlib.Data.String.Basic

/-!
# Digits

A text of hexadecimal digits stands for an id when it has as many digits as ids have, and for what its
digits fit when it has fewer. Only the second depends on which ids are stored.
-/

namespace GuardedRevision

/-- Whether a text has the form of an id but too few digits to be one. -/
def ObjectId.isAbbreviation (text : String) : Bool :=
  isHashLike text && text.utf8ByteSize < storeDigits

theorem of_ascii (property : Char → Prop) {c : Char} (hall : ∀ n : Fin 128, property (Char.ofNat n))
    (hsmall : c.toNat < 128) : property c := by
  have hc := hall ⟨c.toNat, hsmall⟩
  rwa [Char.ofNat_toNat] at hc

theorem of_isHexDigit {c : Char} (hhex : isHexDigit c = true) :
    c.utf8Size = 1 ∧ (isHexDigit c.toLower && !c.toLower.isUpper) = true := by
  have hsmall : c.toNat < 128 := by
    simp only [isHexDigit, Char.isDigit, Bool.or_eq_true, Bool.and_eq_true, decide_eq_true_eq,
      Char.le_def, UInt32.le_iff_toNat_le] at hhex
    change c.val.toNat < 128
    rcases hhex with (⟨_, hle⟩ | ⟨_, hle⟩) | ⟨_, hle⟩
    · exact Nat.lt_of_le_of_lt hle (by decide)
    · exact Nat.lt_of_le_of_lt hle (by decide)
    · exact Nat.lt_of_le_of_lt hle (by decide)
  exact of_ascii (fun c => isHexDigit c = true → c.utf8Size = 1 ∧
    (isHexDigit c.toLower && !c.toLower.isUpper) = true) (by decide +kernel) hsmall hhex

theorem utf8Len_eq_length {digits : List Char} (hhex : ∀ c ∈ digits, isHexDigit c = true) :
    String.utf8Len digits = digits.length := by
  induction digits with
  | nil => rfl
  | cons c rest ih =>
      obtain ⟨hc, hrest⟩ := List.forall_mem_cons.mp hhex
      rw [String.utf8Len_cons, ih hrest, (of_isHexDigit hc).1, List.length_cons]

namespace ObjectId

variable {text : String}

theorem toList_toLower (text : String) : text.toLower.toList = text.toList.map Char.toLower :=
  String.toList_map

theorem length_toLower (text : String) : text.toLower.toList.length = text.toList.length := by
  rw [toList_toLower, List.length_map]

theorem utf8ByteSize_eq_length (hhex : ∀ c ∈ text.toList, isHexDigit c = true) :
    text.utf8ByteSize = text.toList.length := by
  rw [← utf8Len_eq_length hhex, ← String.utf8ByteSize_ofList, String.ofList_toList]

theorem utf8ByteSize_toLower (hhex : ∀ c ∈ text.toList, isHexDigit c = true) :
    text.toLower.utf8ByteSize = text.utf8ByteSize := by
  have hlower : ∀ c ∈ text.toLower.toList, isHexDigit c = true := by
    intro c hc
    rw [toList_toLower] at hc
    obtain ⟨original, horiginal, rfl⟩ := List.mem_map.mp hc
    exact (Bool.and_eq_true_iff.mp (of_isHexDigit (hhex original horiginal)).2).1
  calc text.toLower.utf8ByteSize
      = text.toLower.toList.length := utf8ByteSize_eq_length hlower
    _ = text.toList.length := length_toLower text
    _ = text.utf8ByteSize := (utf8ByteSize_eq_length hhex).symm

theorem exists_parse (hlike : isHashLike text = true) (hsize : text.utf8ByteSize = storeDigits) :
    ∃ id, parse text = .ok id := by
  simp only [isHashLike, Bool.and_eq_true, List.all_eq_true] at hlike
  have hlowered : text.toLower.utf8ByteSize = storeDigits :=
    (utf8ByteSize_toLower hlike.2).trans hsize
  have hcanonical : isCanonical text.toLower = true := by
    unfold isCanonical
    rw [Bool.and_eq_true, List.all_eq_true]
    refine ⟨by simp [hlowered], fun c hc => ?_⟩
    rw [toList_toLower] at hc
    obtain ⟨original, horiginal, rfl⟩ := List.mem_map.mp hc
    exact (of_isHexDigit (hlike.2 original horiginal)).2
  refine ⟨⟨text.toLower, hcanonical⟩, ?_⟩
  unfold parse
  rw [if_neg (fun hwrong => hwrong.1 hlowered), dif_pos hcanonical]

/-- Apart from abbreviations, digits name the object under the id that they spell, or nothing. -/
theorem withDigits?_cases (hfull : isAbbreviation text = false) :
    (∀ repo : Repository, repo.withDigits? text = .ok none) ∨
      ∃ id, parse text = .ok id ∧ ∀ repo : Repository, repo.withDigits? text = repo.present id := by
  by_cases hfit : isHashLike text = true ∧ text.utf8ByteSize ≤ storeDigits
  · have hsize : text.utf8ByteSize = storeDigits := by
      simp only [isAbbreviation, hfit.1, Bool.true_and, decide_eq_false_iff_not] at hfull
      omega
    obtain ⟨id, hparse⟩ := exists_parse hfit.1 hsize
    refine .inr ⟨id, hparse, fun repo => ?_⟩
    simp only [Repository.withDigits?, hfit.1, hfit.2, decide_true, Bool.and_true, if_true, hparse]
  · refine .inl fun repo => ?_
    unfold Repository.withDigits?
    rw [if_neg (by simpa using hfit)]

end ObjectId

end GuardedRevision
