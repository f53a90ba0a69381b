import GuardedRevision.Proofs.ByteOrder
import GuardedRevision.Proofs.Generations

/-!
# Digests of generations

Refs with different names have one generation in whatever order they are given, and any other refs have
another one, unless the bytes that are hashed are a collision of the hash.
-/

namespace GuardedRevision

/-! ### Hexadecimal texts -/

namespace Sha256

variable {count n m : Nat} {left right : String}

def Collide (left right : List UInt8) : Prop := left ≠ right ∧ digest left = digest right

theorem length_hexDigits (count n : Nat) : (hexDigits count n).length = count := by
  induction count generalizing n with
  | zero => rfl
  | succ count ih => rw [hexDigits, List.length_append, ih, List.length_singleton]

theorem digitChar_inj (hn : n < 16) (hm : m < 16) (hchar : Nat.digitChar n = Nat.digitChar m) : n = m := by
  have hall : ∀ n < 16, ∀ m < 16, Nat.digitChar n = Nat.digitChar m → n = m := by decide
  exact hall n hn m hm hchar

theorem hexDigits_inj (hn : n < 16 ^ count) (hm : m < 16 ^ count)
    (hdigits : hexDigits count n = hexDigits count m) : n = m := by
  induction count generalizing n m with
  | zero => omega
  | succ count ih =>
      rw [hexDigits, hexDigits] at hdigits
      obtain ⟨hfirst, hlast⟩ := List.append_inj' hdigits rfl
      have hdiv := ih (by omega) (by omega) hfirst
      have hmod := digitChar_inj (Nat.mod_lt n (by decide)) (Nat.mod_lt m (by decide)) (List.singleton_inj.mp hlast)
      omega

theorem flatMap_hexDigits_inj {words others : List UInt32} (hlength : words.length = others.length)
    (hdigits : (words.flatMap fun word => hexDigits 8 word.toNat) =
      others.flatMap fun word => hexDigits 8 word.toNat) :
    words = others := by
  induction words generalizing others with
  | nil => exact (List.length_eq_zero_iff.mp hlength.symm).symm
  | cons word words ih =>
      obtain ⟨other, others, rfl⟩ := List.exists_cons_of_length_eq_add_one hlength.symm
      rw [List.flatMap_cons, List.flatMap_cons] at hdigits
      obtain ⟨hfirst, hrest⟩ := List.append_inj hdigits (by rw [length_hexDigits, length_hexDigits])
      have hword : word = other := UInt32.toNat_inj.mp (hexDigits_inj word.toNat_lt other.toNat_lt hfirst)
      rw [hword, ih (Nat.succ.inj hlength) hrest]

theorem Registers.words_inj {left right : Registers} (hwords : left.words = right.words) : left = right := by
  cases left
  cases right
  simpa [words] using hwords

theorem hexDigest_eq_iff :
    hexDigest left = hexDigest right ↔ digest (ObjectText.bytes left) = digest (ObjectText.bytes right) := by
  constructor
  · intro hhex
    exact Registers.words_inj (flatMap_hexDigits_inj rfl (String.ofList_injective hhex))
  · intro hdigest
    unfold ObjectText.bytes at hdigest
    rw [hexDigest, hexDigest, hdigest]

end Sha256

/-! ### What is hashed -/

namespace ObjectText

theorem bytes_inj {left right : String} (hbytes : bytes left = bytes right) : left = right := by
  rcases lt_trichotomy left right with hless | heq | hmore
  · exact absurd (hbytes ▸ bytes_lt hless) (List.lt_irrefl _)
  · exact heq
  · exact absurd (hbytes ▸ bytes_lt hmore) (List.lt_irrefl _)

theorem bytes_join (texts : List String) : bytes (String.join texts) = texts.flatMap bytes := by
  have hbytes : bytes = fun text => text.toList.flatMap String.utf8EncodeChar := funext bytes_eq
  rw [hbytes]
  dsimp only
  rw [String.toList_join, List.flatMap_assoc]

end ObjectText

namespace RefGeneration

open ObjectText (bytes)

variable {lefts rights refs : List (RefName × ObjectId)}

/-- The bytes that are hashed, ref by ref in the order of names: the name, a zero, the id and a newline. -/
def hashed (refs : List (RefName × ObjectId)) : List UInt8 :=
  (byName refs).flatMap fun entry => bytes entry.1.text ++ 0 :: (bytes entry.2.text ++ [10])

theorem bytes_serialize (refs : List (RefName × ObjectId)) : bytes (serialize refs) = hashed refs := by
  have hnul : bytes "\x00" = [0] := by decide
  have hnewline : bytes "\n" = [10] := by decide
  rw [serialize, ObjectText.bytes_join, List.flatMap_map]
  refine List.flatMap_congr fun entry _ => ?_
  rw [record, ObjectText.bytes_append, ObjectText.bytes_append, ObjectText.bytes_append, hnul, hnewline]
  simp

theorem byName_perm (refs : List (RefName × ObjectId)) : (byName refs).Perm refs := Sorting.sortBy_perm _ refs

theorem pairwise_byName (refs : List (RefName × ObjectId)) :
    (byName refs).Pairwise fun left right => left.1.text ≤ right.1.text := by
  have hsorted := Sorting.pairwise_sortBy (fun left right => decide (left.1.text ≤ right.1.text))
    (fun left right hnot => decide_eq_true (le_of_not_ge (of_decide_eq_false hnot)))
    (fun left middle right hfirst hrest =>
      decide_eq_true ((of_decide_eq_true hfirst).trans (of_decide_eq_true hrest))) refs
  exact hsorted.imp of_decide_eq_true

/-- Refs with different names have one order. -/
theorem byName_eq_of_perm (hnames : (lefts.map Prod.fst).Nodup) (hperm : lefts.Perm rights) :
    byName lefts = byName rights := by
  have hlefts := byName_perm lefts
  have hsame : ∀ left ∈ byName lefts, ∀ right ∈ byName lefts, left.1.text = right.1.text → left = right :=
    fun left hleft right hright htext => List.inj_on_of_nodup_map hnames (hlefts.mem_iff.mp hleft)
      (hlefts.mem_iff.mp hright) (RefName.ext htext)
  have hboth : (byName lefts).Perm (byName rights) := hlefts.trans (hperm.trans (byName_perm rights).symm)
  apply List.Perm.eq_of_pairwise _ (pairwise_byName lefts) (pairwise_byName rights) hboth
  intro left right hleft hright hle hge
  exact hsame left hleft right (hboth.mem_iff.mpr hright) (le_antisymm hle hge)

/-- The bytes do not depend on the order, and hold every name and every id. -/
theorem hashed_eq_iff_perm (hnames : (lefts.map Prod.fst).Nodup) :
    hashed lefts = hashed rights ↔ lefts.Perm rights := by
  constructor
  · intro hbytes
    rw [← bytes_serialize, ← bytes_serialize] at hbytes
    have hsorted := byName_eq_of_serialize (ObjectText.bytes_inj hbytes)
    exact (byName_perm lefts).symm.trans (hsorted ▸ byName_perm rights)
  · intro hperm
    rw [hashed, hashed, byName_eq_of_perm hnames hperm]

theorem ofRefs_eq_iff :
    ofRefs lefts = ofRefs rights ↔ Sha256.digest (hashed lefts) = Sha256.digest (hashed rights) := by
  rw [ofRefs, ofRefs, RefGeneration.mk.injEq, Sha256.hexDigest_eq_iff, bytes_serialize, bytes_serialize]

/-- Two lists of refs have one generation exactly when they hold the same refs, or else their bytes are a
collision of the hash. -/
theorem same_generation_iff (hnames : (lefts.map Prod.fst).Nodup) :
    (hashed lefts = hashed rights ↔ lefts.Perm rights) ∧
      (ofRefs lefts = ofRefs rights ↔ lefts.Perm rights ∨ Sha256.Collide (hashed lefts) (hashed rights)) := by
  have hbytes : hashed lefts = hashed rights ↔ lefts.Perm rights := hashed_eq_iff_perm hnames
  refine ⟨hbytes, ofRefs_eq_iff.trans ⟨fun hdigest => ?_, ?_⟩⟩
  · exact (em (hashed lefts = hashed rights)).imp hbytes.mp fun hne => ⟨hne, hdigest⟩
  · rintro (hperm | ⟨_, hdigest⟩)
    · rw [hbytes.mpr hperm]
    · exact hdigest

def mainBranch : RefName := ⟨"refs/heads/main", by decide⟩

def devBranch : RefName := ⟨"refs/heads/dev", by decide⟩

theorem same_generation_twoBranches :
    ([(mainBranch, ObjectId.emptyTree), (devBranch, .emptyTree)].map Prod.fst).Nodup ∧
      ofRefs [(mainBranch, .emptyTree), (devBranch, .emptyTree)] =
        ofRefs [(devBranch, .emptyTree), (mainBranch, .emptyTree)] ∧
      hashed [(mainBranch, .emptyTree), (devBranch, .emptyTree)] ≠
        hashed [(mainBranch, .zero), (devBranch, .emptyTree)] := by
  have hnames : ([(mainBranch, ObjectId.emptyTree), (devBranch, .emptyTree)].map Prod.fst).Nodup := by decide
  refine ⟨hnames, (same_generation_iff hnames).2.mpr (.inl (List.Perm.swap _ _ _)), ?_⟩
  intro hbytes
  have hperm := (same_generation_iff hnames).1.mp hbytes
  exact absurd (hperm.mem_iff.mp List.mem_cons_self) (by decide)

end RefGeneration

end GuardedRevision
