import GuardedRevision.ObjectText
import Mathlib.Data.List.Basic
import Mathlib.Data.String.Basic

/-!
# The order of bytes

Texts compare as the bytes of their UTF-8 form do: the first character in which two texts differ decides,
and of two characters the greater one has the greater bytes.
-/

namespace GuardedRevision.ObjectText

variable {left right : String} {c d : Char} {text other : List Char}

theorem bytes_eq (text : String) : bytes text = text.toList.flatMap String.utf8EncodeChar := by
  have hbytes : text.toUTF8 = (text.toList.flatMap String.utf8EncodeChar).toByteArray :=
    (String.utf8Encode_toList (b := text)).symm
  rw [bytes, hbytes]
  simp

theorem bytes_append (left right : String) : bytes (left ++ right) = bytes left ++ bytes right := by
  simp only [bytes_eq, String.toList_append, List.flatMap_append]

theorem toNat_laterByte (n : Nat) : (UInt8.ofNat (n % 64 + 128)).toNat = n % 64 + 128 := by
  rw [UInt8.toNat_ofNat']
  omega

theorem toNat_firstOfFour (n : Nat) : (UInt8.ofNat (n % 8 + 240)).toNat = n % 8 + 240 := by
  rw [UInt8.toNat_ofNat']
  omega

theorem encode_append_lt (hless : c < d) (after later : List UInt8) :
    String.utf8EncodeChar c ++ after < String.utf8EncodeChar d ++ later := by
  have hcode : c.val.toNat < d.val.toNat := UInt32.lt_iff_toNat_lt.mp hless
  have hbound : d.val.toNat < 1114112 := by
    have hvalid := d.valid
    simp only [UInt32.isValidChar, Nat.isValidChar] at hvalid
    omega
  -- Every byte after the first takes six bits, so the bytes are digits to the base 64.
  have hupper (n : Nat) : n / 4096 = n / 64 / 64 := by omega
  have htop (n : Nat) : n / 262144 = n / 64 / 64 / 64 := by omega
  simp only [String.utf8EncodeChar]
  split_ifs <;>
    simp only [List.cons_append, List.nil_append, List.cons_lt_cons_iff, UInt8.lt_iff_toNat_lt,
      ← UInt8.toNat_inj, toNat_laterByte, toNat_firstOfFour, UInt8.toNat_ofNat', hupper, htop,
      Nat.add_lt_add_iff_right, Nat.add_right_cancel_iff] <;>
    omega

theorem flatMap_encode_lt (hless : text < other) :
    text.flatMap String.utf8EncodeChar < other.flatMap String.utf8EncodeChar := by
  induction hless with
  | @nil d rest =>
      obtain ⟨first, later, hbytes⟩ := List.exists_cons_of_ne_nil (@String.utf8EncodeChar_ne_nil d)
      rw [List.flatMap_nil, List.flatMap_cons, hbytes, List.cons_append]
      exact List.nil_lt_cons _ _
  | cons _ ih =>
      rw [List.flatMap_cons, List.flatMap_cons]
      exact List.append_left_lt ih
  | rel hless =>
      rw [List.flatMap_cons, List.flatMap_cons]
      exact encode_append_lt hless _ _

theorem bytes_lt (hless : left < right) : bytes left < bytes right := by
  rw [bytes_eq, bytes_eq]
  exact flatMap_encode_lt (String.lt_iff_toList_lt.mp hless)

theorem bytes_lt_iff : bytes left < bytes right ↔ left < right := by
  refine ⟨fun hbytes => ?_, bytes_lt⟩
  rcases lt_trichotomy left right with hless | rfl | hmore
  · exact hless
  · exact absurd hbytes (List.lt_irrefl _)
  · exact absurd hbytes (List.lt_asymm (bytes_lt hmore))

end GuardedRevision.ObjectText
