import Mathlib.Data.List.Basic
import TrieOverlay.Text.Utf8

/-!
# Characters of one byte in encoded text

Every byte below 128 of an encoded text stands for the character with its number, so a text has a
line feed in its bytes exactly if it has one among its characters (`Utf8.mem_encode_iff`), and its
bytes end with a carriage return only if its characters do (`Utf8.getLast?_encode`).
-/

namespace TrieOverlay.Utf8

theorem encode_eq_flatMap (s : String) : encode s = s.toList.flatMap String.utf8EncodeChar := by
  rw [encode, String.toUTF8_eq_toByteArray, ← String.utf8Encode_toList, List.utf8Encode]
  exact List.toList_data_toByteArray

/-- Text that was read is what its bytes write. -/
theorem encode_of_decode? {bytes : Bytes} {s : String} (h : decode? bytes = some s) :
    encode s = bytes := by
  simp only [decode?, String.fromUTF8?] at h
  split at h
  · rename_i hv
    rw [← Option.some.inj h]
    change (String.fromUTF8 ⟨bytes.toArray⟩ hv).toByteArray.data.toList = bytes
    rfl
  · cases h

/-- A byte below 128 of a character is the number of the character, and the only byte. -/
theorem utf8EncodeChar_of_mem {c : Char} {b : UInt8} (h : b ∈ String.utf8EncodeChar c)
    (hb : b.toNat < 128) : String.utf8EncodeChar c = [b] ∧ c.toNat = b.toNat := by
  simp only [String.utf8EncodeChar] at h ⊢
  split at h
  · rename_i hc
    rw [if_pos hc]
    rw [List.mem_singleton] at h
    subst h
    refine ⟨rfl, ?_⟩
    rw [UInt8.toNat_ofNat']
    exact (Nat.mod_eq_of_lt (Nat.lt_of_le_of_lt hc (by decide))).symm
  · exfalso
    split at h
    · simp only [List.mem_cons, List.not_mem_nil, or_false] at h
      rcases h with rfl | rfl <;> rw [UInt8.toNat_ofNat'] at hb <;> omega
    · split at h
      · simp only [List.mem_cons, List.not_mem_nil, or_false] at h
        rcases h with rfl | rfl | rfl <;> rw [UInt8.toNat_ofNat'] at hb <;> omega
      · simp only [List.mem_cons, List.not_mem_nil, or_false] at h
        rcases h with rfl | rfl | rfl | rfl <;> rw [UInt8.toNat_ofNat'] at hb <;> omega

theorem mem_encode_iff {s : String} {c : Char} {b : UInt8} (hb : b.toNat < 128)
    (hc : c.toNat = b.toNat) : b ∈ encode s ↔ c ∈ s.toList := by
  rw [encode_eq_flatMap, List.mem_flatMap]
  constructor
  · rintro ⟨d, hd, h⟩
    have := (utf8EncodeChar_of_mem h hb).2
    rwa [Char.toNat_inj.1 (hc.trans this.symm)]
  · intro h
    refine ⟨c, h, ?_⟩
    have hv : c.val.toNat ≤ 0x7f := by
      change c.toNat ≤ _
      omega
    have he : UInt8.ofNat c.val.toNat = b := by
      change UInt8.ofNat c.toNat = b
      rw [hc, UInt8.ofNat_toNat]
    rw [String.utf8EncodeChar]
    change b ∈ if c.val.toNat ≤ 0x7f then _ else _
    rw [if_pos hv, he]
    exact List.mem_singleton_self b

theorem getLast?_encode {s : String} {c : Char} {b : UInt8} (hb : b.toNat < 128)
    (hc : c.toNat = b.toNat) (h : (encode s).getLast? = some b) : s.toList.getLast? = some c := by
  rw [encode_eq_flatMap] at h
  rcases List.eq_nil_or_concat' s.toList with hnil | ⟨init, d, hd⟩
  · simp [hnil] at h
  · rw [hd, List.flatMap_append, List.flatMap_singleton] at h
    rw [List.getLast?_append_of_ne_nil _ String.utf8EncodeChar_ne_nil] at h
    have := (utf8EncodeChar_of_mem (List.mem_of_getLast? h) hb).2
    rw [hd, List.getLast?_concat, Char.toNat_inj.1 (hc.trans this.symm)]

end TrieOverlay.Utf8
