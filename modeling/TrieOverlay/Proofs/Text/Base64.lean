import Mathlib.Data.Option.Basic
import TrieOverlay.Proofs.Text.Utf8
import TrieOverlay.Text.Base64

/-!
# Written bytes are read back

`Base64.decode?_encode` : the characters of a byte sequence write that sequence, and hence
(`Base64.decodeText?_encodeText`) those of a text write the text.  None of the characters is a
comma, a colon or a line end (`Base64.mem_alphabet`), so an encoded text may stand in a field.

No other characters write the sequence (`Base64.encode_of_decode?`), since the unused bits of a
last character have to be zero.
-/

namespace TrieOverlay.Base64

/-! ### The alphabet -/

/-- The characters that `digit` gives. -/
def alphabet : List Char :=
  (List.range 64).map digit

theorem digit_mem_alphabet (n : Nat) : digit n ∈ alphabet := by
  by_cases h : n < 64
  · exact List.mem_map_of_mem (List.mem_range.2 h)
  · have : digit n = digit 63 := by
      simp only [digit]
      grind
    rw [this]
    decide

theorem value?_digit {n : Nat} (h : n < 64) : value? (digit n) = some n := by
  revert n
  decide

/-! ### Bytes -/

theorem mem_alphabet {bytes : Bytes} {c : Char} (h : c ∈ encode bytes) : c ∈ alphabet := by
  induction bytes using encode.induct with
  | case1 => simp [encode] at h
  | case2 a =>
    simp only [encode, List.mem_cons, List.not_mem_nil, or_false] at h
    rcases h with rfl | rfl <;> exact digit_mem_alphabet _
  | case3 a b =>
    simp only [encode, List.mem_cons, List.not_mem_nil, or_false] at h
    rcases h with rfl | rfl | rfl <;> exact digit_mem_alphabet _
  | case4 a b c' rest ih =>
    simp only [encode, List.mem_cons] at h
    rcases h with rfl | rfl | rfl | rfl | h
    · exact digit_mem_alphabet _
    · exact digit_mem_alphabet _
    · exact digit_mem_alphabet _
    · exact digit_mem_alphabet _
    · exact ih h

/-- A byte is put together again from its number. -/
theorem ofNat_eq_of_toNat {a : UInt8} {n : Nat} (h : n = a.toNat) : UInt8.ofNat n = a := by
  rw [h, UInt8.ofNat_toNat]

/-- Written bytes are read back. -/
@[simp] theorem decode?_encode (bytes : Bytes) : decode? (encode bytes) = some bytes := by
  induction bytes using encode.induct with
  | case1 => rfl
  | case2 a =>
    have ha := a.toNat_lt
    have h₁ : value? (digit (a.toNat / 4)) = some (a.toNat / 4) := value?_digit (by omega)
    have h₂ : value? (digit (a.toNat % 4 * 16)) = some (a.toNat % 4 * 16) :=
      value?_digit (by omega)
    have e : UInt8.ofNat (a.toNat / 4 * 4 + a.toNat % 4 * 16 / 16) = a :=
      ofNat_eq_of_toNat (by omega)
    have g : a.toNat % 4 * 16 % 16 = 0 := by omega
    simp only [encode, decode?, h₁, h₂, Option.bind_eq_bind, Option.bind_some, e, g]
    rfl
  | case3 a b =>
    have ha := a.toNat_lt
    have hb := b.toNat_lt
    have h₁ : value? (digit (a.toNat / 4)) = some (a.toNat / 4) := value?_digit (by omega)
    have h₂ : value? (digit (a.toNat % 4 * 16 + b.toNat / 16)) =
        some (a.toNat % 4 * 16 + b.toNat / 16) := value?_digit (by omega)
    have h₃ : value? (digit (b.toNat % 16 * 4)) = some (b.toNat % 16 * 4) :=
      value?_digit (by omega)
    have e₁ : UInt8.ofNat (a.toNat / 4 * 4 + (a.toNat % 4 * 16 + b.toNat / 16) / 16) = a :=
      ofNat_eq_of_toNat (by omega)
    have e₂ :
        UInt8.ofNat ((a.toNat % 4 * 16 + b.toNat / 16) % 16 * 16 + b.toNat % 16 * 4 / 4) = b :=
      ofNat_eq_of_toNat (by omega)
    have g : b.toNat % 16 * 4 % 4 = 0 := by omega
    simp only [encode, decode?, h₁, h₂, h₃, Option.bind_eq_bind, Option.bind_some, e₁, e₂, g]
    rfl
  | case4 a b c rest ih =>
    have ha := a.toNat_lt
    have hb := b.toNat_lt
    have hc := c.toNat_lt
    have h₁ : value? (digit (a.toNat / 4)) = some (a.toNat / 4) := value?_digit (by omega)
    have h₂ : value? (digit (a.toNat % 4 * 16 + b.toNat / 16)) =
        some (a.toNat % 4 * 16 + b.toNat / 16) := value?_digit (by omega)
    have h₃ : value? (digit (b.toNat % 16 * 4 + c.toNat / 64)) =
        some (b.toNat % 16 * 4 + c.toNat / 64) := value?_digit (by omega)
    have h₄ : value? (digit (c.toNat % 64)) = some (c.toNat % 64) := value?_digit (by omega)
    have e₁ : UInt8.ofNat (a.toNat / 4 * 4 + (a.toNat % 4 * 16 + b.toNat / 16) / 16) = a :=
      ofNat_eq_of_toNat (by omega)
    have e₂ : UInt8.ofNat ((a.toNat % 4 * 16 + b.toNat / 16) % 16 * 16 +
        (b.toNat % 16 * 4 + c.toNat / 64) / 4) = b := ofNat_eq_of_toNat (by omega)
    have e₃ : UInt8.ofNat ((b.toNat % 16 * 4 + c.toNat / 64) % 4 * 64 + c.toNat % 64) = c :=
      ofNat_eq_of_toNat (by omega)
    simp only [encode, decode?, h₁, h₂, h₃, h₄, ih, Option.bind_eq_bind, Option.bind_some, e₁, e₂,
      e₃]
    rfl

/-- A written text is read back. -/
@[simp] theorem decodeText?_encodeText (s : String) : decodeText? (encodeText s) = some s := by
  simp [decodeText?, encodeText]

/-! ### One way of writing -/

theorem digit_of_value? {c : Char} {n : Nat} (h : value? c = some n) : n < 64 ∧ digit n = c := by
  have hc : Char.ofNat c.toNat = c := Char.ofNat_toNat c
  simp only [value?] at h
  split at h
  · obtain rfl := Option.some.inj h
    refine ⟨by omega, ?_⟩
    rw [digit, if_pos (by omega), Nat.add_sub_cancel' (by omega), hc]
  · split at h
    · obtain rfl := Option.some.inj h
      refine ⟨by omega, ?_⟩
      rw [digit, if_neg (by omega), if_pos (by omega), Nat.add_sub_cancel' (by omega), hc]
    · split at h
      · obtain rfl := Option.some.inj h
        refine ⟨by omega, ?_⟩
        rw [digit, if_neg (by omega), if_neg (by omega), if_pos (by omega), Nat.add_sub_cancel, hc]
      · split at h
        · obtain rfl := Option.some.inj h
          exact ⟨by decide, by rw [‹c = '-'›]; rfl⟩
        · split at h
          · obtain rfl := Option.some.inj h
            exact ⟨by decide, by rw [‹c = '_'›]; rfl⟩
          · cases h

/-- A number below 256 is put together again from its byte. -/
theorem toNat_ofNat_of_lt {n : Nat} (h : n < 256) : (UInt8.ofNat n).toNat = n := by
  rw [UInt8.toNat_ofNat', Nat.mod_eq_of_lt h]

/-- Bytes are only read from the characters that they are written as. -/
theorem encode_of_decode? {cs : List Char} {bytes : Bytes} (h : decode? cs = some bytes) :
    encode bytes = cs := by
  induction cs using decode?.induct generalizing bytes with
  | case1 =>
    obtain rfl := Option.some.inj h
    rfl
  | case2 => cases h
  | case3 p q =>
    simp only [decode?, Option.bind_eq_bind, Option.bind_eq_some_iff, Option.guard_eq_some',
      Option.pure_def, Option.some.injEq] at h
    obtain ⟨x, hx, y, hy, -, hzero, rfl⟩ := h
    obtain ⟨hxlt, rfl⟩ := digit_of_value? hx
    obtain ⟨hylt, rfl⟩ := digit_of_value? hy
    rw [encode, toNat_ofNat_of_lt (by omega)]
    have h₁ : (x * 4 + y / 16) / 4 = x := by omega
    have h₂ : (x * 4 + y / 16) % 4 * 16 = y := by omega
    rw [h₁, h₂]
  | case4 p q r =>
    simp only [decode?, Option.bind_eq_bind, Option.bind_eq_some_iff, Option.guard_eq_some',
      Option.pure_def, Option.some.injEq] at h
    obtain ⟨x, hx, y, hy, z, hz, -, hzero, rfl⟩ := h
    obtain ⟨hxlt, rfl⟩ := digit_of_value? hx
    obtain ⟨hylt, rfl⟩ := digit_of_value? hy
    obtain ⟨hzlt, rfl⟩ := digit_of_value? hz
    rw [encode, toNat_ofNat_of_lt (by omega), toNat_ofNat_of_lt (by omega)]
    have h₁ : (x * 4 + y / 16) / 4 = x := by omega
    have h₂ : (x * 4 + y / 16) % 4 * 16 + (y % 16 * 16 + z / 4) / 16 = y := by omega
    have h₃ : (y % 16 * 16 + z / 4) % 16 * 4 = z := by omega
    rw [h₁, h₂, h₃]
  | case5 p q r s rest ih =>
    simp only [decode?, Option.bind_eq_bind, Option.bind_eq_some_iff, Option.pure_def,
      Option.some.injEq] at h
    obtain ⟨x, hx, y, hy, z, hz, w, hw, tail, htail, rfl⟩ := h
    obtain ⟨hxlt, rfl⟩ := digit_of_value? hx
    obtain ⟨hylt, rfl⟩ := digit_of_value? hy
    obtain ⟨hzlt, rfl⟩ := digit_of_value? hz
    obtain ⟨hwlt, rfl⟩ := digit_of_value? hw
    rw [encode, toNat_ofNat_of_lt (by omega), toNat_ofNat_of_lt (by omega),
      toNat_ofNat_of_lt (by omega), ih htail]
    have h₁ : (x * 4 + y / 16) / 4 = x := by omega
    have h₂ : (x * 4 + y / 16) % 4 * 16 + (y % 16 * 16 + z / 4) / 16 = y := by omega
    have h₃ : (y % 16 * 16 + z / 4) % 16 * 4 + (z % 4 * 64 + w) / 64 = z := by omega
    have h₄ : (z % 4 * 64 + w) % 64 = w := by omega
    rw [h₁, h₂, h₃, h₄]

theorem encodeText_of_decodeText? {cs : List Char} {s : String} (h : decodeText? cs = some s) :
    encodeText s = cs := by
  obtain ⟨bytes, hbytes, hs⟩ := Option.bind_eq_some_iff.1 h
  rw [encodeText, Utf8.encode_of_decode? hs, encode_of_decode? hbytes]

end TrieOverlay.Base64
