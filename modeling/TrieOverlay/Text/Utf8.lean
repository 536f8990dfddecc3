/-!
# Texts as bytes

Files and messages hold bytes; `Utf8.encode` and `Utf8.decode?` go between bytes and text.  Bytes
that are no text can still be shown: `Utf8.decodeLossy` puts the replacement character U+FFFD
where a sequence is broken off or cannot start.
-/

namespace TrieOverlay

/-- A sequence of bytes. -/
abbrev Bytes := List UInt8

namespace Utf8

/-- The bytes of a text. -/
def encode (s : String) : Bytes :=
  s.toUTF8.data.toList

/-- The text that the bytes write, if they write one. -/
def decode? (bytes : Bytes) : Option String :=
  String.fromUTF8? ⟨bytes.toArray⟩

/-- Written text is read back. -/
@[simp] theorem decode?_encode (s : String) : decode? (encode s) = some s := by
  have h : (⟨s.toUTF8.data.toList.toArray⟩ : ByteArray) = s.toUTF8 := by
    rw [Array.toArray_toList]
  rw [decode?, encode, h]
  exact dif_pos s.isValidUTF8

/-! ### Broken text -/

/-- What may follow a byte that starts a sequence of several: the range of the second byte, and
how many bytes follow that one. -/
def lead? (b : UInt8) : Option (UInt8 × UInt8 × Nat) :=
  if 0xc2 ≤ b && b ≤ 0xdf then some (0x80, 0xbf, 0)
  else if b == 0xe0 then some (0xa0, 0xbf, 1)
  else if b == 0xed then some (0x80, 0x9f, 1)
  else if 0xe1 ≤ b && b ≤ 0xef then some (0x80, 0xbf, 1)
  else if b == 0xf0 then some (0x90, 0xbf, 2)
  else if 0xf1 ≤ b && b ≤ 0xf3 then some (0x80, 0xbf, 2)
  else if b == 0xf4 then some (0x80, 0x8f, 2)
  else none

/-- Whether a byte carries on a sequence. -/
def isTail (b : UInt8) : Bool :=
  0x80 ≤ b && b ≤ 0xbf

/-- The code point of a first byte, cut to its low bits, and the bytes that follow. -/
def assemble (first : Nat) (tails : List UInt8) : Char :=
  Char.ofNat <| tails.foldl (fun n b => n * 64 + b.toNat % 64) first

/-- The characters of a sequence of bytes; every broken sequence becomes one U+FFFD. -/
def decodeLossy : Bytes → List Char
  | [] => []
  | a :: r =>
    if a < 0x80 then Char.ofNat a.toNat :: decodeLossy r
    else match lead? a with
      | none => '\ufffd' :: decodeLossy r
      | some (lo, hi, more) =>
        match r with
        | [] => ['\ufffd']
        | b :: r₁ =>
          if b < lo || hi < b then '\ufffd' :: decodeLossy (b :: r₁)
          else if more = 0 then assemble (a.toNat % 32) [b] :: decodeLossy r₁
          else match r₁ with
            | [] => ['\ufffd']
            | c :: r₂ =>
              if !isTail c then '\ufffd' :: decodeLossy (c :: r₂)
              else if more = 1 then assemble (a.toNat % 16) [b, c] :: decodeLossy r₂
              else match r₂ with
                | [] => ['\ufffd']
                | d :: r₃ =>
                  if !isTail d then '\ufffd' :: decodeLossy (d :: r₃)
                  else assemble (a.toNat % 8) [b, c, d] :: decodeLossy r₃

end Utf8

end TrieOverlay
