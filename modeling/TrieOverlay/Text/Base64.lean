import TrieOverlay.Text.Utf8

/-!
# Base64 without padding

Bytes as text over the 64 characters `A-Z a-z 0-9 - _`, six bits a character, with no padding at
the end.  Each byte sequence has exactly one written form: `decode?` refuses padding, other
characters, a last group of one character, and a last character whose unused bits are not zero.
-/

namespace TrieOverlay.Base64

/-- The character of a six-bit number. -/
def digit (n : Nat) : Char :=
  if n < 26 then Char.ofNat (65 + n)
  else if n < 52 then Char.ofNat (71 + n)
  else if n < 62 then Char.ofNat (n - 4)
  else if n = 62 then '-'
  else '_'

/-- The number of a character. -/
def value? (c : Char) : Option Nat :=
  let n := c.toNat
  if 65 ≤ n ∧ n ≤ 90 then some (n - 65)
  else if 97 ≤ n ∧ n ≤ 122 then some (n - 71)
  else if 48 ≤ n ∧ n ≤ 57 then some (n + 4)
  else if c = '-' then some 62
  else if c = '_' then some 63
  else none

/-- The characters of a byte sequence: four for each three bytes, two or three for the rest. -/
def encode : Bytes → List Char
  | [] => []
  | [a] => [digit (a.toNat / 4), digit (a.toNat % 4 * 16)]
  | [a, b] =>
    [digit (a.toNat / 4), digit (a.toNat % 4 * 16 + b.toNat / 16), digit (b.toNat % 16 * 4)]
  | a :: b :: c :: rest =>
    digit (a.toNat / 4) :: digit (a.toNat % 4 * 16 + b.toNat / 16) ::
      digit (b.toNat % 16 * 4 + c.toNat / 64) :: digit (c.toNat % 64) :: encode rest

/-- The bytes that the characters write, if they write any. -/
def decode? : List Char → Option Bytes
  | [] => some []
  | [_] => none
  | [p, q] => do
    let x ← value? p
    let y ← value? q
    guard (y % 16 = 0)
    return [.ofNat (x * 4 + y / 16)]
  | [p, q, r] => do
    let x ← value? p
    let y ← value? q
    let z ← value? r
    guard (z % 4 = 0)
    return [.ofNat (x * 4 + y / 16), .ofNat (y % 16 * 16 + z / 4)]
  | p :: q :: r :: s :: rest => do
    let x ← value? p
    let y ← value? q
    let z ← value? r
    let w ← value? s
    let tail ← decode? rest
    return .ofNat (x * 4 + y / 16) :: .ofNat (y % 16 * 16 + z / 4) :: .ofNat (z % 4 * 64 + w) ::
      tail

/-- A text in Base64. -/
def encodeText (s : String) : List Char :=
  encode (Utf8.encode s)

/-- The text that the characters write, if they write bytes and these write a text. -/
def decodeText? (cs : List Char) : Option String :=
  decode? cs >>= Utf8.decode?

end TrieOverlay.Base64
