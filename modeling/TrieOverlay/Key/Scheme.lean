import TrieOverlay.Key

/-!
# Keys of payloads

A *key generator* turns the payload of an entry into its key.  The default one, `binaryKey`, lays
out the bytes of the payload bit by bit, most significant bit first, up to a limit; payloads in
order get keys in order, and the payloads that start alike lie in one subtree.

A `KeyScheme` has a generator for every type of entry; types that nobody registered use the
default one.
-/

namespace TrieOverlay

/-- Derives the key of a payload. -/
abbrev KeyGenerator := String → Key

namespace Key

/-- The bits of a byte, most significant first. -/
def byteBits (b : UInt8) : List Bool :=
  [b.toNat.testBit 7, b.toNat.testBit 6, b.toNat.testBit 5, b.toNat.testBit 4,
    b.toNat.testBit 3, b.toNat.testBit 2, b.toNat.testBit 1, b.toNat.testBit 0]

/-- The bits of a text in UTF-8, cut off after `limit` bits. -/
def binary (limit : Nat) : KeyGenerator :=
  fun payload => ⟨(payload.toUTF8.data.toList.flatMap byteBits).take limit⟩

/-- The number of bits of a key when nothing else is said. -/
def defaultBits : Nat := 32

end Key

/-- The key generator of every type of entry. -/
structure KeyScheme where
  /-- The generator of a type. -/
  generator : String → KeyGenerator

namespace KeyScheme

/-- The scheme that uses binary keys of `bits` bits for every type. -/
def ofBits (bits : Nat) : KeyScheme :=
  ⟨fun _ => Key.binary bits⟩

instance : Inhabited KeyScheme := ⟨ofBits Key.defaultBits⟩

/-- The scheme in which a type has a generator of its own. -/
def register (s : KeyScheme) (type : String) (g : KeyGenerator) : KeyScheme :=
  ⟨fun t => if t = type then g else s.generator t⟩

/-- The key of a payload of a type. -/
def generate (s : KeyScheme) (type payload : String) : Key :=
  s.generator type payload

@[simp] theorem generate_ofBits (bits : Nat) (type payload : String) :
    (ofBits bits).generate type payload = Key.binary bits payload := rfl

theorem generate_register (s : KeyScheme) (type t payload : String) (g : KeyGenerator) :
    (s.register type g).generate t payload =
      if t = type then g payload else s.generate t payload := by
  simp only [generate, register]
  split <;> rfl

end KeyScheme

end TrieOverlay
