import TrieOverlay.Text.Quoted
import Std.Data.ExtTreeMap

/-!
# Keys

The index is laid over a binary trie: a key is a list of bits, the way from the root to a node of
the trie.  Keys are ordered lexicographically, so the keys below a node are contiguous.

* `commonLength` is the number of leading bits two keys share.
* `isPrefixOf` says that one key lies on the way to the other, `isCompatibleWith` that one of the
  two lies on the way to the other, that is, that their subtrees overlap.
* `branchAt?` is the sibling subtree that leaves a key at one of its bits.

As text a key is a string over the characters 0 and 1 (`ofString`, `toString`).
-/

namespace TrieOverlay

/-- An address in the trie. -/
structure Key where
  /-- The bits from the root on; `false` is 0 and `true` is 1. -/
  bits : List Bool
deriving DecidableEq, Repr, Inhabited

/-- A text that is no key. -/
structure InvalidKey where
  /-- The text. -/
  text : String
deriving DecidableEq, Repr

/-- The wording of a rejected key. -/
def InvalidKey.message (e : InvalidKey) : String :=
  "invalid trie key " ++ Text.quoted e.text ++ ": only '0' and '1' are allowed"

namespace Key

/-! ### Structure -/

/-- The address of the root. -/
def root : Key := ⟨[]⟩

/-- The number of bits. -/
def length (k : Key) : Nat :=
  k.bits.length

/-- Whether the key is the root. -/
def isRoot (k : Key) : Bool :=
  k.bits.isEmpty

/-- The bit at a position, if the key is that long. -/
def bit? (k : Key) (i : Nat) : Option Bool :=
  k.bits[i]?

/-- The number of leading elements that two lists share. -/
def commonPrefixLength : List Bool → List Bool → Nat
  | a :: as, b :: bs => if a = b then commonPrefixLength as bs + 1 else 0
  | _, _ => 0

/-- The number of leading bits that two keys share. -/
def commonLength (a b : Key) : Nat :=
  commonPrefixLength a.bits b.bits

/-- Whether `a` lies on the way from the root to `b`. -/
def isPrefixOf (a b : Key) : Bool :=
  a.bits.isPrefixOf b.bits

/-- Whether one of the keys lies on the way to the other. -/
def isCompatibleWith (a b : Key) : Bool :=
  a.isPrefixOf b || b.isPrefixOf a

/-- The first `n` bits. -/
def take (k : Key) (n : Nat) : Key :=
  ⟨k.bits.take n⟩

/-- The key that goes on with the bits of another. -/
def append (a b : Key) : Key :=
  ⟨a.bits ++ b.bits⟩

instance : Append Key := ⟨append⟩

/-- The sibling subtree at a level: the key up to that level, then the other bit. -/
def branchAt? (k : Key) (level : Nat) : Option Key :=
  (k.bit? level).map fun b => k.take level ++ ⟨[!b]⟩

/-! ### Order -/

instance : Ord Key :=
  ⟨compareOn Key.bits⟩

instance : Std.TransOrd Key :=
  inferInstanceAs (Std.TransCmp (compareOn Key.bits))

instance : Std.LawfulEqOrd Key where
  eq_of_compare {a b} h := by
    cases a; cases b
    exact congrArg Key.mk (Std.LawfulEqOrd.eq_of_compare h)

/-! ### Text -/

/-- The character of a bit. -/
def bitChar (b : Bool) : Char :=
  if b then '1' else '0'

/-- The bit of a character. -/
def charBit? (c : Char) : Option Bool :=
  if c = '0' then some false else if c = '1' then some true else none

/-- The bits as a string of the characters 0 and 1. -/
protected def toString (k : Key) : String :=
  String.ofList (k.bits.map bitChar)

instance : ToString Key := ⟨Key.toString⟩

/-- The key that a text writes. -/
def ofString (s : String) : Except InvalidKey Key :=
  match s.toList.mapM charBit? with
  | some bits => .ok ⟨bits⟩
  | none => .error ⟨s⟩

/-- The key that a text writes, if it writes one. -/
def ofString? (s : String) : Option Key :=
  (s.toList.mapM charBit?).map Key.mk

/-- The key for a person to read; the root has a name. -/
def display (k : Key) : String :=
  if k.isRoot then "<root>" else k.toString

/-! ### Small facts -/

@[simp] theorem charBit?_bitChar (b : Bool) : charBit? (bitChar b) = some b := by
  cases b <;> rfl

theorem mapM_charBit?_map_bitChar (bits : List Bool) :
    (bits.map bitChar).mapM charBit? = some bits := by
  induction bits with
  | nil => rfl
  | cons b bs ih => simp [List.mapM_cons, ih]

/-- A written key is read back. -/
@[simp] theorem ofString_toString (k : Key) : ofString k.toString = .ok k := by
  rw [ofString, Key.toString, String.toList_ofList, mapM_charBit?_map_bitChar]

theorem commonPrefixLength_le_left (as bs : List Bool) :
    commonPrefixLength as bs ≤ as.length := by
  induction as generalizing bs with
  | nil => simp [commonPrefixLength]
  | cons a as ih =>
    cases bs with
    | nil => simp [commonPrefixLength]
    | cons b bs =>
      simp only [commonPrefixLength, List.length_cons]
      split
      · exact Nat.succ_le_succ (ih bs)
      · exact Nat.zero_le _

/-- Two keys share at most the bits of the first. -/
theorem commonLength_le_left (a b : Key) : a.commonLength b ≤ a.length :=
  commonPrefixLength_le_left a.bits b.bits

end Key

end TrieOverlay
