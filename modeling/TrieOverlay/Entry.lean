import TrieOverlay.Ident
import TrieOverlay.Key

/-!
# Index entries

An entry says that a peer has a data item: the payload names the item, the type says what kind it
is, and the key is the place of the entry in the trie.  Entries are values; `withKey` and
`withPayload` make changed ones that keep the identifier.

Entries are ordered by key, then identifier, type, payload, and last by the peer.
-/

namespace TrieOverlay

/-- The type of an entry when nothing else is said. -/
def defaultTypeName : String := "default"

/-- The identity and the contact address of a peer. -/
structure PeerInfo where
  /-- The identifier of the peer. -/
  id : PeerId
  /-- Where the peer is reached, as host and port. -/
  address : String
deriving DecidableEq, Repr, Inhabited

/-- A data item of the index. -/
structure Entry where
  /-- The identifier, given once at creation. -/
  id : EntryId
  /-- The place in the trie. -/
  key : Key
  /-- The type of the item. -/
  typeName : String
  /-- The peer that has the item. -/
  peer : PeerInfo
  /-- What names the item. -/
  payload : String
deriving DecidableEq, Repr, Inhabited

namespace Entry

/-- The same entry at another place. -/
def withKey (e : Entry) (key : Key) : Entry :=
  { e with key }

/-- The same entry with another payload, and the key of that payload. -/
def withPayload (e : Entry) (payload : String) (key : Key) : Entry :=
  { e with payload, key }

@[simp] theorem id_withKey (e : Entry) (k : Key) : (e.withKey k).id = e.id := rfl

@[simp] theorem key_withKey (e : Entry) (k : Key) : (e.withKey k).key = k := rfl

@[simp] theorem withKey_withKey (e : Entry) (k l : Key) :
    (e.withKey k).withKey l = e.withKey l := rfl

/-! ### Order -/

/-- The comparison of entries: key, identifier, type, payload, peer. -/
def order : Entry → Entry → Ordering :=
  compareLex (compareOn key) <| compareLex (compareOn id) <| compareLex (compareOn typeName) <|
    compareLex (compareOn payload) <| compareLex (compareOn (·.peer.id)) <|
      compareOn (·.peer.address)

instance : Ord Entry := ⟨order⟩

instance : Std.TransOrd Entry :=
  inferInstanceAs (Std.TransCmp (compareLex (compareOn key) <| compareLex (compareOn id) <|
    compareLex (compareOn typeName) <| compareLex (compareOn payload) <|
      compareLex (compareOn (·.peer.id)) <| compareOn (·.peer.address)))

/-- Two entries compare equal only if they are equal in every field. -/
instance : Std.LawfulEqOrd Entry where
  eq_of_compare {a b} h := by
    obtain ⟨ai, ak, at', ⟨ap, aa⟩, al⟩ := a
    obtain ⟨bi, bk, bt, ⟨bp, ba⟩, bl⟩ := b
    simp only [compare, order, compareLex, compareOn, Ordering.then_eq_eq] at h
    obtain ⟨h1, h2, h3, h4, h5, h6⟩ := h
    have := Std.LawfulEqOrd.eq_of_compare (a := ak) (b := bk) h1
    have := Std.LawfulEqOrd.eq_of_compare (a := ai) (b := bi) h2
    have := Std.LawfulEqOrd.eq_of_compare (a := at') (b := bt) h3
    have := Std.LawfulEqOrd.eq_of_compare (a := al) (b := bl) h4
    have := Std.LawfulEqOrd.eq_of_compare (a := ap) (b := bp) h5
    have := Std.LawfulEqOrd.eq_of_compare (a := aa) (b := ba) h6
    simp_all

end Entry

end TrieOverlay
