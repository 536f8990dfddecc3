import TrieOverlay.Entry

/-!
# Peers

A peer has an identity and a path, the subtree it is responsible for.  `LocalPeer` is the peer that
the program runs for, `Neighbour` another one that it knows of.
-/

namespace TrieOverlay

/-- The peer that the program runs for. -/
structure LocalPeer where
  /-- Its identity. -/
  info : PeerInfo
  /-- The subtree it is responsible for; this may change at any time. -/
  path : Key
  /-- Whether it splits batches itself, or leaves that to a peer closer to the root. -/
  isSuperPeer : Bool
deriving DecidableEq, Repr

/-- Another peer. -/
structure Neighbour where
  /-- Its identity. -/
  info : PeerInfo
  /-- The subtree it is responsible for. -/
  path : Key
deriving DecidableEq, Repr

end TrieOverlay
