import TrieOverlay.Peer

/-!
# Routing tables

For every level of its path a peer knows some peers in the sibling subtree at that level, and it
knows its *replicas*, the peers with the same path.  `RoutingTable.add` files a peer where its path
leaves the local one; a peer whose path lies above or below the local path has no place.

`resolve` says who takes care of a key: the local peer, one of the peers at the level where the key
leaves the local path, or nobody.  Which of several peers is taken is left to a choice function;
`resolutions` lists what can come out.  A request for the whole trie, at the root, goes to the peer
with the shortest path.
-/

namespace TrieOverlay

/-- Where a peer is filed. -/
inductive Placement where
  /-- Among the peers of a level. -/
  | level (n : Nat)
  /-- Among the replicas. -/
  | replica
  /-- Nowhere. -/
  | ignored
deriving DecidableEq, Repr

/-- Who takes care of a key. -/
inductive Resolution where
  /-- The local peer. -/
  | here
  /-- Another peer. -/
  | remote (peer : Neighbour)
  /-- Nobody that is known. -/
  | unreachable
deriving DecidableEq, Repr

/-- The peers that a peer knows. -/
structure RoutingTable where
  /-- The peers of each level. -/
  levels : List (List Neighbour)
  /-- The peers with the same path. -/
  replicas : List Neighbour
deriving DecidableEq, Repr

namespace RoutingTable

/-- No peers. -/
def empty : RoutingTable := ⟨[], []⟩

instance : Inhabited RoutingTable := ⟨empty⟩

/-! ### Looking -/

/-- The peers of a level. -/
def atLevel (t : RoutingTable) (level : Nat) : List Neighbour :=
  t.levels[level]?.getD []

/-- All peers: level by level, then the replicas. -/
def peers (t : RoutingTable) : List Neighbour :=
  t.levels.flatten ++ t.replicas

/-- The first of two peers unless the second has a shorter path. -/
def closer (a b : Neighbour) : Neighbour :=
  if b.path.length < a.path.length then b else a

/-- The first of the peers with the shortest path. -/
def closestToRoot? (t : RoutingTable) : Option Neighbour :=
  match t.peers with
  | [] => none
  | p :: ps => some (ps.foldl closer p)

/-! ### Changing -/

/-- The table without a peer. -/
def remove (t : RoutingTable) (id : PeerId) : RoutingTable :=
  ⟨t.levels.map fun ps => ps.filter (·.info.id ≠ id), t.replicas.filter (·.info.id ≠ id)⟩

/-- Where a peer belongs. -/
def placement (self : LocalPeer) (p : Neighbour) : Placement :=
  if p.info.id = self.info.id then .ignored
  else
    let common := self.path.commonLength p.path
    if common = self.path.length ∧ common = p.path.length then .replica
    else if common < self.path.length ∧ common < p.path.length then .level common
    else .ignored

/-- The table with a peer at the end of a level. -/
def file (t : RoutingTable) (level : Nat) (p : Neighbour) : RoutingTable :=
  let missing := level + 1 - t.levels.length
  let levels := t.levels ++ List.replicate missing []
  { t with levels := levels.modify level (· ++ [p]) }

/-- Files a peer where it belongs now and nowhere else; a peer that belongs nowhere changes
nothing. -/
def add (t : RoutingTable) (self : LocalPeer) (p : Neighbour) : Placement × RoutingTable :=
  let place := placement self p
  match place with
  | .ignored => (place, t)
  | .replica =>
    let t := t.remove p.info.id
    (place, { t with replicas := t.replicas ++ [p] })
  | .level n => (place, (t.remove p.info.id).file n p)

/-! ### Resolving -/

/-- Everything that resolving a key may come to. -/
def resolutions (t : RoutingTable) (self : LocalPeer) (key : Key) : List Resolution :=
  if key.isRoot then
    match t.closestToRoot? with
    | some p => [.remote p]
    | none => [.unreachable]
  else
    let common := self.path.commonLength key
    if common = self.path.length ∨ common = key.length then [.here]
    else
      match t.atLevel common with
      | [] => [.unreachable]
      | ps => ps.map .remote

/-- Who takes care of a key, by a choice function on the candidates. -/
def resolve (t : RoutingTable) (self : LocalPeer) (choose : List Resolution → Option Resolution)
    (key : Key) : Resolution :=
  (choose (t.resolutions self key)).getD .unreachable

end RoutingTable

end TrieOverlay
