import TrieOverlay.Holdings
import TrieOverlay.InFlight
import TrieOverlay.Peer
import TrieOverlay.Request

/-!
# Nodes

A node is a peer at work: what it holds, the requests that wait, the messages in flight, and the
volume that all its files are on.  It is a value, and everything that can happen to it is a function
from nodes to nodes.

Messages leave a node through a *router*.  A `Router ω` gets a dispatch, the node that sends it and
the surroundings `ω`, and gives back the node and the surroundings as they are when it returns; on
the way it may report outcomes to the node, those of the dispatch at hand or of others, and do
anything else that can happen to a node.
-/

namespace TrieOverlay

/-- Who sends a message, and is told what became of it: the part of a node that handles batches in
memory or the one that handles batches in files. -/
inductive Engine where
  | entries
  | files
deriving DecidableEq, Repr

/-- Where a message goes. -/
inductive Target where
  /-- To one peer that takes care of a key. -/
  | toward (key : Key)
  /-- To every replica. -/
  | replicas
deriving DecidableEq, Repr

/-- A message on its way out. -/
structure Dispatch where
  /-- The message. -/
  message : Message
  /-- Where it goes. -/
  target : Target
  /-- Who is told what became of it. -/
  sender : Engine
deriving DecidableEq, Repr

/-- A peer at work. -/
structure Node where
  /-- The peer. -/
  peer : LocalPeer
  /-- The keys of payloads. -/
  keys : KeyScheme
  /-- What the peer holds. -/
  holdings : Holdings
  /-- The requests that wait. -/
  queues : Queues
  /-- The messages in flight that carry entries. -/
  entryFlights : InFlight (List Entry)
  /-- The messages in flight that carry files. -/
  fileFlights : InFlight ScratchFile
  /-- The files of the peer. -/
  volume : Volume
  /-- The number of identifiers made up so far. -/
  serial : Nat
  /-- Whether the worker leaves waiting requests alone. -/
  isPaused : Bool
  /-- The time in milliseconds. -/
  clock : Nat
  /-- The least time between two retries in milliseconds. -/
  idlePoll : Nat
  /-- The time of the last retry. -/
  lastRetry : Option Nat

/-- What carries messages to other peers. -/
abbrev Router (ω : Type) := Dispatch → Node → ω → Node × ω

namespace Node

/-- A node that starts in a directory of a volume; no retry was made yet. -/
def openAt (peer : LocalPeer) (keys : KeyScheme) (idlePoll : Nat) (dir : Path) (volume : Volume) :
    Except StorageError Node :=
  match (Holdings.openAt dir).run volume with
  | (.error e, _) => .error e
  | (.ok holdings, volume) =>
    .ok { peer, keys, holdings, queues := .empty, entryFlights := .empty, fileFlights := .empty
          volume, serial := 0, isPaused := false, clock := 0, idlePoll, lastRetry := none }

/-! ### Small steps -/

/-- An identifier that was not made up before. -/
def newIdent {kind : IdentKind} (n : Node) : Ident kind × Node :=
  (.ofSerial n.serial, { n with serial := n.serial + 1 })

/-- A computation on the volume of the node. -/
def onDisk {α : Type} (n : Node) (act : Disk α) : α × Node :=
  let (a, volume) := act.run n.volume
  (a, { n with volume })

/-- A computation on the volume of the node that may fail. -/
def tryOnDisk {α : Type} (n : Node) (act : TryDisk α) : Except StorageError α × Node :=
  n.onDisk act.run

/-- A computation on what the peer holds. -/
def ask {α : Type} (n : Node) (act : Holdings → Disk (α × Holdings)) : α × Node :=
  let ((a, holdings), n) := n.onDisk (act n.holdings)
  (a, { n with holdings })

/-- A computation on what the peer holds that may fail, and then changes nothing there. -/
def tryAsk {α : Type} (n : Node) (act : Holdings → TryDisk (α × Holdings)) :
    Except StorageError α × Node :=
  match n.tryOnDisk (act n.holdings) with
  | (.ok (a, holdings), n) => (.ok a, { n with holdings })
  | (.error e, n) => (.error e, n)

/-- The peer moves to another path. -/
def setPath (n : Node) (path : Key) : Node :=
  { n with peer := { n.peer with path } }

/-- Time passes. -/
def wait (n : Node) (milliseconds : Nat) : Node :=
  { n with clock := n.clock + milliseconds }

/-- The keys of payloads change. -/
def setKeys (n : Node) (keys : KeyScheme) : Node :=
  { n with keys }

/-- A listener asks to hear of a type. -/
def listen (n : Node) (type : String) (l : Listener) : Node :=
  { n with holdings := { n.holdings with listeners := n.holdings.listeners.register type l } }

/-- What the listeners heard since they were last asked. -/
def takeEvents (n : Node) : List Event × Node :=
  (n.holdings.journal, { n with holdings := { n.holdings with journal := [] } })

/-! ### Requests -/

/-- A request waits. -/
def push (n : Node) (r : Request) : Node :=
  { n with queues := n.queues.push r }

/-- A request raised here waits. -/
def submit (n : Node) (operation : Operation) (payload : Payload) : Node :=
  let (id, n) := n.newIdent
  n.push ⟨id, operation, payload, .here⟩

/-- A request that another peer delivered waits. -/
def submitFrom (n : Node) (operation : Operation) (payload : Payload) (message : MessageId)
    (parent : RequestId) (viaReplica : Bool) : Node :=
  let (id, n) := n.newIdent
  n.push ⟨id, operation, payload, .peer message parent viaReplica⟩

/-! ### Pausing -/

/-- Waiting requests are left alone. -/
def pause (n : Node) : Node :=
  { n with isPaused := true }

/-- Waiting requests are served again. -/
def resume (n : Node) : Node :=
  { n with isPaused := false }

end Node

end TrieOverlay
