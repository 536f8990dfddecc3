import TrieOverlay.Bulk.ScratchFile
import TrieOverlay.Message

/-!
# Requests

A request asks a peer to distribute a batch of entries.  It was raised here, by the application or
by the peer itself, or delivered by another peer.  Requests wait in four queues, by origin and by
whether the batch is in memory or in a file; `Queues.inOrder` is the order in which they are served.
-/

namespace TrieOverlay

/-- A batch of entries, in memory or in a file. -/
inductive Payload where
  | entries (batch : List Entry)
  | file (file : ScratchFile)
deriving DecidableEq, Repr

/-- Where a request comes from. -/
inductive Origin where
  /-- Raised on this peer. -/
  | here
  /-- Delivered by another peer. -/
  | peer (message : MessageId) (parent : RequestId) (viaReplica : Bool)
deriving DecidableEq, Repr

/-- One piece of work. -/
structure Request where
  /-- Its name. -/
  id : RequestId
  /-- The change it asks for. -/
  operation : Operation
  /-- The entries to change. -/
  payload : Payload
  /-- Where it comes from. -/
  origin : Origin
deriving DecidableEq, Repr

namespace Request

/-- Whether a request was raised on this peer. -/
def isLocal (r : Request) : Bool :=
  r.origin == .here

/-- The request that started the chain of messages: for a delivered request the one that its sender
named, otherwise the request itself. -/
def parent (r : Request) : RequestId :=
  match r.origin with
  | .here => r.id
  | .peer _ parent _ => parent

end Request

/-- The requests that wait. -/
structure Queues where
  /-- Raised here, in memory. -/
  localEntries : List Request
  /-- Raised here, in files. -/
  localFiles : List Request
  /-- Delivered, in memory. -/
  remoteEntries : List Request
  /-- Delivered, in files. -/
  remoteFiles : List Request
deriving DecidableEq, Repr

namespace Queues

/-- No requests. -/
def empty : Queues := ⟨[], [], [], []⟩

instance : Inhabited Queues := ⟨empty⟩

/-- A request goes to the end of its queue. -/
def push (q : Queues) (r : Request) : Queues :=
  match r.origin, r.payload with
  | .here, .entries _ => { q with localEntries := q.localEntries ++ [r] }
  | .here, .file _ => { q with localFiles := q.localFiles ++ [r] }
  | .peer .., .entries _ => { q with remoteEntries := q.remoteEntries ++ [r] }
  | .peer .., .file _ => { q with remoteFiles := q.remoteFiles ++ [r] }

/-- The requests in the order in which they are served. -/
def inOrder (q : Queues) : List Request :=
  q.localEntries ++ q.localFiles ++ q.remoteEntries ++ q.remoteFiles

/-- The number of requests. -/
def length (q : Queues) : Nat :=
  q.localEntries.length + q.localFiles.length + q.remoteEntries.length + q.remoteFiles.length

/-- Whether no request waits. -/
def isEmpty (q : Queues) : Bool :=
  q.localEntries.isEmpty && q.localFiles.isEmpty && q.remoteEntries.isEmpty &&
    q.remoteFiles.isEmpty

@[simp] theorem length_inOrder (q : Queues) : q.inOrder.length = q.length := by
  simp [inOrder, length, Nat.add_assoc]

end Queues

end TrieOverlay
