import TrieOverlay.Bulk.Split
import TrieOverlay.Node.Basic

/-!
# The work of a node

A *cycle* serves every request that waits, then sends the outbound lists once more, then merges the
inbound list into the store.

Serving a request means to split its batch by level against the path of the peer.  Each level goes
toward the sibling subtree at that level, and is in flight until the router reports; a batch whose
delivery failed goes to the outbound list of its operation.  The owned entries go to the replicas.
Those of a request that another peer delivered are also applied here; those of a request raised here
already were.  What comes from a replica is applied and goes nowhere else.  A peer that is no super
peer leaves the splitting of its own requests to a peer closer to the root.

Batches in memory and batches in files take the same steps; a level of a batch in a file is a
scratch file, which is released when the router reports.
-/

namespace TrieOverlay

/-- What all messages of one request have in common. -/
structure Task where
  /-- The change that is asked for. -/
  operation : Operation
  /-- The request that started the chain of messages. -/
  parent : RequestId
  /-- Whether the request was raised here. -/
  isLocal : Bool
deriving DecidableEq, Repr

namespace Payload

/-- What a message carries for a payload. -/
def cargo : Payload → Cargo
  | .entries batch => .entries batch
  | .file f => .file f.path

/-- Who handles a payload. -/
def engine : Payload → Engine
  | .entries _ => .entries
  | .file _ => .files

end Payload

namespace Node

/-! ### What happens at the node itself -/

/-- Applies owned entries for a peer at a path.  Inserted entries go to the inbound list; updated
ones whose new key lies elsewhere become a request to insert them there. -/
def applyOwned (n : Node) (path : Key) (operation : Operation) (entries : List Entry) : Node :=
  if entries.isEmpty then n
  else
    match operation with
    | .insert => (n.tryAsk (·.appendInbound entries)).2
    | .update =>
      let (moved, holdings) := n.holdings.applyUpdate path n.keys entries
      let n := { n with holdings }
      if moved.isEmpty then n else n.submit .insert (.entries moved)
    | .delete => { n with holdings := (n.holdings.remove entries).2 }

/-- Applies the owned entries of a file; nothing happens if it cannot be read. -/
def applyFile (n : Node) (path : Key) (operation : Operation) (f : ScratchFile) : Node :=
  match n.tryOnDisk f.entries with
  | (.ok entries, n) => n.applyOwned path operation entries
  | (.error _, n) => n

/-- Applies an owned payload. -/
def applyPayload (n : Node) (path : Key) (operation : Operation) : Payload → Node
  | .entries batch => n.applyOwned path operation batch
  | .file f => n.applyFile path operation f

/-- The end of a payload: a file is released. -/
def releasePayload (n : Node) : Payload → Node
  | .entries _ => n
  | .file f => (n.onDisk f.release).2

/-- Entries whose delivery failed go to the outbound list of their operation. -/
def requeue (n : Node) (operation : Operation) (entries : List Entry) : Node :=
  (n.tryAsk (·.appendOutbound operation entries)).2

/-- What is kept of a message in flight is taken out. -/
def land (n : Node) (sender : Engine) (id : MessageId) :
    Option (Operation × Payload) × Node :=
  match sender with
  | .entries =>
    let (a, entryFlights) := n.entryFlights.complete id
    (a.map fun a => (a.operation, .entries a.payload), { n with entryFlights })
  | .files =>
    let (a, fileFlights) := n.fileFlights.complete id
    (a.map fun a => (a.operation, .file a.payload), { n with fileFlights })

/-- A payload that was not delivered goes to the outbound list; a file that cannot be read is
lost. -/
def takeBack (n : Node) (operation : Operation) : Payload → Node
  | .entries batch => n.requeue operation batch
  | .file f =>
    match n.tryOnDisk f.entries with
    | (.ok entries, n) => n.requeue operation entries
    | (.error _, n) => n

/-- The router reports what became of a message.  A report on a message that is not in flight means
nothing. -/
def report (n : Node) (sender : Engine) (id : MessageId) (delivered : Bool) : Node :=
  match n.land sender id with
  | (none, n) => n
  | (some (operation, payload), n) =>
    let n := if delivered then n else n.takeBack operation payload
    n.releasePayload payload

/-! ### Sending -/

variable {ω : Type}

/-- The header of a message of a task, under a new name. -/
def newHeader (n : Node) (task : Task) (branch : Key) : Header × Node :=
  let (id, n) := n.newIdent
  (⟨id, branch, task.operation, task.parent⟩, n)

/-- A message takes off. -/
def takeOff (n : Node) (id : MessageId) (task : Task) : Payload → Node
  | .entries batch =>
    { n with entryFlights :=
        n.entryFlights.register id ⟨task.operation, batch, task.isLocal, task.parent⟩ }
  | .file f =>
    { n with fileFlights :=
        n.fileFlights.register id ⟨task.operation, f, task.isLocal, task.parent⟩ }

/-- Sends a payload toward a subtree.  The message is in flight before the router sees it. -/
def send (router : Router ω) (task : Task) (branch : Key) (payload : Payload)
    (s : Node × ω) : Node × ω :=
  let (header, n) := s.1.newHeader task branch
  let n := n.takeOff header.id task payload
  router ⟨⟨header, payload.cargo⟩, .toward branch, payload.engine⟩ n s.2

/-- Sends a payload to the replicas of a path.  Nothing is kept of the message. -/
def broadcast (router : Router ω) (task : Task) (path : Key) (payload : Payload)
    (s : Node × ω) : Node × ω :=
  let (header, n) := s.1.newHeader task path
  router ⟨⟨header, payload.cargo⟩, .replicas, payload.engine⟩ n s.2

/-- Sends the payload of one level to the sibling subtree at that level. -/
def sendLevel (router : Router ω) (task : Task) (path : Key) (s : Node × ω)
    (level : Option Payload × Nat) : Node × ω :=
  match level.1, path.branchAt? level.2 with
  | some payload, some branch => send router task branch payload s
  | _, _ => s

/-- Sends the payload of every level that has one, in order of the levels. -/
def sendLevels (router : Router ω) (task : Task) (path : Key) (levels : List (Option Payload))
    (s : Node × ω) : Node × ω :=
  levels.zipIdx.foldl (sendLevel router task path) s

/-! ### Serving requests -/

/-- A batch as a payload, unless it is empty. -/
def payloadOf (batch : List Entry) : Option Payload :=
  if batch.isEmpty then none else some (.entries batch)

/-- The payload split by level against a path: the levels in order, then the owned part.  Splitting
a file takes it away; if that fails there is nothing left to send. -/
def split (n : Node) (path : Key) : Payload → Option (List (Option Payload) × Option Payload) × Node
  | .entries batch =>
    let (levels, owned) := splitOwned path batch
    (some (levels.map payloadOf, payloadOf owned), n)
  | .file f =>
    match n.tryOnDisk (Bulk.splitByLevel path f n.holdings.scratch) with
    | (.ok files, n) =>
      let payloads := files.map fun f => f.map Payload.file
      (some (payloads.dropLast, payloads.getLastD none), n)
    | (.error _, n) => (none, n)

/-- Serves a request that was raised here. -/
def serveLocal (router : Router ω) (task : Task) (payload : Payload) (s : Node × ω) : Node × ω :=
  if s.1.peer.isSuperPeer then
    let path := s.1.peer.path
    match s.1.split path payload with
    | (none, n) => (n, s.2)
    | (some (levels, owned), n) =>
      let s := sendLevels router task path levels (n, s.2)
      match owned with
      | none => s
      | some owned =>
        let s := broadcast router task path owned s
        (s.1.releasePayload owned, s.2)
  else
    send router task .root payload s

/-- Serves a request that another peer delivered. -/
def serveRemote (router : Router ω) (task : Task) (payload : Payload) (viaReplica : Bool)
    (s : Node × ω) : Node × ω :=
  let path := s.1.peer.path
  if viaReplica then
    ((s.1.applyPayload path task.operation payload).releasePayload payload, s.2)
  else
    match s.1.split path payload with
    | (none, n) => (n, s.2)
    | (some (levels, owned), n) =>
      let s := sendLevels router task path levels (n, s.2)
      match owned with
      | none => s
      | some owned =>
        let s := (s.1.applyPayload path task.operation owned, s.2)
        let s := broadcast router task path owned s
        (s.1.releasePayload owned, s.2)

/-- Serves a request.  An empty batch in memory that was raised here is no work. -/
def serve (router : Router ω) (s : Node × ω) (r : Request) : Node × ω :=
  let task : Task := ⟨r.operation, r.parent, r.isLocal⟩
  match r.origin with
  | .here => if r.payload = .entries [] then s else serveLocal router task r.payload s
  | .peer _ _ viaReplica => serveRemote router task r.payload viaReplica s

/-- Serves every request that waits now.  Requests that come up meanwhile wait for the next time. -/
def serveQueues (router : Router ω) (s : Node × ω) : Node × ω :=
  let waiting := s.1.queues.inOrder
  waiting.foldl (serve router) ({ s.1 with queues := .empty }, s.2)

/-! ### Retrying and merging -/

/-- Whether the last retry is long enough ago and there is something to send again. -/
def retryDue (n : Node) : Bool × Node :=
  let recent := n.lastRetry.any fun t => n.clock - t < n.idlePoll
  if recent then (false, n) else n.ask (·.hasOutbound)

/-- Sends the outbound list of an operation again, as a file. -/
def retryOperation (router : Router ω) (s : Node × ω) (operation : Operation) : Node × ω :=
  match s.1.tryAsk (·.takeOutbound operation) with
  | (.ok (some file), n) =>
    let (id, n) := n.newIdent
    serve router (n, s.2) ⟨id, operation, .file file, .here⟩
  | (.ok none, n) | (.error _, n) => (n, s.2)

/-- Sends the outbound lists again, if that is due. -/
def retry (router : Router ω) (s : Node × ω) : Node × ω :=
  match s.1.retryDue with
  | (false, n) => (n, s.2)
  | (true, n) =>
    let n := { n with lastRetry := some n.clock }
    Operation.all.foldl (retryOperation router) (n, s.2)

/-- Merges the inbound list into the store, if there is anything in it. -/
def merge (n : Node) : Node :=
  match n.ask (·.hasInbound) with
  | (false, n) => n
  | (true, n) => (n.tryAsk (·.mergeInbound)).2

/-- One round of work. -/
def cycle (router : Router ω) (s : Node × ω) : Node × ω :=
  let s := retry router (serveQueues router s)
  (s.1.merge, s.2)

/-! ### The worker -/

/-- Whether there is something to do. -/
def hasWork (n : Node) : Bool × Node :=
  if n.isPaused then (false, n)
  else if !n.queues.isEmpty then (true, n)
  else
    match n.retryDue with
    | (true, n) => (true, n)
    | (false, n) => n.ask (·.hasInbound)

/-- Runs cycles for as long as there is something to do, but not more than `limit`. -/
def work (router : Router ω) : (limit : Nat) → Node × ω → Node × ω
  | 0, s => s
  | limit + 1, s =>
    match s.1.hasWork with
    | (false, n) => (n, s.2)
    | (true, n) => work router limit (cycle router (n, s.2))

end Node

end TrieOverlay
