import TrieOverlay.Node.Service
import TrieOverlay.RoutingTable

/-!
# Delivery over a transport

A *courier* is a router that looks up who takes care of a key in a routing table and posts envelopes
there.  How a post gets to an address is up to a `Transport`, which works on a state that takes in
the sending node and its surroundings; a post is answered, or it does not get through and is tried
again, `attempts` times in all and at least once.

A message counts as delivered if the answer has a success status and says that the message was
accepted.  A message to the replicas counts as delivered if every replica accepted it.  The outcome
is told to a `RouteListener`, which comes with the message.
-/

namespace TrieOverlay

/-- What comes of a post. -/
inductive Answer where
  /-- It did not get through. -/
  | none
  /-- There is an answer, with the number of its status. -/
  | answered (status : Nat) (body : String)
deriving DecidableEq, Repr

/-- Whether an answer says that the message was accepted. -/
def Answer.accepted : Answer → Bool
  | none => false
  | answered status body =>
    200 ≤ status && status < 300 &&
      ((Json.Written.parse? body >>= RouteResponse.ofWritten?).any (·.accepted))

/-- Who is told what became of a message, as functions on a state that takes it in. -/
structure RouteListener (σ : Type) where
  /-- The message was delivered. -/
  finished : MessageId → σ → σ
  /-- The message was not delivered. -/
  failed : MessageId → σ → σ

namespace RouteListener

/-- Tells a listener what became of a message. -/
def report {σ : Type} (l : RouteListener σ) (id : MessageId) (delivered : Bool) (s : σ) : σ :=
  if delivered then l.finished id s else l.failed id s

/-- Two listeners are told, one after the other. -/
def andThen {σ : Type} (l l' : RouteListener σ) : RouteListener σ where
  finished id s := l'.finished id (l.finished id s)
  failed id s := l'.failed id (l.failed id s)

/-- A part of a node listens for the messages that it sent. -/
def engine {ω : Type} (sender : Engine) : RouteListener (Node × ω) where
  finished id s := (s.1.report sender id true, s.2)
  failed id s := (s.1.report sender id false, s.2)

end RouteListener

/-- Posts an envelope to an address. -/
abbrev Transport (σ : Type) := (address : String) → Envelope → σ → Answer × σ

/-- A router that posts envelopes. -/
structure Courier (ω : Type) where
  /-- The peers that the sender knows. -/
  table : ω → RoutingTable
  /-- Which of several peers is taken. -/
  choose : List Resolution → Option Resolution
  /-- How often a post is tried. -/
  attempts : Nat
  /-- What carries the posts. -/
  transport : Transport (Node × ω)

namespace Courier

variable {ω : Type}

/-- Posts an envelope, up to `more` times again if it does not get through. -/
def post (transport : Transport (Node × ω)) (address : String) (e : Envelope) :
    (more : Nat) → Node × ω → Answer × (Node × ω)
  | 0, s => transport address e s
  | more + 1, s =>
    match transport address e s with
    | (.none, s) => post transport address e more s
    | answered => answered

/-- Posts an envelope; whether it was accepted. -/
def deliver (c : Courier ω) (address : String) (e : Envelope) (s : Node × ω) :
    Bool × (Node × ω) :=
  let (answer, s) := post c.transport address e (c.attempts - 1) s
  (answer.accepted, s)

/-- Posts an envelope to several addresses; whether all accepted it. -/
def deliverAll (c : Courier ω) (e : Envelope) :
    List String → Node × ω → Bool × (Node × ω)
  | [], s => (true, s)
  | address :: rest, s =>
    let (accepted, s) := c.deliver address e s
    let (others, s) := c.deliverAll e rest s
    (accepted && others, s)

/-- The address of the peer that takes care of a key. -/
def addressFor (c : Courier ω) (key : Key) (s : Node × ω) : Option String :=
  match (c.table s.2).resolve s.1.peer c.choose key with
  | .here => some s.1.peer.info.address
  | .remote p => some p.info.address
  | .unreachable => none

/-- Routes a message to one peer that takes care of a key. -/
def routeToward (c : Courier ω) (l : RouteListener (Node × ω)) (key : Key) (m : Message)
    (s : Node × ω) : Node × ω :=
  match s.1.tryOnDisk (Envelope.ofMessage .greedy s.1.peer.info.id m) with
  | (.error _, n) => l.failed m.header.id (n, s.2)
  | (.ok e, n) =>
    match c.addressFor key (n, s.2) with
    | none => l.failed m.header.id (n, s.2)
    | some address =>
      let (delivered, s) := c.deliver address e (n, s.2)
      l.report m.header.id delivered s

/-- Routes a message to all replicas. -/
def routeToReplicas (c : Courier ω) (l : RouteListener (Node × ω)) (m : Message)
    (s : Node × ω) : Node × ω :=
  let replicas := (c.table s.2).replicas
  if replicas.isEmpty then l.finished m.header.id s
  else
    match s.1.tryOnDisk (Envelope.ofMessage .replicas s.1.peer.info.id m) with
    | (.error _, n) => l.failed m.header.id (n, s.2)
    | (.ok e, n) =>
      let (delivered, s) := c.deliverAll e (replicas.map (·.info.address)) (n, s.2)
      l.report m.header.id delivered s

/-- Routes a message; the listener is told of the outcome before the courier returns. -/
def route (c : Courier ω) (l : RouteListener (Node × ω)) (target : Target) (m : Message)
    (s : Node × ω) : Node × ω :=
  match target with
  | .toward key => c.routeToward l key m s
  | .replicas => c.routeToReplicas l m s

/-- The courier as a router: the sender of a dispatch is the listener. -/
def router (c : Courier ω) : Router ω := fun d n w =>
  c.route (.engine d.sender) d.target d.message (n, w)

end Courier

end TrieOverlay
