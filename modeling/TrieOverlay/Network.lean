import TrieOverlay.Delivery
import TrieOverlay.Endpoint

/-!
# Networks

A network is some nodes, each with the peers that it knows.  While one of them is at work the others
wait; a `Scene` is a node at work, with what it has besides itself and the others around it.  Every
node sends through a courier of its own, which writes down what it carried.  Over `Network.post` a
courier reaches the other nodes at their endpoints.

The nodes take turns: in a *round* each of them runs one cycle, in order of their names, and
`Network.settle` goes on with rounds for as long as one of them has something to do.
-/

namespace TrieOverlay

/-- A message that a courier carried. -/
structure Carriage where
  /-- Where it went. -/
  target : Target
  /-- The kind of message. -/
  kind : MessageKind
  /-- The change that it asks for. -/
  operation : Operation
  /-- Whether it was delivered. -/
  delivered : Bool
deriving DecidableEq, Repr

/-- What a node of a network has besides itself. -/
structure Site where
  /-- The peers that it knows. -/
  table : RoutingTable
  /-- How often a post is tried. -/
  attempts : Nat
  /-- What its courier carried. -/
  carried : List Carriage
deriving DecidableEq, Repr

/-- A node of a network. -/
abbrev Member := Node × Site

/-- The nodes by name, in order of the names. -/
structure Network where
  /-- The nodes. -/
  members : List (String × Member)

/-- A node at work, and the others. -/
abbrev Scene := Node × (Site × Network)

namespace Scene

/-- The courier of the node at work; of several peers it takes the first. -/
def courier (s : Scene) (transport : Transport Scene) : Courier (Site × Network) :=
  ⟨fun w => w.1.table, List.head?, s.2.1.attempts, transport⟩

/-- Writes down what was carried. -/
def note (x : Carriage) (s : Scene) : Scene :=
  (s.1, { s.2.1 with carried := s.2.1.carried ++ [x] }, s.2.2)

/-- Writes down what becomes of a message. -/
def noting (target : Target) (m : Message) : RouteListener Scene where
  finished _ := note ⟨target, m.kind, m.header.operation, true⟩
  failed _ := note ⟨target, m.kind, m.header.operation, false⟩

/-- Carries a message of nobody's and writes it down; whether it was delivered. -/
def carry (transport : Transport Scene) (target : Target) (m : Message) (s : Scene) :
    Bool × Scene :=
  let s := (courier s transport).route (noting target m) target m s
  (s.2.1.carried.getLast?.any (·.delivered), s)

/-- The router of the node at work. -/
def router (transport : Transport Scene) : Router (Site × Network) := fun d n w =>
  let listener := (noting d.target d.message).andThen (.engine d.sender)
  (courier (n, w) transport).route listener d.target d.message (n, w)

end Scene

/-- A reply as the answer to a post. -/
def HttpReply.toAnswer (r : HttpReply) : Answer :=
  .answered r.status.code (r.body.elim "" Json.render)

namespace Network

/-- The network of some nodes. -/
def ofList (members : List (String × Member)) : Network :=
  ⟨members.mergeSort fun a b => decide (a.1 ≤ b.1)⟩

/-- The network without a node. -/
def without (net : Network) (name : String) : Network :=
  ⟨net.members.filter (·.1 ≠ name)⟩

/-- The network with a node in place of the one that has its name. -/
def put (net : Network) (name : String) (m : Member) : Network :=
  ofList ((name, m) :: (net.without name).members)

/-- Something happens to one node; there is no answer if no node has the name. -/
def at? {α : Type} (net : Network) (name : String) (act : Scene → α × Scene) :
    Option (α × Network) := do
  let (n, site) ← net.members.lookup name
  let (a, n, site, others) := act (n, site, net.without name)
  return (a, others.put name (n, site))

/-- Something happens to every node. -/
def each {α : Type} (net : Network) (act : Member → α × Member) :
    List (String × α) × Network :=
  let results := net.members.map fun (name, m) => (name, act m)
  (results.map fun (name, r) => (name, r.1), ⟨results.map fun (name, r) => (name, r.2)⟩)

/-- The node that has an address. -/
def having? (net : Network) (address : String) : Option (String × Member) :=
  net.members.find? fun (_, n, _) => n.peer.info.address = address

/-- A post goes to the endpoint of the node that has the address, and does not get through if no
node has it. -/
def post : Transport Scene := fun address e (n, site, others) =>
  let request := HttpRequest.post Endpoint.routePath e.toJson
  if n.peer.info.address = address then
    let (reply, n) := n.answer request
    (reply.toAnswer, n, site, others)
  else
    match others.having? address with
    | none => (.none, n, site, others)
    | some (name, other, itsSite) =>
      let (reply, other) := other.answer request
      (reply.toAnswer, n, site, others.put name (other, itsSite))

/-- Whether a node has something to do. -/
def hasWork (net : Network) : Bool × Network :=
  let (busy, net) := net.each fun (n, site) =>
    let (b, n) := n.hasWork
    (b, n, site)
  (busy.any (·.2), net)

/-- One node runs a cycle. -/
def cycleAt (transport : Transport Scene) (net : Network) (name : String) : Network :=
  match net.at? name fun s => ((), Node.cycle (Scene.router transport) s) with
  | some ((), net) => net
  | none => net

/-- Every node runs a cycle. -/
def round (net : Network) (transport : Transport Scene) : Network :=
  (net.members.map (·.1)).foldl (cycleAt transport) net

/-- Rounds for as long as a node has something to do, but not more than `limit`; their number. -/
def settle (transport : Transport Scene) : (limit : Nat) → Network → Nat × Network
  | 0, net => (0, net)
  | limit + 1, net =>
    match net.hasWork with
    | (false, net) => (0, net)
    | (true, net) =>
      let (rounds, net) := settle transport limit (net.round transport)
      (rounds + 1, net)

end Network

end TrieOverlay
