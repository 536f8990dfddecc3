import TrieOverlay.Config
import TrieOverlay.Network
import TrieOverlay.Text.Blank

/-!
# The console

The console runs a network whose nodes all live here, and speaks with it line by line.  A line asks
a node something over HTTP, or lets time pass:

    GET /index/stats
    POST 127.0.0.1:6000/index/insert {"items":[]}
    WAIT 1000

Without an address the first node is asked.  After every line the network settles.
-/

namespace TrieOverlay

/-! ### Starting -/

namespace Config

/-- The number of identifiers that one node of a network can make up. -/
def identifierRoom : Nat := Nat.pow 2 96

/-- The node of the settings, the `index`-th of its network, on a volume of its own. -/
def start (c : Config) (index : Nat) : Except StorageError Member := do
  let serial := index * identifierRoom
  let (info, c) := c.identify serial
  let peer := c.peer info
  let table := c.peers.foldl (fun (t : RoutingTable) p => (t.add peer p).2) .empty
  let dir := Path.root.join (Path.ofString c.dataDir)
  let (made, volume) := (Volume.createDirectories dir).run Volume.empty
  made
  let n ← Node.openAt peer (.ofBits c.keyBits) c.pollInterval dir volume
  return ({ n with serial := serial + 1 }, ⟨table, c.routeAttempts, []⟩)

end Config

namespace Network

/-- The network of the nodes of some settings.  A node goes by the place of its settings. -/
def start (settings : List Config) : Except StorageError Network := do
  let members ← settings.zipIdx.mapM fun (c, index) => do
    return (Serial.compact index, ← c.start index)
  return ofList members

/-- Time passes for every node. -/
def wait (net : Network) (milliseconds : Nat) : Network :=
  (net.each fun (n, site) => ((), n.wait milliseconds, site)).2

end Network

/-! ### Lines -/

/-- What a line asks for. -/
inductive ConsoleLine where
  /-- Let time pass. -/
  | wait (milliseconds : Nat)
  /-- Ask the node at an address, or the first one. -/
  | ask (address : Option String) (request : HttpRequest)
deriving DecidableEq, Repr

namespace ConsoleLine

/-- A line up to the first blank, and what comes after it. -/
def splitBlank (cs : List Char) : List Char × List Char :=
  (cs.takeWhile (· ≠ ' '), (cs.dropWhile (· ≠ ' ')).drop 1)

/-- An address, if there is one, and the path after it. -/
def splitTarget (cs : List Char) : Option String × String :=
  let address := cs.takeWhile (· ≠ '/')
  (if address.isEmpty then none else some (String.ofList address),
    String.ofList (cs.dropWhile (· ≠ '/')))

/-- What a line asks for. -/
def ofString (line : String) : ConsoleLine :=
  let (method, rest) := splitBlank (Text.trimEnd line).toList
  let (target, body) := splitBlank rest
  match method, (String.ofList target).toNat? with
  | ['W', 'A', 'I', 'T'], some milliseconds => wait milliseconds
  | _, _ =>
    let (address, path) := splitTarget target
    ask address
      ⟨String.ofList method, path, some "application/json", Utf8.encode (String.ofList body)⟩

end ConsoleLine

/-! ### Answers -/

namespace Network

/-- The most rounds after one line. -/
def roundLimit : Nat := 1000

/-- Asks the node at an address, or the first one; there is no reply if there is no such node. -/
def ask (net : Network) (address : Option String) (r : HttpRequest) :
    Option (HttpReply × Network) := do
  let (name, _) ← address.elim net.members.head? net.having?
  net.at? name fun (n, w) =>
    let (reply, n) := n.answer r
    (reply, n, w)

/-- A reply as a line: the number of its status, and the body if there is one. -/
def replyLine (r : HttpReply) : String :=
  toString r.status.code ++ r.body.elim "" fun b => " " ++ b.render

/-- Does what a line asks for, then lets the network settle; the line to answer. -/
def obey (net : Network) (line : ConsoleLine) : String × Network :=
  let (answer, net) :=
    match line with
    | .wait milliseconds => ("OK", net.wait milliseconds)
    | .ask address r =>
      match net.ask address r with
      | some (reply, net) => (replyLine reply, net)
      | none => ("nobody there", net)
  (answer, (settle post roundLimit net).2)

end Network

end TrieOverlay
