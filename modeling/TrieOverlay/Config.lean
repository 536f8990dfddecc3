import TrieOverlay.Address
import TrieOverlay.Disk.Volume
import TrieOverlay.Key.Scheme
import TrieOverlay.Peer
import TrieOverlay.Toml.Parser

/-!
# Settings

The settings of a node are read from a TOML document.  Every setting has a default, so an empty
document is a good one; names that are no settings are skipped, and a setting of the wrong type is
an error.

The identifier of the peer may be left open; `Config.identify` then makes one up and keeps it.
-/

namespace TrieOverlay

/-- The settings of a node. -/
structure Config where
  /-- The identifier of the peer, if it is fixed. -/
  peerId : Option PeerId
  /-- Where the peer listens. -/
  bind : SocketAddress
  /-- The directory of its files. -/
  dataDir : String
  /-- The subtree it is responsible for. -/
  path : Key
  /-- Whether it splits batches itself. -/
  isSuperPeer : Bool
  /-- The number of bits of the keys of payloads. -/
  keyBits : Nat
  /-- The peers that it knows from the start. -/
  peers : List Neighbour
  /-- The least time between two retries in milliseconds. -/
  idlePoll : Nat
  /-- How long a post may take in milliseconds. -/
  routeTimeout : Nat
  /-- How often a post is tried. -/
  routeAttempts : Nat
deriving DecidableEq, Repr

namespace Config

/-- The settings of a peer of which nothing is said. -/
def standard : Config where
  peerId := none
  bind := .v4 ⟨[127, 0, 0, 1]⟩ 6000
  dataDir := "data"
  path := .root
  isSuperPeer := true
  keyBits := Key.defaultBits
  peers := []
  idlePoll := 1000
  routeTimeout := 2000
  routeAttempts := 3

instance : Inhabited Config := ⟨standard⟩

/-! ### Reading -/

/-- The key that a value writes. -/
def key? (v : Toml) : Option Key :=
  v.text? >>= Key.ofString?

/-- The neighbour that a table describes, or a list that starts with its identifier, its address and
its path. -/
def neighbour? (v : Toml) : Option Neighbour := do
  let (id, address, path) ← match v with
    | .table _ => do pure (← v.member? "id", ← v.member? "address", ← v.member? "path")
    | .array (id :: address :: path :: _) => pure (id, address, path)
    | _ => none
  return ⟨⟨⟨← id.text?⟩, ← address.text?⟩, ← key? path⟩

/-- A setting, or its default if the document does not have it. -/
def setting {α : Type} (document : Toml) (name : String) (read : Toml → Option α) (default : α) :
    Option α :=
  match document.member? name with
  | none => some default
  | some v => read v

/-- The settings that a document makes. -/
def ofToml? (d : Toml) : Option Config :=
  return {
    peerId := ← setting d "peer_id" (fun v => v.text?.map fun s => some ⟨s⟩) standard.peerId
    bind := ← setting d "bind" (fun v => v.text? >>= SocketAddress.ofString?) standard.bind
    dataDir := ← setting d "data_dir" Toml.text? standard.dataDir
    path := ← setting d "path" key? standard.path
    isSuperPeer := ← setting d "super_peer" Toml.bool? standard.isSuperPeer
    keyBits := ← setting d "key_bits" Toml.nat? standard.keyBits
    peers := ← setting d "peers" (Toml.listOf? neighbour?) standard.peers
    idlePoll := ← setting d "idle_poll_ms" Toml.nat? standard.idlePoll
    routeTimeout := ← setting d "route_timeout_ms" Toml.nat? standard.routeTimeout
    routeAttempts := ← setting d "route_attempts" Toml.nat? standard.routeAttempts }

/-- The settings that a text makes. -/
def parse? (text : String) : Option Config :=
  Toml.parse? text >>= ofToml?

/-- Why settings cannot be loaded. -/
inductive LoadError where
  /-- The file cannot be read, or is no text. -/
  | unreadable (path : Path)
  /-- The text makes no settings. -/
  | malformed (path : Path)
deriving DecidableEq, Repr

/-- The wording of a failure to load settings. -/
def LoadError.message : LoadError → String
  | unreadable path => "reading config " ++ toString path
  | malformed path => "parsing config " ++ toString path

/-- The settings that a file makes. -/
def ofBytes (path : Path) (bytes : Bytes) : Except LoadError Config :=
  match Utf8.decode? bytes with
  | none => .error (.unreadable path)
  | some text =>
    match parse? text with
    | some c => .ok c
    | none => .error (.malformed path)

/-- Loads the settings from a file of a volume. -/
def load (path : Path) : Disk (Except LoadError Config) := do
  match ← (Volume.read path).run with
  | .ok bytes => return ofBytes path bytes
  | .error _ => return .error (.unreadable path)

/-! ### Using -/

/-- The time between two looks at the outbound lists: at least one millisecond. -/
def pollInterval (c : Config) : Nat :=
  max c.idlePoll 1

/-- What other peers are told of the peer, and the settings with its identifier, which is made up
from a serial if it is open. -/
def identify (c : Config) (serial : Nat) : PeerInfo × Config :=
  let id := c.peerId.getD (.ofSerial serial)
  (⟨id, toString c.bind⟩, { c with peerId := some id })

/-- The peer of the settings. -/
def peer (c : Config) (info : PeerInfo) : LocalPeer :=
  ⟨info, c.path, c.isSuperPeer⟩

end Config

end TrieOverlay
