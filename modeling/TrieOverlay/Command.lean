import TrieOverlay.Bulk.Draft
import TrieOverlay.Node.Changes
import TrieOverlay.Node.Cycle

/-!
# Commands

A command is what an operator asks of a node: to look at what it holds, to change it, or to go on
with its work.  `Command.run` carries one out and says what came of it.
-/

namespace TrieOverlay

/-- A request to submit to a node. -/
structure Submission where
  /-- The change it asks for. -/
  operation : Operation
  /-- The batch. -/
  draft : Bulk.Draft
  /-- Whether the batch goes into a file. -/
  inFile : Bool
  /-- The request that started the chain of messages and whether a replica sent it, unless the
  request is raised here. -/
  remote : Option (RequestId × Bool)
deriving DecidableEq, Repr

/-- What an operator asks of a node. -/
inductive Command where
  /-- Have a listener hear of a type. -/
  | listen (type : String) (listener : Listener)
  /-- Make an entry, and keep it nowhere. -/
  | create (type payload : String)
  /-- Insert entries. -/
  | insert (entries : List Entry) (propagate : Bool)
  /-- Update entries. -/
  | update (entries : List Entry)
  /-- Delete entries. -/
  | delete (entries : List Entry) (propagate : Bool)
  /-- Look an entry up. -/
  | get (id : EntryId)
  /-- Look up the entries below a key. -/
  | query (key : Key)
  /-- Look at the whole store. -/
  | dump
  /-- Hand off the entries that do not belong here. -/
  | redistribute
  /-- Tell about the peer. -/
  | stats
  /-- Move the peer to another path. -/
  | setPath (path : Key)
  /-- Submit a request. -/
  | submit (request : Submission)
  /-- Run one cycle. -/
  | cycle
  /-- Run cycles for as long as there is something to do. -/
  | work
  /-- Leave waiting requests alone. -/
  | pause
  /-- Serve waiting requests again. -/
  | resume
  /-- Say whether there is something to do. -/
  | hasWork
  /-- Look at the waiting requests. -/
  | queues
  /-- Put entries into the inbound list. -/
  | appendInbound (entries : List Entry)
  /-- Put entries into an outbound list. -/
  | appendOutbound (operation : Operation) (entries : List Entry)
  /-- Look at an outbound list. -/
  | outbound (operation : Operation)

namespace Command

/-- What comes of a command. -/
inductive Result where
  | done
  | count (n : Nat)
  | flag (b : Bool)
  | path (key : Key)
  | created (entry : Entry)
  | found (entry : Option Entry)
  | entries (list : List Entry)
  | stats (stats : Stats)
  | queues (queues : Queues)
  | submitted (isLocal : Bool)

/-- Why a command cannot be carried out. -/
inductive Failure where
  /-- A file cannot be read or written. -/
  | storage (cause : StorageError)
  /-- The entries to hand off cannot be written to a file. -/
  | handOff (cause : StorageError)
deriving DecidableEq, Repr

/-- The most cycles that a node runs at one command. -/
def workLimit : Nat := 10000

variable {ω : Type}

/-- The payload of a submission. -/
def payloadOf (r : Submission) (scratch : Path) : TryDisk Payload := do
  if r.inFile then return .file (← r.draft.createIn scratch)
  return .entries (r.draft.entries.getD [])

/-- Submits a request; whether it counts as raised here. -/
def submitTo (r : Submission) (n : Node) : Except StorageError Bool × Node :=
  match n.tryOnDisk (payloadOf r n.holdings.scratch), r.remote with
  | (.error e, n), _ => (.error e, n)
  | (.ok payload, n), none => (.ok true, n.submit r.operation payload)
  | (.ok payload, n), some (parent, viaReplica) =>
    let (message, n) := n.newIdent
    (.ok false, n.submitFrom r.operation payload message parent viaReplica)

/-- The result of something that may fail on the volume. -/
def resultOf {α : Type} (f : α → Result) :
    Except StorageError α × Node → Except Failure Result × Node
  | (.ok a, n) => (.ok (f a), n)
  | (.error e, n) => (.error (.storage e), n)

/-- Carries out a command for which the node needs no router. -/
def runAlone (n : Node) : Command → Except Failure Result × Node
  | listen type listener =>
    let n := n.listen type listener
    (.ok (.count (n.holdings.listeners.count type)), n)
  | create type payload => (n.create type payload).map (.ok ∘ .created) id
  | insert entries propagate => (.ok .done, n.insert entries propagate)
  | update entries => (.ok .done, n.update entries)
  | delete entries propagate => (.ok .done, n.delete entries propagate)
  | get id => (.ok (.found (n.find? id)), n)
  | query key => (.ok (.entries (n.query key)), n)
  | dump => (.ok (.entries (n.holdings.store.get none)), n)
  | redistribute =>
    match n.redistribute with
    | (.ok count, n) => (.ok (.count count), n)
    | (.error e, n) => (.error (.handOff e), n)
  | stats => n.stats.map (.ok ∘ .stats) id
  | setPath path => (.ok (.path path), n.setPath path)
  | submit request => resultOf .submitted (submitTo request n)
  | pause => (.ok (.flag n.pause.isPaused), n.pause)
  | resume => (.ok (.flag n.resume.isPaused), n.resume)
  | hasWork => n.hasWork.map (.ok ∘ .flag) id
  | queues => (.ok (.queues n.queues), n)
  | appendInbound entries => resultOf .count (n.tryAsk (·.appendInbound entries))
  | appendOutbound operation entries =>
    resultOf .count (n.tryAsk (·.appendOutbound operation entries))
  | outbound operation =>
    (n.onDisk (n.holdings.outboundEntries operation)).map (.ok ∘ .entries) id
  | cycle | work => (.ok .done, n)

/-- Carries out a command. -/
def run (router : Router ω) (c : Command) (s : Node × ω) : Except Failure Result × (Node × ω) :=
  match c with
  | cycle => (.ok .done, Node.cycle router s)
  | work =>
    let (n, w) := Node.work router workLimit s
    let (busy, n) := n.hasWork
    (.ok (.flag busy), n, w)
  | c =>
    let (result, n) := runAlone s.1 c
    (result, n, s.2)

end Command

end TrieOverlay
