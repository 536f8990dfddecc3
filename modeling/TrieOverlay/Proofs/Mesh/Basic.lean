import Mathlib.Logic.Function.Basic
import TrieOverlay.Command
import TrieOverlay.Node.Changes
import TrieOverlay.Node.Service
import TrieOverlay.Proofs.Node.Delivery

/-!
# Nodes that work at the same time

In a *mesh* every node works off the jobs of its cycle one by one, whenever it likes, and between
any two jobs anything may happen anywhere else.  A message that a node hands to its router becomes a
`Post`.  A post may arrive at any node, any number of times and at any time; which node it is that
the routing tables point to is left open.  The sender is told that a message was delivered only when
some node accepted it, and may be told at any time that it was not.

* `Mesh.step` is what a `Mesh.Move` makes of a mesh, `Mesh.run` what several moves do one after the
  other.
* `Mesh.run_cycle`: a whole cycle of a node is a run.
-/

namespace TrieOverlay

/-- A node, and what is left to do of its cycle. -/
structure Worker where
  /-- The node. -/
  node : Node
  /-- The jobs that are left, none between two cycles. -/
  agenda : List Job

/-- A message on its way. -/
structure Post (ι : Type) where
  /-- The node that sent it. -/
  sender : ι
  /-- What the node handed to its router. -/
  dispatch : Dispatch
  /-- The message as it is posted. -/
  envelope : Envelope
  /-- Whether a node accepted it. -/
  accepted : Bool

/-- Nodes, and the messages that they sent. -/
structure Mesh (ι : Type) where
  /-- The nodes. -/
  workers : ι → Worker
  /-- The messages in the order in which they were sent. -/
  posts : List (Post ι)

namespace Mesh

variable {ι : Type}

/-- Something that happens in a mesh. -/
inductive Move (ι : Type) where
  /-- A node begins a cycle. -/
  | begin (i : ι)
  /-- A node does the next job of its cycle. -/
  | work (i : ι)
  /-- A message arrives at a node. -/
  | arrive (k : Nat) (i : ι)
  /-- The sender of a message is told what became of it. -/
  | tell (k : Nat) (delivered : Bool)
  /-- A node hands off the entries that do not belong to its path. -/
  | handOff (i : ι)
  /-- A request is submitted at a node. -/
  | submit (i : ι) (request : Submission)
  /-- The application of a node changes entries. -/
  | change (i : ι) (operation : Operation) (entries : List Entry) (propagate : Bool)
  /-- Time passes for a node. -/
  | wait (i : ι) (milliseconds : Nat)

/-- The router of a node: it posts what it gets, and reports a message that cannot be read. -/
def post (i : ι) : Router (List (Post ι)) := fun d n posts =>
  match n.tryOnDisk (Envelope.ofMessage d.target.strategy n.peer.info.id d.message) with
  | (.ok e, n) => (n, posts ++ [⟨i, d, e, false⟩])
  | (.error _, n) => (n.report d.sender d.message.header.id false, posts)

/-- What a change of the application makes of a node; an update always propagates. -/
def changed (n : Node) (entries : List Entry) (propagate : Bool) : Operation → Node
  | .insert => n.insert entries propagate
  | .update => n.update entries
  | .delete => n.delete entries propagate

section
variable [DecidableEq ι]

/-- The mesh with another node in the place of one, which has the same left to do. -/
def setNode (s : Mesh ι) (i : ι) (n : Node) : Mesh ι :=
  { s with workers := Function.update s.workers i ⟨n, (s.workers i).agenda⟩ }

/-- What a move makes of a mesh.  A node begins a cycle only when nothing is left of the last one,
and the sender of a message that nobody accepted is not told that it was delivered. -/
def step (s : Mesh ι) : Move ι → Mesh ι
  | .begin i =>
    let n := (s.workers i).node
    let agenda := n.queues.inOrder.map .serve ++ [.retry, .merge]
    if (s.workers i).agenda.isEmpty then
      { s with workers := Function.update s.workers i ⟨{ n with queues := .empty }, agenda⟩ }
    else s
  | .work i =>
    match (s.workers i).agenda with
    | [] => s
    | j :: js =>
      let (js', n, posts) := Node.perform (post i) j ((s.workers i).node, s.posts)
      { workers := Function.update s.workers i ⟨n, js' ++ js⟩, posts }
  | .arrive k i =>
    match s.posts[k]? with
    | none => s
    | some p =>
      let ((_, response), n) := (s.workers i).node.receive p.envelope
      { s.setNode i n with
        posts := s.posts.set k { p with accepted := p.accepted || response.accepted } }
  | .tell k delivered =>
    match s.posts[k]? with
    | none => s
    | some p =>
      if delivered && !p.accepted then s
      else s.setNode p.sender ((s.workers p.sender).node.report p.dispatch.sender
        p.dispatch.message.header.id delivered)
  | .handOff i => s.setNode i (s.workers i).node.redistribute.2
  | .submit i r => s.setNode i (Command.submitTo r (s.workers i).node).2
  | .change i o es propagate => s.setNode i (changed (s.workers i).node es propagate o)
  | .wait i milliseconds => s.setNode i ((s.workers i).node.wait milliseconds)

/-- Several moves one after the other. -/
def run (moves : List (Move ι)) (s : Mesh ι) : Mesh ι :=
  moves.foldl step s

/-! ### Whole cycles -/

/-- To work off the agenda of a node is a run. -/
theorem exists_run_work {i : ι} {js : List Job} {a b : Node × List (Post ι)}
    (h : Node.Works (post i) js a b) (workers : ι → Worker) :
    ∃ k, run (List.replicate k (.work i)) ⟨Function.update workers i ⟨a.1, js⟩, a.2⟩ =
      ⟨Function.update workers i ⟨b.1, []⟩, b.2⟩ := by
  induction h with
  | nil s => exact ⟨0, rfl⟩
  | @cons j js s t _ ih =>
    obtain ⟨k, hk⟩ := ih
    refine ⟨k + 1, ?_⟩
    rw [List.replicate_succ, run, List.foldl_cons]
    rw [← hk, run]
    congr 1
    simp [step]

/-- **A whole cycle of a node is a run.** -/
theorem run_cycle {s : Mesh ι} {i : ι} (h : (s.workers i).agenda = []) :
    ∃ k, run (.begin i :: List.replicate k (.work i)) s =
      let t := Node.cycle (post i) ((s.workers i).node, s.posts)
      ⟨Function.update s.workers i ⟨t.1, []⟩, t.2⟩ := by
  have hworks : Node.Works (post i) ((s.workers i).node.queues.inOrder.map .serve ++
      [.retry, .merge]) ({ (s.workers i).node with queues := .empty }, s.posts)
      (Node.cycle (post i) ((s.workers i).node, s.posts)) :=
    Node.works_cycle ((s.workers i).node, s.posts)
  obtain ⟨k, hk⟩ := exists_run_work hworks s.workers
  refine ⟨k, ?_⟩
  rw [run, List.foldl_cons, ← hk, run]
  congr 1
  simp [step, h]

end

end Mesh

end TrieOverlay
