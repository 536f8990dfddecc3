import Mathlib.Data.List.Perm.Basic
import TrieOverlay.Proofs.Disk.Faults
import TrieOverlay.Proofs.Envelope
import TrieOverlay.Proofs.Node.Frame
import TrieOverlay.Proofs.Node.Opening
import TrieOverlay.Proofs.Routing.Forwarding
import TrieOverlay.Proofs.Routing.Ownership

/-!
# One hop of a batch

A peer that serves a batch sends the part at each level of its path on, and shares the owned part.
`Router.noting` notes what the router is handed on the way, and otherwise is the router
(`Node.forget_serve`).

* `outgoing` are the parts that are sent, with their branches.  Each is what the batch has below its
  branch (`part_of_mem_outgoing`), no two branches are compatible (`outgoing_apart`), and with the
  owned entries the parts are the batch (`outgoing_perm`).
* `Node.serve_entries`: to serve a batch is to send these parts, to apply what is owned if another
  peer delivered it, and to share that.
* `Request.Spawns`: the messages that come of a request in any number of hops.  They all name the
  parent of the request (`Node.header_of_spawns`).

`Node.hop_covers_batch_once` puts these together.
-/

namespace TrieOverlay

/-! ### The parts of a batch -/

section

variable {path branch : Key} {level : Nat} {batch : List Entry} {p : Key × List Entry}

/-- The parts of a batch that leave a path, each with the branch that it goes to. -/
def outgoing (path : Key) (batch : List Entry) : List (Key × List Entry) :=
  (List.range path.length).filterMap fun i =>
    if atLevel path i batch = [] then none
    else (path.branchAt? i).map fun branch => (branch, atLevel path i batch)

theorem mem_outgoing (h : p ∈ outgoing path batch) :
    ∃ i < path.length, path.branchAt? i = some p.1 ∧ p.2 = atLevel path i batch ∧ p.2 ≠ [] := by
  obtain ⟨i, hi, hp⟩ := List.mem_filterMap.1 h
  split at hp
  · cases hp
  · obtain ⟨branch, hbranch, rfl⟩ := Option.map_eq_some_iff.1 hp
    exact ⟨i, List.mem_range.1 hi, hbranch, rfl, ‹_›⟩

/-- Below the branch at a level are the keys of that level. -/
theorem isPrefixOf_branch_iff (hl : level < path.length) (hb : path.branchAt? level = some branch)
    (key : Key) : branch.isPrefixOf key = true ↔ path.levelOf key = level := by
  have hleaves : path.Leaves level key ↔ branch.isPrefixOf key = true := by
    rw [Key.Leaves, hb]
    simp
  rw [← hleaves, Key.leaves_iff, ← owns_eq_isCompatibleWith, owns_eq_false_iff]
  constructor
  · exact fun h => h.2.symm
  · rintro rfl
    exact ⟨hl, rfl⟩

/-- A part is what the batch has below the branch, in the order of the batch. -/
theorem part_of_mem_outgoing (h : p ∈ outgoing path batch) :
    p.2 = (batch.filter fun e => p.1.isPrefixOf e.key) ∧ p.2 ≠ [] := by
  obtain ⟨i, hi, hbranch, hpart, hne⟩ := mem_outgoing h
  refine ⟨?_, hne⟩
  rw [hpart, atLevel]
  refine List.filter_congr fun e _ => ?_
  rw [Bool.eq_iff_iff, beq_iff_eq, isPrefixOf_branch_iff hi hbranch]

theorem Key.isPrefixOf_self (k : Key) : k.isPrefixOf k = true :=
  List.isPrefixOf_iff_prefix.2 (List.prefix_refl _)

/-- The branches at two levels are not compatible: each has the keys of its own level only. -/
theorem not_compatible_of_ne {i j : Nat} {b b' : Key} (hi : i < path.length)
    (hj : j < path.length) (hb : path.branchAt? i = some b) (hb' : path.branchAt? j = some b')
    (hne : i ≠ j) : b.isCompatibleWith b' = false := by
  have hself := (isPrefixOf_branch_iff hi hb b).1 b.isPrefixOf_self
  have hself' := (isPrefixOf_branch_iff hj hb' b').1 b'.isPrefixOf_self
  rw [Key.isCompatibleWith, Bool.or_eq_false_iff, Bool.eq_false_iff, Bool.eq_false_iff]
  constructor
  · rw [Ne, isPrefixOf_branch_iff hi hb, hself']
    exact hne.symm
  · rw [Ne, isPrefixOf_branch_iff hj hb', hself]
    exact hne

theorem outgoing_apart (path : Key) (batch : List Entry) :
    (outgoing path batch).Pairwise fun p q => p.1.isCompatibleWith q.1 = false := by
  rw [outgoing, List.pairwise_filterMap]
  refine (List.pairwise_lt_range.imp_of_mem ?_)
  intro i j hi hj hlt p hp q hq
  split at hp
  · cases hp
  split at hq
  · cases hq
  obtain ⟨b, hb, rfl⟩ := Option.map_eq_some_iff.1 hp
  obtain ⟨b', hb', rfl⟩ := Option.map_eq_some_iff.1 hq
  exact not_compatible_of_ne (List.mem_range.1 hi) (List.mem_range.1 hj) hb hb' (Nat.ne_of_lt hlt)

/-- The parts are together what is not owned. -/
theorem flatMap_outgoing (path : Key) (batch : List Entry) :
    (outgoing path batch).flatMap (·.2) =
      (List.range path.length).flatMap fun i => atLevel path i batch := by
  rw [outgoing, List.filterMap_eq_flatMap_toList, List.flatMap_assoc]
  refine List.flatMap_congr fun i hi => ?_
  obtain ⟨branch, hbranch⟩ := Job.exists_branchAt? (List.mem_range.1 hi)
  by_cases hnil : atLevel path i batch = []
  · rw [if_pos hnil, hnil]
    rfl
  · rw [if_neg hnil, hbranch]
    exact List.append_nil _

/-- The parts and the owned entries are the batch. -/
theorem outgoing_perm (path : Key) (batch : List Entry) :
    ((outgoing path batch).flatMap (·.2) ++ ownedBy path batch).Perm batch := by
  rw [flatMap_outgoing]
  refine ((flatMap_atLevel_perm path batch).append_right _).trans ?_
  exact List.perm_append_comm.trans (List.filter_append_perm _ batch)

end

/-! ### Noting what a router is handed -/

/-- A message that was handed to a router. -/
structure Handover where
  /-- The message and where it goes. -/
  dispatch : Dispatch
  /-- The node when the router got the message. -/
  given : Node
  /-- The node when the router was done with it. -/
  left : Node

namespace Handover

/-- What the message is about. -/
def header (h : Handover) : Header :=
  h.dispatch.message.header

/-- The entries that the message carries. -/
def entries (h : Handover) : List Entry :=
  match h.dispatch.message.cargo with
  | .entries batch => batch
  | .file _ => []

/-- The branch of the message, and its entries. -/
def part (h : Handover) : Key × List Entry :=
  (h.header.branch, h.entries)

/-- A message of a task that carries entries. -/
structure Says (h : Handover) (task : Task) (target : Target) (branch : Key)
    (es : List Entry) : Prop where
  target_eq : h.dispatch.target = target
  branch_eq : h.header.branch = branch
  operation_eq : h.header.operation = task.operation
  parent_eq : h.header.parent = task.parent
  cargo_eq : h.dispatch.message.cargo = .entries es

end Handover

variable {ω : Type}

/-- The router that also notes what it is handed. -/
def Router.noting (router : Router ω) : Router (List Handover × ω) := fun d n s =>
  let (left, w) := router d n s.2
  (left, s.1 ++ [⟨d, n, left⟩], w)

/-- What all messages of a request have in common. -/
def Request.task (r : Request) : Task :=
  ⟨r.operation, r.parent, r.isLocal⟩

namespace Node

variable {router : Router ω} {task : Task} {path : Key} {batch : List Entry} {n n' : Node}
  {hs : List Handover}

/-- What was noted is forgotten. -/
def forget (s : Node × List Handover × ω) : Node × ω :=
  (s.1, s.2.2)

theorem forget_sendLevels (router : Router ω) (task : Task) (path : Key)
    (levels : List (Option Payload)) (s : Node × List Handover × ω) :
    forget (sendLevels router.noting task path levels s) =
      sendLevels router task path levels (forget s) := by
  refine (List.foldl_hom forget fun s level => ?_).symm
  obtain ⟨level, i⟩ := level
  rw [sendLevel, sendLevel]
  cases level <;> cases path.branchAt? i <;> rfl

theorem forget_serveLocal (task : Task) (x : Payload) (s : Node × List Handover × ω) :
    forget (serveLocal router.noting task x s) = serveLocal router task x (forget s) := by
  have hnode : (forget s).1 = s.1 := rfl
  rw [serveLocal, serveLocal, hnode]
  by_cases hs : s.1.peer.isSuperPeer
  · simp only [if_pos hs]
    rcases s.1.split s.1.peer.path x with ⟨_ | ⟨levels, owned⟩, n⟩
    · rfl
    · have hlevels := forget_sendLevels router task s.1.peer.path levels (n, s.2)
      simp only [forget] at hlevels ⊢
      simp only [← hlevels]
      cases owned <;> rfl
  · simp only [if_neg hs]
    rfl

theorem forget_serveRemote (task : Task) (x : Payload) (viaReplica : Bool)
    (s : Node × List Handover × ω) :
    forget (serveRemote router.noting task x viaReplica s) =
      serveRemote router task x viaReplica (forget s) := by
  rw [serveRemote, serveRemote]
  by_cases hv : viaReplica
  · simp only [forget, if_pos hv]
  · simp only [forget, if_neg hv]
    rcases s.1.split s.1.peer.path x with ⟨_ | ⟨levels, owned⟩, n⟩
    · rfl
    · have hlevels := forget_sendLevels router task s.1.peer.path levels (n, s.2)
      simp only [forget] at hlevels
      simp only [← hlevels]
      cases owned <;> rfl

/-- A router that notes what it is handed does everything else as before. -/
theorem forget_serve (s : Node × List Handover × ω) (r : Request) :
    forget (serve router.noting s r) = serve router (forget s) r := by
  rw [serve, serve]
  cases r.origin with
  | here =>
    by_cases hempty : r.payload = .entries []
    · simp only [if_pos hempty]
    · simp only [if_neg hempty]
      exact forget_serveLocal ..
  | peer message parent viaReplica => exact forget_serveRemote ..

/-! ### What serving a batch comes to -/

/-- Sends parts of a batch to their branches, in order. -/
def sendParts (router : Router ω) (task : Task) (parts : List (Key × List Entry))
    (s : Node × ω) : Node × ω :=
  parts.foldl (fun s p => send router task p.1 (.entries p.2) s) s

/-- Applies the owned entries of a task that another peer delivered.  Those of a request that was
raised here were applied then. -/
def takeOwned (n : Node) (task : Task) (path : Key) (owned : List Entry) : Node :=
  if task.isLocal then n else n.applyOwned path task.operation owned

/-- Applies the owned entries of a task, and shares them if there are any. -/
def shareOwned (router : Router ω) (task : Task) (path : Key) (owned : List Entry)
    (s : Node × ω) : Node × ω :=
  let n := s.1.takeOwned task path owned
  if owned = [] then (n, s.2) else broadcast router task path (.entries owned) (n, s.2)

theorem takeOwned_nil (n : Node) (task : Task) (path : Key) : n.takeOwned task path [] = n :=
  ite_self n

theorem split_entries (n : Node) (path : Key) (batch : List Entry) :
    n.split path (.entries batch) =
      (some ((List.range path.length).map fun i => payloadOf (atLevel path i batch),
        payloadOf (ownedBy path batch)), n) := by
  rw [split, splitOwned_eq]
  simp only [List.map_map]
  rfl

theorem payloadOf_eq (es : List Entry) :
    payloadOf es = if es = [] then none else some (.entries es) := by
  cases es <;> rfl

/-- What is sent level by level are the parts that leave the path. -/
theorem sendLevels_eq (router : Router ω) (task : Task) (path : Key) (batch : List Entry)
    (s : Node × ω) :
    sendLevels router task path
        ((List.range path.length).map fun i => payloadOf (atLevel path i batch)) s =
      sendParts router task (outgoing path batch) s := by
  rw [sendLevels, Job.zipIdx_map_range, List.foldl_map, sendParts, outgoing, List.foldl_filterMap]
  congr 1
  funext s i
  rw [sendLevel, payloadOf_eq]
  by_cases hnil : atLevel path i batch = []
  · simp only [if_pos hnil]
  · simp only [if_neg hnil]
    cases path.branchAt? i <;> rfl

theorem serveLocal_entries (router : Router ω) (ht : task.isLocal = true) (batch : List Entry)
    {s : Node × ω} (hs : s.1.peer.isSuperPeer = true) :
    serveLocal router task (.entries batch) s =
      shareOwned router task s.1.peer.path (ownedBy s.1.peer.path batch)
        (sendParts router task (outgoing s.1.peer.path batch) s) := by
  rw [serveLocal, if_pos hs, shareOwned]
  simp only [split_entries, payloadOf_eq (ownedBy _ _), sendLevels_eq, takeOwned, if_pos ht]
  by_cases howned : ownedBy s.1.peer.path batch = []
  · rw [if_pos howned, if_pos howned]
  · rw [if_neg howned, if_neg howned]
    rfl

theorem serveRemote_entries (router : Router ω) (ht : task.isLocal = false) (batch : List Entry)
    (s : Node × ω) :
    serveRemote router task (.entries batch) false s =
      shareOwned router task s.1.peer.path (ownedBy s.1.peer.path batch)
        (sendParts router task (outgoing s.1.peer.path batch) s) := by
  rw [serveRemote, if_neg Bool.false_ne_true, shareOwned]
  simp only [split_entries, payloadOf_eq (ownedBy _ _), sendLevels_eq]
  by_cases howned : ownedBy s.1.peer.path batch = []
  · rw [if_pos howned, if_pos howned, howned, takeOwned_nil]
  · rw [if_neg howned, if_neg howned, takeOwned, if_neg (by rw [ht]; exact Bool.false_ne_true)]
    rfl

/-- A peer that splits a batch sends the parts that leave its path, and keeps the owned part. -/
theorem serve_entries (router : Router ω) {r : Request} (hr : r.payload = .entries batch)
    {s : Node × ω} (hs : (s.1.errand r).IsSplitBy s.1.peer) :
    serve router s r =
      shareOwned router r.task s.1.peer.path (ownedBy s.1.peer.path batch)
        (sendParts router r.task (outgoing s.1.peer.path batch) s) := by
  obtain ⟨id, operation, payload, origin⟩ := r
  obtain rfl : payload = .entries batch := hr
  rw [serve]
  cases origin with
  | here =>
    by_cases hnil : batch = []
    · -- nothing leaves the path, and nothing is owned
      subst hnil
      have hparts : outgoing s.1.peer.path [] = [] := by simp [outgoing, atLevel]
      have howned : ownedBy s.1.peer.path [] = [] := rfl
      simp only [if_true, hparts, howned, shareOwned, takeOwned_nil, sendParts, List.foldl_nil]
    · simp only [Payload.entries.injEq, if_neg hnil]
      exact serveLocal_entries router rfl batch hs
  | peer message parent viaReplica =>
    obtain rfl : viaReplica = false := hs
    exact serveRemote_entries router rfl batch s

/-! ### The messages of a request -/

/-- The node that the router gets with a message that is sent. -/
def launched (n : Node) (task : Task) (x : Payload) : Node :=
  ({ n with serial := n.serial + 1 } : Node).takeOff (.ofSerial n.serial) task x

/-- Messages of a task were handed over one after the other.  In between nothing else happened to
the node, but that each message got a name and is in flight when the router gets it. -/
inductive Routed (task : Task) : Node → List Handover → Node → Prop
  | nil (n : Node) : Routed task n [] n
  | cons {n left n' : Node} {hs : List Handover} (branch : Key) (es : List Entry) :
      Routed task left hs n' →
      Routed task n
        (⟨n.dispatch task (.toward branch) branch (.entries es), n.launched task (.entries es),
          left⟩ :: hs) n'

theorem Routed.worded (h : Routed task n hs n') :
    ∀ a ∈ hs, a.Says task (.toward a.header.branch) a.header.branch a.entries := by
  induction h with
  | nil => exact List.forall_mem_nil _
  | cons branch es _ ih => exact List.forall_mem_cons.2 ⟨⟨rfl, rfl, rfl, rfl, rfl⟩, ih⟩

/-- A message is in flight when the router gets it. -/
theorem Routed.tracked (h : Routed task n hs n') :
    ∀ a ∈ hs, a.given.entryFlights.attempts[a.header.id]? =
      some ⟨task.operation, a.entries, task.isLocal, task.parent⟩ := by
  induction h with
  | nil => exact List.forall_mem_nil _
  | cons branch es _ ih =>
    refine List.forall_mem_cons.2 ⟨?_, ih⟩
    exact (InFlight.getElem?_register _ _).trans (if_pos rfl)

theorem routed_sendParts (router : Router ω) (task : Task) (parts : List (Key × List Entry))
    (n : Node) (log : List Handover) (w : ω) :
    let s := sendParts router.noting task parts (n, log, w)
    ∃ routed, s.2.1 = log ++ routed ∧ routed.map Handover.part = parts ∧
      Routed task n routed s.1 := by
  induction parts generalizing n log w with
  | nil => exact ⟨[], (List.append_nil log).symm, rfl, .nil n⟩
  | cons p parts ih =>
    let d := n.dispatch task (.toward p.1) p.1 (.entries p.2)
    let given := n.launched task (.entries p.2)
    obtain ⟨routed, hlog, hparts, hrouted⟩ :=
      ih (router d given w).1 (log ++ [⟨d, given, (router d given w).1⟩]) (router d given w).2
    refine ⟨⟨d, given, (router d given w).1⟩ :: routed, ?_, ?_, .cons p.1 p.2 hrouted⟩
    · rw [List.append_cons]
      exact hlog
    · rw [List.map_cons, hparts]
      rfl

/-- Messages cover what a path does not own of a batch. -/
structure Covers (path : Key) (batch : List Entry) (routed : List Handover) : Prop where
  /-- The messages and the owned entries are the batch. -/
  perm : (routed.flatMap Handover.entries ++ ownedBy path batch).Perm batch
  /-- A message has what the batch has below its branch, in the order of the batch. -/
  below : ∀ a ∈ routed, a.entries = batch.filter fun e => a.header.branch.isPrefixOf e.key
  nonempty : ∀ a ∈ routed, a.entries ≠ []
  apart : routed.Pairwise fun a b => a.header.branch.isCompatibleWith b.header.branch = false

theorem covers_of_map_part {routed : List Handover}
    (h : routed.map Handover.part = outgoing path batch) : Covers path batch routed where
  perm := by
    have hperm := outgoing_perm path batch
    rwa [← h, List.flatMap_map] at hperm
  below a ha := (part_of_mem_outgoing (h ▸ List.mem_map_of_mem ha)).1
  nonempty a ha := (part_of_mem_outgoing (h ▸ List.mem_map_of_mem ha)).2
  apart := by
    have hapart := outgoing_apart path batch
    rwa [← h, List.pairwise_map] at hapart

/-- Owned entries were taken by a node, and then shared with the replicas if there are any.  Nothing
is in flight for that. -/
structure SharesOwned (task : Task) (path : Key) (owned : List Entry) (n : Node)
    (shared : Option Handover) (n' : Node) : Prop where
  isSome_iff : shared.isSome ↔ owned ≠ []
  worded : ∀ a ∈ shared, a.Says task .replicas path owned
  given_eq : ∀ a ∈ shared, a.given =
    { n.takeOwned task path owned with serial := (n.takeOwned task path owned).serial + 1 }
  left_eq : n' = shared.elim (n.takeOwned task path owned) Handover.left

theorem shares_shareOwned (router : Router ω) (task : Task) (path : Key) (owned : List Entry)
    (n : Node) (log : List Handover) (w : ω) :
    let s := shareOwned router.noting task path owned (n, log, w)
    ∃ shared : Option Handover, s.2.1 = log ++ shared.toList ∧
      SharesOwned task path owned n shared s.1 := by
  intro s
  let m := n.takeOwned task path owned
  by_cases howned : owned = []
  · have hs : s = (m, log, w) := if_pos howned
    rw [hs]
    exact ⟨none, (List.append_nil log).symm, by simpa using howned, by simp, by simp, rfl⟩
  · let d := m.dispatch task .replicas path (.entries owned)
    let given : Node := { m with serial := m.serial + 1 }
    let left := router d given w
    have hs : s = (left.1, log ++ [⟨d, given, left.1⟩], left.2) := if_neg howned
    rw [hs]
    refine ⟨some ⟨d, given, left.1⟩, rfl, by simpa using howned, ?_, ?_, rfl⟩
    · rintro a ⟨⟩
      exact ⟨rfl, rfl, rfl, rfl, rfl⟩
    · rintro a ⟨⟩
      rfl

end Node

/-! ### Chains of hops -/

/-- Whether a job is one of a task. -/
def Job.IsOf (task : Task) : Job → Prop
  | serve r => r.task = task
  | send t _ _ | apply t _ _ _ | share t _ _ => t = task
  | drop _ => True
  | retry | resend _ | merge => False

/-- A message is sent when a request is served: at some node, through some router. -/
def Request.Sends (r : Request) (m : Message) : Prop :=
  ∃ (ω : Type) (router : Router ω) (n : Node) (w : ω),
    ∃ a ∈ (Node.serve router.noting (n, [], w) r).2.1, a.dispatch.message = m

/-- A message becomes a request: it is posted by one peer, and another one receives it and puts the
request behind those that wait. -/
def Message.Becomes (m : Message) (r : Request) : Prop :=
  ∃ (strategy : Strategy) (sender : PeerId) (v v' : Volume) (e : Envelope) (n : Node),
    (Envelope.ofMessage strategy sender m).run.run v = (.ok e, v') ∧
      (n.receive e).2.queues = n.queues.push r

/-- The messages that come of a request in any number of hops. -/
inductive Request.Spawns (r : Request) : Message → Prop
  | sends {m : Message} : r.Sends m → Spawns r m
  | hop {m m' : Message} {r' : Request} : Spawns r m → m.Becomes r' → r'.Sends m' → Spawns r m'

namespace Node

variable {router : Router ω} {task : Task} {x : Payload}

theorem isOf_of_mem_splitJobs {owned : Payload → Job} {s : Node × ω} {j : Job}
    (hj : j ∈ (splitJobs task x owned s).1) (howned : ∀ y, (owned y).IsOf task) :
    j.IsOf task := by
  obtain ⟨branch, y, rfl⟩ | ⟨y, rfl⟩ := mem_splitJobs hj
  · rfl
  · exact howned y

/-- The jobs that come of a request are those of its task. -/
theorem isOf_perform_serve (router : Router ω) (r : Request) (s : Node × ω) :
    ∀ j ∈ (perform router (.serve r) s).1, j.IsOf r.task := by
  simp only [perform]
  cases r.origin with
  | here =>
    dsimp only
    split
    · exact List.forall_mem_nil _
    · split
      · exact fun j hj => isOf_of_mem_splitJobs hj fun _ => rfl
      · exact List.forall_mem_singleton.2 rfl
  | peer message parent viaReplica =>
    cases viaReplica with
    | false => exact fun j hj => isOf_of_mem_splitJobs hj fun _ => rfl
    | true => exact List.forall_mem_singleton.2 rfl

/-- The jobs that are left are those of a task, and so are the messages that were noted. -/
structure OfTask (task : Task) (js : List Job) (log : List Handover) : Prop where
  jobs : ∀ j ∈ js, j.IsOf task
  header : ∀ a ∈ log, a.header.parent = task.parent ∧ a.header.operation = task.operation

theorem OfTask.perform {j : Job} {js : List Job} {s : Node × List Handover × ω}
    (h : OfTask task (j :: js) s.2.1) :
    OfTask task ((Node.perform router.noting j s).1 ++ js)
      (Node.perform router.noting j s).2.2.1 := by
  obtain ⟨hj, hjs⟩ := List.forall_mem_cons.1 h.jobs
  cases j with
  | serve r =>
    obtain rfl : r.task = task := hj
    obtain ⟨-, hlog⟩ := @perform_serve_frame _ router.noting r s
    rw [hlog]
    exact ⟨List.forall_mem_append.2 ⟨isOf_perform_serve _ r s, hjs⟩, h.header⟩
  | send t branch x =>
    obtain rfl : t = task := hj
    exact ⟨hjs, List.forall_mem_append.2 ⟨h.header, List.forall_mem_singleton.2 ⟨rfl, rfl⟩⟩⟩
  | apply t path x shared =>
    obtain rfl : t = task := hj
    refine ⟨List.forall_mem_cons.2 ⟨?_, hjs⟩, h.header⟩
    cases shared <;> trivial
  | share t path x =>
    obtain rfl : t = task := hj
    exact ⟨List.forall_mem_cons.2 ⟨trivial, hjs⟩,
      List.forall_mem_append.2 ⟨h.header, List.forall_mem_singleton.2 ⟨rfl, rfl⟩⟩⟩
  | drop x => exact ⟨hjs, h.header⟩
  | retry | resend o | merge => exact hj.elim

/-- All messages of a request name the same parent and ask for the same change. -/
theorem header_of_sends {r : Request} {m : Message} (h : r.Sends m) :
    m.header.parent = r.parent ∧ m.header.operation = r.operation := by
  obtain ⟨ω, router, n, w, a, ha, rfl⟩ := h
  have hstart : OfTask r.task [.serve r] ([] : List Handover) :=
    ⟨List.forall_mem_singleton.2 rfl, List.forall_mem_nil _⟩
  refine ((works_serve r (n, [], w)).invariant (I := fun js s => OfTask r.task js s.2.1)
    (fun j js s h => ?_) hstart).header a ha
  exact h.perform

/-! ### Arrival -/

theorem push_inj {q : Queues} {r r' : Request} (h : q.push r = q.push r') : r = r' := by
  have hperm := (inOrder_push_perm q r).symm.trans (h ▸ inOrder_push_perm q r')
  have hsingle : ([r] ++ q.inOrder).Perm ([r'] ++ q.inOrder) := hperm
  exact List.singleton_perm_singleton.1 ((List.perm_append_right_iff q.inOrder).1 hsingle)

theorem push_ne (q : Queues) (r : Request) : q.push r ≠ q := by
  intro h
  have hlength := (inOrder_push_perm q r).length_eq
  rw [h, List.length_cons] at hlength
  omega

/-- The envelope of a message has its header. -/
theorem ends_ofMessage (m : Message) (strategy : Strategy) (sender : PeerId) (v : Volume) :
    TryDisk.Ends (Envelope.ofMessage strategy sender m) v
      (fun e _ => ∃ content, e.unwrap = .ok ⟨m.header, content⟩) fun _ _ => True := by
  have hparcel : TryDisk.Ends (Parcel.ofMessage m) v (fun p _ => p.header = m.header)
      fun _ _ => True := by
    obtain ⟨header, cargo⟩ := m
    cases cargo with
    | entries batch => exact TryDisk.ends_pure rfl
    | file p =>
      have hread : TryDisk.Ends (Bulk.readLines p) v (fun _ _ => True) fun _ _ => True := by
        rw [TryDisk.Ends, Disk.Ends]
        split <;> trivial
      exact hread.bind fun lines v₁ _ => TryDisk.ends_pure rfl
  refine hparcel.bind fun p v₁ hp => TryDisk.ends_pure ⟨p.content, ?_⟩
  rw [Envelope.unwrap_wrap, ← hp]

/-- A request that a message becomes names the parent of the message, and asks for its change. -/
theorem header_of_becomes {m : Message} {r : Request} (h : m.Becomes r) :
    r.parent = m.header.parent ∧ r.operation = m.header.operation := by
  obtain ⟨strategy, sender, v, v', e, n, hrun, hqueues⟩ := h
  obtain ⟨content, hunwrap⟩ := (ends_ofMessage m strategy sender v).of_ok hrun
  have hpayload := n.queues_payloadOfContent content
  rw [receive, hunwrap] at hqueues
  dsimp only at hqueues
  rcases hcontent : n.payloadOfContent content with ⟨_ | x, n'⟩ <;>
    rw [hcontent] at hqueues hpayload
  · exact absurd (hqueues.symm.trans hpayload) (push_ne _ _)
  · have hpush : n.queues.push r = n.queues.push ⟨.ofSerial n'.serial, m.header.operation, x,
        .peer m.header.id m.header.parent e.viaReplica⟩ := hpayload ▸ hqueues.symm
    obtain rfl := push_inj hpush
    exact ⟨rfl, rfl⟩

/-- Every node takes a message with entries as a request. -/
theorem becomes_of_entries {m : Message} {batch : List Entry} (h : m.cargo = .entries batch)
    (n : Node) : m.Becomes ⟨.ofSerial n.serial, m.header.operation, .entries batch,
      .peer m.header.id m.header.parent false⟩ := by
  obtain ⟨header, cargo⟩ := m
  obtain rfl : cargo = .entries batch := h
  refine ⟨.greedy, ⟨"sender"⟩, .empty, .empty, _, n, rfl, ?_⟩
  rw [receive, Envelope.unwrap_wrap]
  rfl

/-- All messages that come of a request in any number of hops name its parent. -/
theorem header_of_spawns {r : Request} {m : Message} (h : r.Spawns m) :
    m.header.parent = r.parent ∧ m.header.operation = r.operation := by
  induction h with
  | sends h => exact header_of_sends h
  | hop _ hbecomes hsends ih =>
    obtain ⟨hparent, hoperation⟩ := header_of_becomes hbecomes
    obtain ⟨hparent', hoperation'⟩ := header_of_sends hsends
    exact ⟨hparent'.trans (hparent.trans ih.1), hoperation'.trans (hoperation.trans ih.2)⟩

/-! ### The hop -/

/-- **One hop covers a batch once.**  A peer that splits the batch of a request hands the router
messages toward subtrees, and after them at most one to the replicas:

* the messages and the owned entries are the batch.  Each message has what the batch has below its
  branch, in the order of the batch; it has at least one entry, and no two branches are compatible;
* each message is in flight when the router gets it, and nothing else happened to the node;
* the owned entries are applied once if another peer delivered the request, and not if it was raised
  here.  Then they go to the replicas in one message, if there are any;
* all of them name the parent of the request.  So the messages that come of a request raised here,
  in any number of hops, all name that request.
-/
theorem hop_covers_batch_once (router : Router ω) (n : Node) (w : ω) {r : Request}
    {batch : List Entry} (hr : r.payload = .entries batch) (hs : (n.errand r).IsSplitBy n.peer) :
    let s := serve router.noting (n, [], w) r
    let path := n.peer.path
    serve router (n, w) r = (s.1, s.2.2) ∧
    (∃ routed m shared, s.2.1 = routed ++ shared.toList ∧
      Covers path batch routed ∧
      (∀ a ∈ routed, a.Says r.task (.toward a.header.branch) a.header.branch a.entries ∧
        a.given.entryFlights.attempts[a.header.id]? =
          some ⟨r.operation, a.entries, r.isLocal, r.parent⟩) ∧
      Routed r.task n routed m ∧
      SharesOwned r.task path (ownedBy path batch) m shared s.1) ∧
    ∀ (start : Request) (m : Message), start.origin = .here → start.Spawns m →
      m.header.parent = start.id := by
  intro s path
  refine ⟨(forget_serve (n, [], w) r).symm, ?_, fun start m hhere hm => ?_⟩
  · have hserve : s = shareOwned router.noting r.task path (ownedBy path batch)
        (sendParts router.noting r.task (outgoing path batch) (n, [], w)) :=
      serve_entries router.noting hr hs
    obtain ⟨routed, hlog, hparts, hrouted⟩ :=
      routed_sendParts router r.task (outgoing path batch) n [] w
    rcases hsent : sendParts router.noting r.task (outgoing path batch) (n, [], w) with
      ⟨m, log, w'⟩
    rw [hsent] at hserve hlog hrouted
    obtain rfl : log = routed := hlog
    obtain ⟨shared, hshared, hshares⟩ :=
      shares_shareOwned router r.task path (ownedBy path batch) m log w'
    rw [← hserve] at hshared hshares
    exact ⟨log, m, shared, hshared, covers_of_map_part hparts,
      fun a ha => ⟨hrouted.worded a ha, hrouted.tracked a ha⟩, hrouted, hshares⟩
  · rw [(header_of_spawns hm).1, Request.parent, hhere]

/-- A batch of two entries: one is shared, and the other one goes to a peer that owns it and shares
it, with a message that still names the request. -/
theorem hop_covers_batch_once_of_two :
    let away := Sample.entry "a" ⟨[false]⟩
    let own := Sample.entry "b" ⟨[true]⟩
    let r : Request := ⟨⟨"request"⟩, .insert, .entries [away, own], .here⟩
    let router : Router Unit := fun _ n w => (n, w)
    ∃ (n n' : Node) (routed : List Handover) (shared : Handover) (r' : Request) (m : Message),
      openAt (Sample.peer ⟨[true]⟩) (.ofBits 8) 0 .root Volume.empty = .ok n ∧
      openAt (Sample.peer ⟨[false]⟩) (.ofBits 8) 0 .root Volume.empty = .ok n' ∧
      (n.errand r).IsSplitBy n.peer ∧ (n'.errand r').IsSplitBy n'.peer ∧
      (serve router.noting (n, [], ()) r).2.1 = routed ++ [shared] ∧
      shared.Says ⟨.insert, ⟨"request"⟩, true⟩ .replicas ⟨[true]⟩ [own] ∧
      (∃ a ∈ routed, away ∈ a.entries ∧ a.dispatch.message.Becomes r') ∧ r'.Sends m ∧
      m.header.parent = ⟨"request"⟩ := by
  intro away own r router
  have hopened : ∀ path, ∃ n,
      openAt (Sample.peer path) (.ofBits 8) 0 .root Volume.empty = .ok n ∧
        n.peer = Sample.peer path := fun _ => ⟨_, rfl, rfl⟩
  obtain ⟨n, hopen, hpeer⟩ := hopened ⟨[true]⟩
  obtain ⟨n', hopen', hpeer'⟩ := hopened ⟨[false]⟩
  have hsplit : (n.errand r).IsSplitBy n.peer := congrArg LocalPeer.isSuperPeer hpeer
  obtain ⟨-, ⟨routed, m, shared, hlog, hcovers, hrouted, -, hshares⟩, hchain⟩ :=
    hop_covers_batch_once router n () (r := r) rfl hsplit
  have howned : ownedBy n.peer.path [away, own] = [own] := by
    rw [hpeer]
    decide
  rw [howned, hpeer] at hshares
  obtain ⟨a, rfl⟩ := Option.isSome_iff_exists.1 (hshares.isSome_iff.2 (List.cons_ne_nil _ _))
  obtain ⟨b, hb, haway⟩ : ∃ b ∈ routed, away ∈ b.entries := by
    have hperm := hcovers.perm
    rw [howned] at hperm
    rcases List.mem_append.1 (hperm.mem_iff.2 (List.mem_cons_self ..)) with h | h
    · exact List.mem_flatMap.1 h
    · exact absurd (List.mem_singleton.1 h) (by decide)
  have hsends : r.Sends b.dispatch.message :=
    ⟨Unit, router, n, (), b, hlog ▸ List.mem_append_left _ hb, rfl⟩
  let r' : Request := ⟨.ofSerial n'.serial, b.header.operation, .entries b.entries,
    .peer b.header.id b.header.parent false⟩
  have hbecomes : b.dispatch.message.Becomes r' :=
    becomes_of_entries (hrouted b hb).1.cargo_eq n'
  obtain ⟨-, ⟨routed', m', shared', hlog', -, -, -, hshares'⟩, -⟩ :=
    hop_covers_batch_once router n' () (r := r') rfl rfl
  have hnext : away ∈ ownedBy n'.peer.path b.entries := by
    refine mem_ownedBy.2 ⟨haway, ?_⟩
    rw [hpeer']
    rfl
  obtain ⟨c, rfl⟩ := Option.isSome_iff_exists.1
    (hshares'.isSome_iff.2 (List.ne_nil_of_mem hnext))
  have hsends' : r'.Sends c.dispatch.message :=
    ⟨Unit, router, n', (), c, hlog' ▸ List.mem_append_right _ (List.mem_singleton_self c), rfl⟩
  exact ⟨n, n', routed, a, r', _, hopen, hopen', hsplit, rfl, hlog, hshares.worded a rfl,
    ⟨b, hb, haway, hbecomes⟩, hsends', hchain r _ rfl (.hop (.sends hsends) hbecomes hsends')⟩

end Node

end TrieOverlay
