import TrieOverlay.Proofs.Node.Frame
import TrieOverlay.Proofs.Node.ScratchFiles

/-!
# Every request is served once, in order

A node, its worker and everybody else take turns (`Workplace.Move`): the worker begins a cycle or
does one more item of the cycle at hand, or somebody does something to the node, be it to submit a
request or anything else that leaves the queues alone (`Deed`).  The router acts in the same way
while a dispatch is with it.  All requests are written down when they are submitted and when they
are handed on to be served; those that a cycle makes of the outbound lists are not submitted, so
they are left out.

* `Workplace.Balanced` : for each of the four queues, what was handed on, what the cycle at hand has
  left and what waits make up what was submitted, in this order.
* `Workplace.ends` : every cycle ends, since the jobs that come of a job go less deep.
* `Workplace.run_cycle_eq` : a cycle with nothing in between is `Node.cycle`.
* `Workplace.served_once_in_order` : requests are handed on without gaps or repetition; a cycle
  serves what waits when it begins, queue by queue, and leaves what comes in meanwhile.
* `Node.comesOf_undergo` : whatever happens to a node consists of deeds.
-/

namespace TrieOverlay

/-! ### Queues -/

/-- The four queues. -/
inductive QueueName where
  | localEntries
  | localFiles
  | remoteEntries
  | remoteFiles
deriving DecidableEq, Repr

/-- The queue that a request belongs to. -/
def Request.queue (r : Request) : QueueName :=
  match r.origin, r.payload with
  | .here, .entries _ => .localEntries
  | .here, .file _ => .localFiles
  | .peer .., .entries _ => .remoteEntries
  | .peer .., .file _ => .remoteFiles

/-- The requests of some that belong to a queue, in order. -/
def requestsOf (rs : List Request) (c : QueueName) : List Request :=
  rs.filter fun r => r.queue = c

@[simp] theorem requestsOf_nil (c : QueueName) : requestsOf [] c = [] := rfl

@[simp] theorem requestsOf_append (rs rs' : List Request) (c : QueueName) :
    requestsOf (rs ++ rs') c = requestsOf rs c ++ requestsOf rs' c :=
  List.filter_append ..

namespace Queues

variable {q : Queues} {c : QueueName}

/-- One of the queues. -/
def of (q : Queues) : QueueName → List Request
  | .localEntries => q.localEntries
  | .localFiles => q.localFiles
  | .remoteEntries => q.remoteEntries
  | .remoteFiles => q.remoteFiles

/-- Requests go to the ends of their queues, one after another. -/
def pushAll (q : Queues) (rs : List Request) : Queues :=
  rs.foldl push q

@[simp] theorem of_empty (c : QueueName) : empty.of c = [] := by
  cases c <;> rfl

theorem of_push (q : Queues) (r : Request) (c : QueueName) :
    (q.push r).of c = q.of c ++ requestsOf [r] c := by
  obtain ⟨id, operation, payload, origin⟩ := r
  cases origin <;> cases payload <;> cases c <;>
    simp [push, of, requestsOf, Request.queue]

theorem of_pushAll (q : Queues) (rs : List Request) (c : QueueName) :
    (q.pushAll rs).of c = q.of c ++ requestsOf rs c := by
  induction rs generalizing q with
  | nil => simp [pushAll]
  | cons r rs ih =>
    have hrest : (q.push r).pushAll rs = q.pushAll (r :: rs) := rfl
    rw [← hrest, ih, of_push, List.append_assoc, ← requestsOf_append, List.singleton_append]

theorem pushAll_append (q : Queues) (rs rs' : List Request) :
    q.pushAll (rs ++ rs') = (q.pushAll rs).pushAll rs' :=
  List.foldl_append ..

/-- If every queue has only requests that belong to it, then the requests in order are those of each
queue. -/
theorem requestsOf_inOrder (h : ∀ c, ∀ r ∈ q.of c, r.queue = c) (c : QueueName) :
    requestsOf q.inOrder c = q.of c := by
  have hsame : ∀ c, requestsOf (q.of c) c = q.of c := by
    intro c
    exact List.filter_eq_self.2 fun r hr => by simpa using h c r hr
  have hother : ∀ c', c' ≠ c → requestsOf (q.of c') c = [] := by
    intro c' hne
    exact List.filter_eq_nil_iff.2 fun r hr => by simpa [h c' r hr] using hne
  have hinOrder : q.inOrder = q.of .localEntries ++ q.of .localFiles ++ q.of .remoteEntries ++
      q.of .remoteFiles := rfl
  rw [hinOrder, requestsOf_append, requestsOf_append, requestsOf_append]
  cases c <;> simp [hsame, hother]

end Queues

/-! ### What the application of owned entries submits -/

namespace Node

variable {n n' : Node}

/-- The request that is submitted when owned entries are applied: updated entries whose new key lies
elsewhere are to be inserted there. -/
def resubmission (n : Node) (path : Key) (operation : Operation) (entries : List Entry) :
    Option Request :=
  match operation with
  | .update =>
    let moved := (n.holdings.applyUpdate path n.keys entries).1
    if moved.isEmpty then none else some ⟨.ofSerial n.serial, .insert, .entries moved, .here⟩
  | .insert | .delete => none

theorem queues_applyOwned (path : Key) (o : Operation) (es : List Entry) :
    (n.applyOwned path o es).queues = n.queues.pushAll (n.resubmission path o es).toList := by
  unfold applyOwned
  by_cases hempty : es = []
  · subst hempty
    cases o <;> rfl
  · rw [if_neg (by simpa using hempty)]
    cases o with
    | insert => exact (SameFrame.tryAsk_snd n _).queues
    | update =>
      simp only [resubmission]
      split <;> rfl
    | delete => rfl

end Node

/-- The requests that a job submits by itself. -/
def Job.submits (j : Job) (n : Node) : List Request :=
  match j with
  | .apply task path (.entries batch) _ => (n.resubmission path task.operation batch).toList
  | .apply task path (.file f) _ =>
    match n.tryOnDisk f.entries with
    | (.ok es, n) => (n.resubmission path task.operation es).toList
    | (.error _, _) => []
  | .serve _ | .send .. | .share .. | .drop _ | .retry | .resend _ | .merge => []

/-! ### Deeds -/

/-- What can happen to a node at any moment. -/
inductive Deed where
  /-- A request is submitted here. -/
  | submit (operation : Operation) (payload : Payload)
  /-- A request that another peer delivered is submitted. -/
  | deliver (operation : Operation) (payload : Payload) (message : MessageId) (parent : RequestId)
      (viaReplica : Bool)
  /-- Anything else: the node changes at will, but for its queues. -/
  | other (after : Node)

namespace Deed

/-- A node after a deed. -/
def act (d : Deed) (n : Node) : Node :=
  match d with
  | submit o x => n.submit o x
  | deliver o x message parent viaReplica => n.submitFrom o x message parent viaReplica
  | other after => { after with queues := n.queues }

/-- The request that a deed submits. -/
def request? (d : Deed) (n : Node) : Option Request :=
  match d with
  | submit o x => some ⟨.ofSerial n.serial, o, x, .here⟩
  | deliver o x message parent viaReplica =>
    some ⟨.ofSerial n.serial, o, x, .peer message parent viaReplica⟩
  | other _ => none

theorem queues_act (d : Deed) (n : Node) :
    (d.act n).queues = n.queues.pushAll (d.request? n).toList := by
  cases d <;> rfl

end Deed

/-- A node, and the requests that were submitted to it. -/
abbrev Logged := Node × List Request

namespace Logged

variable {s t u : Logged}

/-- A deed is done, and the request that it submits is written down. -/
def act (s : Logged) (d : Deed) : Logged :=
  (d.act s.1, s.2 ++ (d.request? s.1).toList)

/-- Some requests are submitted and written down. -/
def Grows (s t : Logged) : Prop :=
  ∃ rs, t.2 = s.2 ++ rs ∧ t.1.queues = s.1.queues.pushAll rs

theorem Grows.of_queues (hqueues : t.1.queues = s.1.queues) (hlog : t.2 = s.2) : s.Grows t :=
  ⟨[], by simp [hlog], by simp [hqueues, Queues.pushAll]⟩

theorem Grows.trans (h : s.Grows t) (h' : t.Grows u) : s.Grows u := by
  obtain ⟨rs, hlog, hqueues⟩ := h
  obtain ⟨rs', hlog', hqueues'⟩ := h'
  refine ⟨rs ++ rs', ?_, ?_⟩
  · rw [hlog', hlog, List.append_assoc]
  · rw [hqueues', hqueues, Queues.pushAll_append]

theorem Grows.after {n n' : Node} {log : List Request} (h : Grows (n', log) t)
    (hqueues : n'.queues = n.queues) : Grows (n, log) t := by
  have hbefore : Grows (n, log) (n', log) := of_queues hqueues rfl
  exact hbefore.trans h

theorem grows_act (s : Logged) (d : Deed) : s.Grows (s.act d) :=
  ⟨_, rfl, d.queues_act s.1⟩

theorem grows_acts (ds : List Deed) : ∀ s : Logged, s.Grows (ds.foldl act s) := by
  induction ds with
  | nil => exact fun s => .of_queues rfl rfl
  | cons d ds ih => exact fun s => (s.grows_act d).trans (ih _)

end Logged

/-- What is done to a node while a dispatch is with its router. -/
abbrev Agent (ω : Type) := Dispatch → Node → ω → List Deed × ω

namespace Agent

variable {ω : Type} (a : Agent ω)

/-- The router that does the deeds of an agent. -/
def plain : Router ω := fun d n w =>
  let (ds, w) := a d n w
  (ds.foldl (fun n d => d.act n) n, w)

/-- The router that does the deeds of an agent, and writes down the requests that they submit. -/
def router : Router (List Request × ω) := fun d n (log, w) =>
  let (ds, w) := a d n w
  let (n, log) := ds.foldl Logged.act (n, log)
  (n, log, w)

theorem grows_router (d : Dispatch) (n : Node) (log : List Request) (w : ω) :
    Logged.Grows (n, log) ((a.router d n (log, w)).1, (a.router d n (log, w)).2.1) :=
  Logged.grows_acts (a d n w).1 (n, log)

/-- The record makes no difference to what a router does. -/
theorem router_eq_plain (d : Dispatch) (n : Node) (log : List Request) (w : ω) :
    ((a.router d n (log, w)).1, (a.router d n (log, w)).2.2) = a.plain d n w := by
  have hfst : ∀ (ds : List Deed) (s : Logged),
      (ds.foldl Logged.act s).1 = ds.foldl (fun n d => d.act n) s.1 := by
    intro ds
    induction ds with
    | nil => exact fun s => rfl
    | cons d ds ih => exact fun s => ih _
  exact Prod.ext (hfst _ _) rfl

end Agent

/-! ### Jobs -/

namespace Node

variable {ω : Type} (a : Agent ω)

theorem queues_applyPayload (n : Node) (task : Task) (path : Key) (x : Payload) (shared : Bool) :
    (n.applyPayload path task.operation x).queues =
      n.queues.pushAll ((Job.apply task path x shared).submits n) := by
  cases x with
  | entries batch => exact queues_applyOwned ..
  | file f =>
    simp only [applyPayload, applyFile, Job.submits]
    rcases hrun : n.tryOnDisk f.entries with ⟨_ | es, n'⟩
    · exact (SameFrame.tryOnDisk hrun).queues
    · rw [← (SameFrame.tryOnDisk hrun).queues]
      exact queues_applyOwned ..

/-- A job submits what its router submits and what it submits by itself, and else leaves the queues
alone. -/
theorem grows_perform (j : Job) (n : Node) (log : List Request) (w : ω) :
    Logged.Grows (n, log) ((perform a.router j (n, log, w)).2.1,
      (perform a.router j (n, log, w)).2.2.1 ++ j.submits n) := by
  cases j with
  | serve r =>
    obtain ⟨hframe, hsame⟩ := @perform_serve_frame _ a.router r (n, log, w)
    exact .of_queues hframe.queues (by rw [hsame, Job.submits, List.append_nil])
  | send task branch x =>
    simp only [perform, send, Job.submits, List.append_nil]
    exact (a.grows_router _ _ log w).after (SameFrame.takeOff ..).queues
  | apply task path x shared => exact ⟨_, rfl, queues_applyPayload n task path x shared⟩
  | share task path x =>
    simp only [perform, broadcast, Job.submits, List.append_nil]
    exact (a.grows_router _ _ log w).after rfl
  | drop x => exact .of_queues (SameFrame.releasePayload n x).queues (List.append_nil _)
  | retry =>
    rw [perform]
    rcases hrun : n.retryDue with ⟨_ | _, n'⟩ <;>
      exact .of_queues (SameFrame.retryDue hrun).queues (List.append_nil _)
  | resend o =>
    rw [perform]
    rcases hrun : n.tryAsk (·.takeOutbound o) with ⟨_ | file?, n'⟩
    · exact .of_queues (SameFrame.tryAsk hrun).queues (List.append_nil _)
    · cases file? <;> exact .of_queues (SameFrame.tryAsk hrun).queues (List.append_nil _)
  | merge => exact .of_queues (SameFrame.merge n).queues (List.append_nil _)

/-- The record makes no difference to a job. -/
theorem perform_router_eq_plain (j : Job) (n : Node) (log : List Request) (w : ω) :
    let s := perform a.router j (n, log, w)
    (s.1, s.2.1, s.2.2.2) = perform a.plain j (n, w) := by
  have hsplit : ∀ (task : Task) (x : Payload) (owned : Payload → Job),
      ((splitJobs task x owned (n, log, w)).1, (splitJobs task x owned (n, log, w)).2.1,
        (splitJobs task x owned (n, log, w)).2.2.2) = splitJobs task x owned (n, w) := by
    intro task x owned
    simp only [splitJobs]
    rcases n.split n.peer.path x with ⟨_ | _, n'⟩ <;> rfl
  cases j with
  | serve r =>
    simp only [perform]
    cases r.origin with
    | here =>
      dsimp only
      split
      · rfl
      · split
        · exact hsplit ..
        · rfl
    | peer message parent viaReplica =>
      dsimp only
      split
      · rfl
      · exact hsplit ..
  | send task branch x => exact congrArg (Prod.mk []) (a.router_eq_plain _ _ log w)
  | share task path x => exact congrArg (Prod.mk _) (a.router_eq_plain _ _ log w)
  | apply task path x shared => rfl
  | drop x => rfl
  | retry =>
    simp only [perform]
    rcases n.retryDue with ⟨_ | _, n'⟩ <;> rfl
  | resend o =>
    simp only [perform]
    rcases n.tryAsk (·.takeOutbound o) with ⟨_ | file?, n'⟩
    · rfl
    · cases file? <;> rfl
  | merge => rfl

end Node

/-! ### How deep jobs go -/

/-- A bound on how deep the jobs go that come of a job. -/
def Job.depth : Job → Nat
  | .send .. | .drop _ | .merge => 0
  | .share .. => 1
  | .apply .. => 2
  | .serve _ => 3
  | .resend _ => 4
  | .retry => 5

namespace Node

variable {ω : Type} {router : Router ω} {s : Node × ω}

theorem depth_of_mem_splitJobs {task : Task} {x : Payload} {owned : Payload → Job} {j : Job}
    (howned : ∀ x, (owned x).depth < 3) (hj : j ∈ (splitJobs task x owned s).1) : j.depth < 3 := by
  obtain ⟨branch, y, rfl⟩ | ⟨y, rfl⟩ := mem_splitJobs hj
  · exact Nat.zero_lt_succ 2
  · exact howned y

/-- The jobs that come of a job go less deep. -/
theorem depth_lt_of_mem_perform {j j' : Job} (hj' : j' ∈ (perform router j s).1) :
    j'.depth < j.depth := by
  cases j with
  | serve r =>
    simp only [perform] at hj'
    cases hr : r.origin with
    | here =>
      simp only [hr] at hj'
      split at hj'
      · cases hj'
      · split at hj'
        · exact depth_of_mem_splitJobs (fun _ => by simp [Job.depth]) hj'
        · rw [List.mem_singleton.1 hj']
          simp [Job.depth]
    | peer message parent viaReplica =>
      simp only [hr] at hj'
      split at hj'
      · rw [List.mem_singleton.1 hj']
        simp [Job.depth]
      · exact depth_of_mem_splitJobs (fun _ => by simp [Job.depth]) hj'
  | send task branch x => cases hj'
  | apply task path x shared =>
    rw [List.mem_singleton.1 hj']
    cases shared <;> simp [Job.depth]
  | share task path x =>
    rw [List.mem_singleton.1 hj']
    simp [Job.depth]
  | drop x => cases hj'
  | retry =>
    rw [perform] at hj'
    rcases hrun : s.1.retryDue with ⟨_ | _, n'⟩ <;> rw [hrun] at hj'
    · cases hj'
    · obtain ⟨o, -, rfl⟩ := List.mem_map.1 hj'
      simp [Job.depth]
  | resend o =>
    rw [perform] at hj'
    rcases hrun : s.1.tryAsk (·.takeOutbound o) with ⟨_ | file?, n'⟩ <;> rw [hrun] at hj'
    · cases hj'
    · cases file? with
      | none => cases hj'
      | some file =>
        rw [List.mem_singleton.1 hj']
        simp [Job.depth]
  | merge => cases hj'

end Node

/-! ### Turns -/

/-- Something that a cycle has left to do. -/
inductive WorkItem where
  /-- A request that was taken from the queues, to be handed on. -/
  | request (r : Request)
  /-- Anything else. -/
  | job (j : Job)

namespace WorkItem

/-- The job of an item. -/
def toJob : WorkItem → Job
  | request r => .serve r
  | job j => j

/-- The request of an item. -/
def request? : WorkItem → Option Request
  | request r => some r
  | job _ => none

end WorkItem

/-- A node and its worker, with what was written down. -/
structure Workplace (ω : Type) where
  /-- The node. -/
  node : Node
  /-- What is around the node. -/
  around : ω
  /-- What is left of the cycle at hand, nothing between two cycles. -/
  agenda : List WorkItem
  /-- The requests that were submitted. -/
  submitted : List Request
  /-- The requests that were handed on. -/
  handed : List Request

namespace Workplace

/-- A turn at a node. -/
inductive Move where
  /-- The worker begins a cycle, unless it is at one. -/
  | begin
  /-- The worker does the next item of its cycle. -/
  | work
  /-- Somebody does something to the node. -/
  | deed (d : Deed)
deriving Inhabited

variable {ω : Type}

/-- A node between two cycles, with nothing written down yet. -/
def start (n : Node) (w : ω) : Workplace ω :=
  ⟨n, w, [], [], []⟩

/-- The requests that the cycle at hand has left to hand on. -/
def due (s : Workplace ω) : List Request :=
  s.agenda.filterMap WorkItem.request?

variable (a : Agent ω)

/-- What a turn comes to. -/
def move (s : Workplace ω) : Move → Workplace ω
  | .begin =>
    match s.agenda with
    | [] =>
      { s with
        node := { s.node with queues := .empty }
        agenda := s.node.queues.inOrder.map .request ++ [.job .retry, .job .merge] }
    | _ :: _ => s
  | .work =>
    match s.agenda with
    | [] => s
    | x :: rest =>
      let (js, n, log, w) := Node.perform a.router x.toJob (s.node, s.submitted, s.around)
      { node := n
        around := w
        agenda := js.map .job ++ rest
        submitted := log ++ x.toJob.submits s.node
        handed := s.handed ++ x.request?.toList }
  | .deed d =>
    let (n, log) := Logged.act (s.node, s.submitted) d
    { s with node := n, submitted := log }

/-- Turns one after another. -/
def run (moves : List Move) (s : Workplace ω) : Workplace ω :=
  moves.foldl (move a) s

variable {a} {s t : Workplace ω}

/-! ### What every turn keeps -/

theorem due_work (js : List Job) (rest : List WorkItem) :
    (js.map WorkItem.job ++ rest).filterMap WorkItem.request? =
      rest.filterMap WorkItem.request? := by
  rw [List.filterMap_append, List.filterMap_map]
  simp [Function.comp_def, WorkItem.request?]

/-- A cycle begins: what waits is due, and nothing waits any more. -/
theorem move_begin (hagenda : s.agenda = []) :
    (s.move a .begin).due = s.node.queues.inOrder ∧ (s.move a .begin).handed = s.handed ∧
      (s.move a .begin).submitted = s.submitted ∧ (s.move a .begin).node.queues = .empty := by
  have hbegun : s.move a .begin =
      { s with
        node := { s.node with queues := .empty }
        agenda := s.node.queues.inOrder.map .request ++ [.job .retry, .job .merge] } := by
    rw [move, hagenda]
  rw [hbegun]
  refine ⟨?_, rfl, rfl, rfl⟩
  rw [due, List.filterMap_append, List.filterMap_map]
  simp [Function.comp_def, WorkItem.request?]

/-- An item hands on the request that it has, if it has one, and some requests are submitted
meanwhile. -/
theorem move_work {x : WorkItem} {rest : List WorkItem} (hagenda : s.agenda = x :: rest) :
    s.due = x.request?.toList ++ (s.move a .work).due ∧
      (s.move a .work).handed = s.handed ++ x.request?.toList ∧
      Logged.Grows (s.node, s.submitted) ((s.move a .work).node, (s.move a .work).submitted) := by
  have hmove : s.move a .work =
      let r := Node.perform a.router x.toJob (s.node, s.submitted, s.around)
      ⟨r.2.1, r.2.2.2, r.1.map .job ++ rest, r.2.2.1 ++ x.toJob.submits s.node,
        s.handed ++ x.request?.toList⟩ := by
    rw [move, hagenda]
  rw [hmove]
  refine ⟨?_, rfl, Node.grows_perform a x.toJob s.node s.submitted s.around⟩
  rw [due, due, due_work, hagenda]
  cases x <;> rfl

/-- Work and deeds: what is still due is handed on from the front, and what is submitted goes to the
ends of the queues. -/
theorem move_goes_on (m : Move) (hm : m ≠ .begin) :
    s.handed ++ s.due = (s.move a m).handed ++ (s.move a m).due ∧
      Logged.Grows (s.node, s.submitted) ((s.move a m).node, (s.move a m).submitted) := by
  cases m with
  | begin => exact absurd rfl hm
  | work =>
    cases hagenda : s.agenda with
    | nil =>
      have hsame : s.move a .work = s := by rw [move, hagenda]
      rw [hsame]
      exact ⟨rfl, .of_queues rfl rfl⟩
    | cons x rest =>
      obtain ⟨hdue, hhanded, hgrows⟩ := move_work (a := a) hagenda
      refine ⟨?_, hgrows⟩
      rw [hdue, hhanded, List.append_assoc]
  | deed d => exact ⟨rfl, Logged.grows_act (s.node, s.submitted) d⟩

/-- For each of the queues: what was handed on, what is still due and what waits make up what was
submitted. -/
def Balanced (s : Workplace ω) : Prop :=
  ∀ c, requestsOf s.submitted c =
    requestsOf s.handed c ++ requestsOf s.due c ++ s.node.queues.of c

theorem balanced_start {n : Node} (hn : n.queues = .empty) (w : ω) : (start n w).Balanced := by
  intro c
  simp [start, due, hn]

/-- What waits in a queue belongs there. -/
theorem Balanced.queue_eq (h : s.Balanced) (c : QueueName) :
    ∀ r ∈ s.node.queues.of c, r.queue = c := by
  intro r hr
  have hsubmitted : r ∈ requestsOf s.submitted c := by
    rw [h c]
    exact List.mem_append_right _ hr
  simpa [requestsOf] using (List.mem_filter.1 hsubmitted).2

theorem Balanced.move (h : s.Balanced) (m : Move) : (s.move a m).Balanced := by
  by_cases hm : m = .begin
  · subst hm
    cases hagenda : s.agenda with
    | nil =>
      intro c
      have hdue : s.due = [] := by rw [due, hagenda]; rfl
      obtain ⟨hbegun, hhanded, hsubmitted, hqueues⟩ := move_begin (a := a) hagenda
      rw [hbegun, hhanded, hsubmitted, hqueues, Queues.requestsOf_inOrder h.queue_eq c, h c, hdue]
      simp
    | cons x rest =>
      have hsame : s.move a .begin = s := by rw [Workplace.move, hagenda]
      rwa [hsame]
  · obtain ⟨hhanded, rs, hsubmitted, hqueues⟩ := move_goes_on (a := a) (s := s) m hm
    intro c
    dsimp only at hsubmitted hqueues
    rw [hsubmitted, hqueues, Queues.of_pushAll, requestsOf_append, h c,
      ← requestsOf_append s.handed, hhanded, requestsOf_append, List.append_assoc]

theorem Balanced.run (h : s.Balanced) (moves : List Move) : (s.run a moves).Balanced := by
  induction moves generalizing s with
  | nil => exact h
  | cons m moves ih => exact ih (h.move m)

/-! ### What a cycle serves -/

theorem run_goes_on {moves : List Move} (hmoves : Move.begin ∉ moves) :
    s.handed ++ s.due = (s.run a moves).handed ++ (s.run a moves).due ∧
      Logged.Grows (s.node, s.submitted) ((s.run a moves).node, (s.run a moves).submitted) := by
  induction moves generalizing s with
  | nil => exact ⟨rfl, .of_queues rfl rfl⟩
  | cons m moves ih =>
    obtain ⟨hm, hmoves⟩ := not_or.1 (mt List.mem_cons.2 hmoves)
    obtain ⟨hhanded, hgrows⟩ := move_goes_on (a := a) (s := s) m (Ne.symm hm)
    obtain ⟨hrest, hgrowsRest⟩ := ih (s := s.move a m) hmoves
    exact ⟨hhanded.trans hrest, hgrows.trans hgrowsRest⟩

/-- The cycle at hand ends, whatever is done to the node before each turn of the worker. -/
inductive Ends (a : Agent ω) : Workplace ω → Prop
  | over {s : Workplace ω} : s.agenda = [] → Ends a s
  | work {s : Workplace ω} :
      (∀ ds : List Deed, Ends a ((s.run a (ds.map .deed)).move a .work)) → Ends a s

theorem agenda_run_deeds (ds : List Deed) : (s.run a (ds.map .deed)).agenda = s.agenda := by
  induction ds generalizing s with
  | nil => rfl
  | cons d ds ih => exact ih

/-- Items that go less deep than `k` come to an end, and then the rest does. -/
theorem ends_of_depth {rest : List WorkItem}
    (hrest : ∀ s : Workplace ω, s.agenda = rest → s.Ends a) (k : Nat) {xs : List WorkItem}
    (hxs : ∀ x ∈ xs, x.toJob.depth < k) (hs : s.agenda = xs ++ rest) : s.Ends a := by
  induction k generalizing xs rest s with
  | zero =>
    obtain rfl : xs = [] :=
      List.eq_nil_iff_forall_not_mem.2 fun x hx => Nat.not_lt_zero _ (hxs x hx)
    exact hrest s hs
  | succ k ih =>
    induction xs generalizing s with
    | nil => exact hrest s hs
    | cons x xs ihxs =>
      obtain ⟨hx, hxs⟩ := List.forall_mem_cons.1 hxs
      refine .work fun ds => ?_
      have hdeeds : (s.run a (ds.map .deed)).agenda = x :: (xs ++ rest) :=
        (agenda_run_deeds ds).trans hs
      generalize s.run a (ds.map .deed) = t at hdeeds
      have hagenda : (t.move a .work).agenda =
          (Node.perform a.router x.toJob (t.node, t.submitted, t.around)).1.map .job ++
            (xs ++ rest) := by
        simp only [move, hdeeds]
      -- what comes of the item goes less deep than the item, and the other items come after it
      refine ih (fun s' hs' => ihxs hxs hs') (fun y hy => ?_) hagenda
      obtain ⟨j, hj, rfl⟩ := List.mem_map.1 hy
      exact Nat.lt_of_lt_of_le (Node.depth_lt_of_mem_perform hj) (Nat.le_of_lt_succ hx)

/-- Every cycle ends. -/
theorem ends (a : Agent ω) (s : Workplace ω) : s.Ends a := by
  have hdepth : ∀ x ∈ s.agenda, x.toJob.depth < 6 := by
    intro x _
    cases x.toJob <;> simp [Job.depth]
  exact ends_of_depth (fun _ hnil => .over hnil) 6 hdepth (List.append_nil _).symm

/-- If nothing is done to the node meanwhile, the turns of the worker do the jobs that it has. -/
theorem run_works {js : List Job} {p q : Node × ω} (h : Node.Works a.plain js p q) :
    ∀ s : Workplace ω, s.agenda.map WorkItem.toJob = js → (s.node, s.around) = p →
      ∃ k, (s.run a (.replicate k .work)).agenda = [] ∧
        ((s.run a (.replicate k .work)).node, (s.run a (.replicate k .work)).around) = q := by
  induction h with
  | nil p =>
    intro s hjs hp
    exact ⟨0, List.map_eq_nil_iff.1 hjs, hp⟩
  | @cons j js p q hworks ih =>
    intro s hjs hp
    subst hp
    obtain ⟨x, rest, hagenda, rfl, rfl⟩ := List.map_eq_cons_iff.1 hjs
    have hperform := Node.perform_router_eq_plain a x.toJob s.node s.submitted s.around
    dsimp only at hperform
    have hjobs : (s.move a .work).agenda.map WorkItem.toJob =
        (Node.perform a.plain x.toJob (s.node, s.around)).1 ++ rest.map WorkItem.toJob := by
      rw [← hperform]
      simp [move, hagenda, Function.comp_def, WorkItem.toJob]
    have hstate : ((s.move a .work).node, (s.move a .work).around) =
        (Node.perform a.plain x.toJob (s.node, s.around)).2 := by
      rw [← hperform]
      simp only [move, hagenda]
    obtain ⟨k, hk⟩ := ih (s.move a .work) hjobs hstate
    exact ⟨k + 1, hk⟩

/-- If nothing is done to the node meanwhile, the turns of a cycle are the cycle of the node. -/
theorem run_cycle_eq (hagenda : s.agenda = []) :
    ∃ k, (s.run a (.begin :: .replicate k .work)).agenda = [] ∧
      ((s.run a (.begin :: .replicate k .work)).node,
        (s.run a (.begin :: .replicate k .work)).around) =
          Node.cycle a.plain (s.node, s.around) := by
  refine run_works (Node.works_cycle (s.node, s.around)) (s.move a .begin) ?_ ?_
  · simp [move, hagenda, Function.comp_def, WorkItem.toJob]
  · simp only [move, hagenda]

/-- What is right at a workplace, whatever turns are taken from now on. -/
structure Orderly (a : Agent ω) (s : Workplace ω) : Prop where
  /-- The requests of each queue were handed on in the order in which they were submitted, without
  gaps or repetition; the others are left of the cycle at hand or wait. -/
  balanced : ∀ c, requestsOf s.submitted c =
    requestsOf s.handed c ++ requestsOf s.due c ++ s.node.queues.of c
  /-- The cycle at hand ends, whatever is done meanwhile. -/
  ends : s.Ends a
  /-- If nothing is done to the node meanwhile, the next cycle is the cycle of the node. -/
  cycle : s.agenda = [] → ∃ k, let t := s.run a (.begin :: .replicate k .work)
    t.agenda = [] ∧ (t.node, t.around) = Node.cycle a.plain (s.node, s.around)
  /-- The next cycle hands on what waits when it begins, queue by queue, and what is submitted while
  it goes on is what waits afterwards. -/
  serves : s.agenda = [] → ∀ during, Move.begin ∉ during →
    let t := s.run a (.begin :: during)
    let q := s.node.queues
    t.handed ++ t.due = s.handed ++
        (q.localEntries ++ q.localFiles ++ q.remoteEntries ++ q.remoteFiles) ∧
      (t.agenda = [] → t.due = []) ∧
      ∃ new, t.submitted = s.submitted ++ new ∧ t.node.queues = Queues.empty.pushAll new

/-- **Every request is served exactly once, in order within its queue**, whatever turns are taken at
a node. -/
theorem served_once_in_order (a : Agent ω) {n : Node} (hn : n.queues = .empty) (w : ω)
    (moves : List Move) : ((start n w).run a moves).Orderly a := by
  refine ⟨(balanced_start hn w).run moves, ends a _, run_cycle_eq, ?_⟩
  generalize (start n w).run a moves = s
  intro hagenda during hduring
  obtain ⟨hhanded, new, hsubmitted, hqueues⟩ :=
    run_goes_on (a := a) (s := s.move a .begin) hduring
  obtain ⟨hdue, hbegun, hbefore, hempty⟩ := move_begin (a := a) hagenda
  dsimp only at hsubmitted hqueues
  rw [hbegun, hdue] at hhanded
  rw [hbefore] at hsubmitted
  rw [hempty] at hqueues
  exact ⟨hhanded.symm, fun ht => by rw [due, ht]; rfl, new, hsubmitted, hqueues⟩

/-- A delivered update is served after the insertion that was submitted here later; the insertion of
the entry that it moves and what the router submits meanwhile wait for the next cycle. -/
theorem served_once_in_order_of_update :
    let a : Agent Unit := fun _ _ w => ([.submit .delete (.entries [Sample.entry "c" ⟨[]⟩])], w)
    let moved := { Sample.entry "b" ⟨[true]⟩ with payload := "moved" }
    let moves : List Move :=
      [.deed (.deliver .update (.entries [moved]) (.ofSerial 7) (.ofSerial 8) true),
        .deed (.submit .insert (.entries [Sample.entry "a" ⟨[false]⟩])), .begin] ++
      .replicate 8 .work
    ∃ n, Node.openAt (Sample.peer ⟨[true]⟩) (.ofBits 8) 0 .root .empty = .ok n ∧
      ((start n ()).run a moves).Orderly a ∧
      ((start n ()).run a moves).handed.map (·.operation) = [.insert, .update] ∧
      ((start n ()).run a moves).node.queues.inOrder.map (·.operation) = [.delete, .insert] := by
  intro a moved moves
  have hruns : (Node.openAt (Sample.peer ⟨[true]⟩) (.ofBits 8) 0 .root .empty).toOption.map
      (fun n => (n.queues, ((start n ()).run a moves).handed.map (·.operation),
        ((start n ()).run a moves).node.queues.inOrder.map (·.operation))) =
      some (.empty, [.insert, .update], [.delete, .insert]) := by
    decide +kernel
  cases hopen : Node.openAt (Sample.peer ⟨[true]⟩) (.ofBits 8) 0 .root .empty with
  | error e =>
    rw [hopen] at hruns
    cases hruns
  | ok n =>
    rw [hopen] at hruns
    obtain ⟨hn, hhanded, hqueued⟩ := Prod.mk.inj (Option.some.inj hruns) |>.imp_right Prod.mk.inj
    exact ⟨n, rfl, served_once_in_order a hn () moves, hhanded, hqueued⟩

end Workplace

/-! ### Deeds are all that happens -/

namespace Node

variable {n n' n'' : Node}

/-- A node that comes of another by deeds. -/
def ComesOf (n' n : Node) : Prop :=
  ∃ ds : List Deed, n' = ds.foldl (fun n d => d.act n) n

namespace ComesOf

theorem of_queues (h : n'.queues = n.queues) : n'.ComesOf n :=
  ⟨[.other n'], by simp [Deed.act, ← h]⟩

theorem trans (h : n''.ComesOf n') (h' : n'.ComesOf n) : n''.ComesOf n := by
  obtain ⟨ds, rfl⟩ := h
  obtain ⟨ds', rfl⟩ := h'
  exact ⟨ds' ++ ds, by rw [List.foldl_append]⟩

theorem submit (h : n'.queues = n.queues) (o : Operation) (x : Payload) :
    (n'.submit o x).ComesOf n :=
  trans ⟨[.submit o x], rfl⟩ (of_queues h)

theorem submitFrom (h : n'.queues = n.queues) (o : Operation) (x : Payload) (message : MessageId)
    (parent : RequestId) (viaReplica : Bool) :
    (n'.submitFrom o x message parent viaReplica).ComesOf n :=
  trans ⟨[.deliver o x message parent viaReplica], rfl⟩ (of_queues h)

end ComesOf

theorem comesOf_update (n : Node) (es : List Entry) : (n.update es).ComesOf n := by
  rw [update]
  split
  · exact .of_queues rfl
  · dsimp only
    split
    · exact .submit (by rfl) ..
    · exact .trans (.submit (by rfl) ..) (.submit (by rfl) ..)

theorem comesOf_redistribute (n : Node) : n.redistribute.2.ComesOf n := by
  rw [redistribute]
  dsimp only
  split
  · exact .of_queues rfl
  · rcases hrun : n.tryOnDisk (stage n.holdings.scratch
      (n.holdings.store.foreignTo n.peer.path)) with ⟨_ | ⟨staged, transfer⟩, n'⟩
    · exact .of_queues (SameFrame.tryOnDisk hrun).queues
    · exact .submit (by exact (SameFrame.tryOnDisk hrun).queues) ..

theorem comesOf_submitTo (n : Node) (r : Submission) : (Command.submitTo r n).2.ComesOf n := by
  rw [Command.submitTo]
  rcases hrun : n.tryOnDisk (Command.payloadOf r n.holdings.scratch) with ⟨_ | x, n'⟩
  · exact .of_queues (SameFrame.tryOnDisk hrun).queues
  · cases r.remote with
    | none => exact .submit (by exact (SameFrame.tryOnDisk hrun).queues) ..
    | some remote => exact .submitFrom (by exact (SameFrame.tryOnDisk hrun).queues) ..

theorem comesOf_receive (n : Node) (e : Envelope) : (n.receive e).2.ComesOf n := by
  rw [receive]
  cases e.unwrap with
  | error err => exact .of_queues rfl
  | ok parcel =>
    have hpayload := n.queues_payloadOfContent parcel.content
    dsimp only
    rcases hrun : n.payloadOfContent parcel.content with ⟨_ | x, n'⟩ <;> rw [hrun] at hpayload
    · exact .of_queues hpayload
    · exact .submitFrom (by exact hpayload) ..

theorem queues_hasWork (n : Node) : n.hasWork.2.queues = n.queues := by
  rw [hasWork]
  split
  · rfl
  · split
    · rfl
    · rcases hrun : n.retryDue with ⟨_ | _, n'⟩
      · exact (SameFrame.retryDue hrun).queues
      · exact (SameFrame.retryDue hrun).queues

/-- Whatever happens to a node, it comes of the node by deeds. -/
theorem comesOf_undergo (n : Node) (x : Happening) : (n.undergo x).ComesOf n := by
  cases x with
  | message e => exact n.comesOf_receive e
  | report sender id delivered => exact .of_queues (SameFrame.report ..).queues
  | wait milliseconds => exact .of_queues rfl
  | command c =>
    cases c with
    | insert es propagate =>
      simp only [undergo, Command.runAlone, insert]
      split
      · exact .of_queues rfl
      · split
        · exact .submit (by rfl) ..
        · exact .of_queues rfl
    | delete es propagate =>
      simp only [undergo, Command.runAlone, delete]
      split
      · exact .of_queues rfl
      · split
        · exact .submit (by rfl) ..
        · exact .of_queues rfl
    | update es => exact n.comesOf_update es
    | redistribute =>
      have hcomes := n.comesOf_redistribute
      simp only [undergo, Command.runAlone]
      rcases hrun : n.redistribute with ⟨_ | _, n'⟩ <;> rw [hrun] at hcomes <;> exact hcomes
    | submit r =>
      rw [undergo, Command.runAlone, Tidy.resultOf_snd]
      exact n.comesOf_submitTo r
    | hasWork => exact .of_queues n.queues_hasWork
    | appendInbound es =>
      rw [undergo, Command.runAlone, Tidy.resultOf_snd]
      exact .of_queues (SameFrame.tryAsk_snd n _).queues
    | appendOutbound o es =>
      rw [undergo, Command.runAlone, Tidy.resultOf_snd]
      exact .of_queues (SameFrame.tryAsk_snd n _).queues
    | listen | create | get | query | dump | stats | setPath | pause | resume | queues | outbound
    | cycle | work => exact .of_queues rfl

end Node

end TrieOverlay
