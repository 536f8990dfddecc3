import TrieOverlay.Proofs.Node.Delivery
import TrieOverlay.Proofs.Node.Runs

/-!
# What the router of a node gets to see

A *slip* is what the router sees of a message: the dispatch, the entries that it stands for at that
moment, and the envelope that it would be posted in.  Its *letter* is what the message says,
whatever holds its entries.  A `Desk` keeps the slips in order and makes calls after each of them.

`Upholds.cycle` is the induction over a cycle in terms of the duties that are left, the view of the
node and the slips: what every duty, every message and every call keeps holds after the cycle.
`Upholds.run` is the induction over a run of deliveries, calls and cycles.
-/

namespace TrieOverlay

/-- What a message says, whatever holds its entries. -/
structure Letter where
  /-- Where it goes. -/
  target : Target
  /-- The subtree that it is for. -/
  branch : Key
  /-- The change that it asks for. -/
  operation : Operation
  /-- The request that started the chain of messages. -/
  parent : RequestId
  /-- The entries to change, in order. -/
  entries : List Entry
deriving DecidableEq, Repr

/-- What a router sees of a message. -/
structure Slip where
  /-- What it was given. -/
  dispatch : Dispatch
  /-- The entries that the message stands for. -/
  entries : List Entry
  /-- The message as it is posted, unless it cannot be read. -/
  envelope : Option Envelope

namespace Slip

/-- What the message says. -/
def letter (s : Slip) : Letter :=
  let h := s.dispatch.message.header
  ⟨s.dispatch.target, h.branch, h.operation, h.parent, s.entries⟩

/-- A slip of a message of a task with a batch. -/
structure Tells (s : Slip) (target : Target) (task : Task) (branch : Key) (b : Batch) : Prop where
  letter_eq : s.letter = ⟨target, branch, task.operation, task.parent, b.entries⟩
  posted : ∃ sender content,
    s.envelope = some (.wrap target.strategy sender ⟨s.dispatch.message.header, content⟩) ∧
      content.IsPlain ∧ content.arriving = b.arriving

variable {s : Slip} {target : Target} {task : Task} {branch : Key} {b : Batch}

theorem Tells.target_eq (h : s.Tells target task branch b) : s.letter.target = target := by
  rw [h.letter_eq]

theorem Tells.operation_eq (h : s.Tells target task branch b) :
    s.dispatch.message.header.operation = task.operation :=
  congrArg Letter.operation h.letter_eq

end Slip

/-- The calls that are made after a message, by the slips so far. -/
abbrev Desk (ω : Type) := List Slip → Node → ω → List Call × ω

/-- What a node gets from outside, and the cycles that it runs. -/
inductive Turn where
  /-- Another peer delivers a message. -/
  | deliver (envelope : Envelope)
  /-- A call is made. -/
  | call (call : Call)
  /-- A cycle runs. -/
  | cycle

/-- Whether a turn makes one of some calls or delivers one of some envelopes. -/
def Turn.IsAmong (ok : Call → Prop) (good : Envelope → Prop) : Turn → Prop
  | deliver e => good e
  | call c => ok c
  | cycle => True

/-- What is seen of a dispatch. -/
def Node.slip (n : Node) (d : Dispatch) : Slip where
  dispatch := d
  entries := n.entriesIn d.message.cargo.payload
  envelope :=
    (n.tryOnDisk (Envelope.ofMessage d.target.strategy n.peer.info.id d.message)).1.toOption

namespace Desk

variable {ω : Type}

/-- The router that keeps the slips and makes the calls. -/
def router (desk : Desk ω) : Router (List Slip × ω) := fun d n s =>
  let slips := s.1 ++ [n.slip d]
  let (calls, w) := desk slips n s.2
  (calls.foldl Node.take n, slips, w)

/-- One turn of a node. -/
def turn (desk : Desk ω) (s : Node × List Slip × ω) : Turn → Node × List Slip × ω
  | .deliver e => ((s.1.receive e).2, s.2)
  | .call c => (s.1.take c, s.2)
  | .cycle => Node.cycle desk.router s

/-- Some turns, one after the other. -/
def run (desk : Desk ω) (turns : List Turn) (s : Node × List Slip × ω) : Node × List Slip × ω :=
  turns.foldl desk.turn s

/-- Whether all calls of a desk are among some calls. -/
def Makes (ok : Call → Prop) (desk : Desk ω) : Prop :=
  ∀ slips n w, ∀ c ∈ (desk slips n w).1, ok c

end Desk

/-! ### Slips of payloads -/

namespace Node

variable {n n' : Node} {hands : List Payload} {x : Payload}

/-- What is seen of a payload that can be read. -/
theorem Sound.slip_tells (h : n'.Sound hands) (hread : n'.volume.CanRead x)
    (hx : n'.entriesIn x = n.entriesIn x) (task : Task) (target : Target) (branch : Key) :
    (n'.slip (n.dispatch task target branch x)).Tells target task branch (n.batch x) := by
  let d := n.dispatch task target branch x
  have hpayload : d.message.cargo.payload = x := x.payload_cargo
  have hcargo : n'.volume.CanRead d.message.cargo.payload := hpayload.symm ▸ hread
  obtain ⟨content, hrun, hplain, hes⟩ :=
    h.run_ofMessage hcargo target.strategy n'.peer.info.id
  have hentries : (n'.slip d).entries = n.entriesIn x := by
    rw [slip, hpayload, hx]
  have henvelope : (n'.slip d).envelope =
      some (.wrap target.strategy n'.peer.info.id ⟨d.message.header, content⟩) := by
    rw [slip]
    simp only [show d.target = target from rfl, hrun]
    rfl
  refine ⟨?_, n'.peer.info.id, content, henvelope, hplain, ?_⟩
  · rw [Slip.letter, hentries]
    rfl
  · rw [hes, hpayload, batch, hx]
    rfl

end Node

/-! ### What a cycle keeps -/

/-- A property of the duties that are left, the view and the slips is kept by everything that
happens in a cycle and by some calls. -/
structure Upholds (ok : Call → Prop) (I : List Duty → View → List Slip → Prop) : Prop where
  readable : ∀ c, ok c → c.Readable
  fulfils : ∀ d ds ds' v v' log, v.Fulfils d ds' v' → I (d :: ds) v log → I (ds' ++ ds) v' log
  send : ∀ s m task branch b ds v log, s.Tells (.toward branch) task branch b →
    m.operation = task.operation → m.entries = b.entries →
    I (.send task branch b :: ds) v log → I ds (v.fly m) (log ++ [s])
  share : ∀ s task path b ds v log, s.Tells .replicas task path b →
    I (.share task path b :: ds) v log → I (.drop :: ds) v (log ++ [s])
  take : ∀ c ds v v' log, ok c → v.Takes c v' → I ds v log → I ds v' log

namespace Upholds

variable {ω : Type} {ok : Call → Prop} {I : List Duty → View → List Slip → Prop} {desk : Desk ω}
  {n : Node} {j : Job} {js : List Job} {log : List Slip} {w : ω}
  {s : Node × List Slip × ω}

/-- A property of the duties that are left, the view and the slips holds of a sound node. -/
structure Meets (I : List Duty → View → List Slip → Prop) (js : List Job)
    (s : Node × List Slip × ω) : Prop where
  sound : s.1.Sound (handsOf js)
  holds : I (js.map (·.duty s.1)) s.1.view s.2.1

theorem calls (hI : Upholds ok I) {calls : List Call} (hcalls : ∀ c ∈ calls, ok c)
    (h : n.Sound (handsOf js)) (hn : I (js.map (·.duty n)) n.view log) (w : ω) :
    Meets I js (calls.foldl Node.take n, log, w) := by
  induction calls generalizing n with
  | nil => exact ⟨h, hn⟩
  | cons c calls ih =>
    obtain ⟨hc, hcalls⟩ := List.forall_mem_cons.1 hcalls
    obtain ⟨⟨w', hy⟩, htakes⟩ := h.take (hI.readable c hc)
    rw [List.foldl_cons]
    refine ih hcalls hy.sound ?_
    rw [Node.map_duty_congr hy.kept_eq]
    exact hI.take _ _ _ _ _ hc htakes hn

/-- Every job keeps the property, those that call the router included. -/
theorem perform (hI : Upholds ok I) (hdesk : desk.Makes ok) (h : Meets I (j :: js) s) :
    Meets I ((Node.perform desk.router j s).1 ++ js) (Node.perform desk.router j s).2 := by
  obtain ⟨n, log, w⟩ := s
  obtain ⟨hsound, hn⟩ := h
  by_cases hj : j.Routes
  · rcases hj.eq_send_or_share with ⟨task, branch, x, rfl⟩ | ⟨task, path, x, rfl⟩
    · have hx : n.Sound (x :: handsOf js) := hsound
      obtain ⟨n', hrun, hread, hentries, -, hy⟩ := hx.send desk.router task branch
        (log, w)
      have htells := hy.sound.slip_tells hread hentries task (.toward branch) branch
      rw [Node.perform, hrun]
      refine hI.calls (hdesk _ _ _) hy.sound ?_ _
      rw [Node.map_duty_congr hy.kept_eq, hy.view_eq]
      exact hI.send _ _ _ _ _ _ _ _ htells rfl rfl hn
    · have hx : n.Sound (x :: handsOf js) := hsound
      obtain ⟨n', hrun, hread, -, hy⟩ := hx.broadcast desk.router task path (log, w)
      have hentries : n'.entriesIn x = n.entriesIn x := hy.kept_eq x (List.mem_cons_self ..)
      have htells := hy.sound.slip_tells hread hentries task .replicas path
      have hdrop : n'.Sound (handsOf (.drop x :: js)) := hy.sound
      rw [Node.perform, hrun]
      refine hI.calls (hdesk _ _ _) hdrop ?_ _
      rw [List.map_cons, Node.map_duty_congr (hy.mono (List.subset_cons_self ..)).kept_eq,
        hy.view_eq]
      exact hI.share _ _ _ _ _ _ _ htells hn
  · obtain ⟨js', n', hrun, hp⟩ := hsound.perform hj (log, w)
    rw [hrun]
    refine ⟨hp.sound, ?_⟩
    rw [List.map_append, Node.map_duty_congr hp.kept_eq]
    exact hI.fulfils _ _ _ _ _ _ hp.fulfils hn

/-- What is left to do when a cycle begins. -/
def startingDuties (n : Node) : List Duty :=
  (n.queues.inOrder.map fun r => .serve r.parent (n.errand r)) ++ [.retry, .merge]

/-- What holds when a cycle begins holds after it. -/
theorem cycle (hI : Upholds ok I) (hdesk : desk.Makes ok) (h : s.1.Sound [])
    (hn : I (startingDuties s.1) { s.1.view with queued := 0 } s.2.1) :
    Meets I [] (Node.cycle desk.router s) := by
  refine Node.cycle_induction (I := Meets I) (fun _ _ _ => hI.perform hdesk) ⟨h.startCycle, ?_⟩
  rw [List.map_append, List.map_map]
  exact hn

end Upholds

/-- What chores keep is kept by duties. -/
theorem Keeps.upholds {ok : Call → Prop} {J : List Chore → View → Prop}
    (h : Keeps ok fun cs v _ => J cs v) : Upholds ok fun ds v _ => J (ds.map Duty.chore) v where
  readable c hc := (h.encodable c hc).readable
  fulfils d ds ds' v v' log hf hi := by
    rw [List.map_append]
    exact h.does _ _ _ _ _ [] hf.does hi
  send s m task branch b ds v log _ ho hm hi := by
    refine h.send m _ v [] ?_
    rw [ho, hm]
    exact hi
  share _ _ _ _ _ _ _ _ hi := hi
  take _ _ _ _ _ hc ht hi := h.take _ _ _ _ [] hc ht hi

/-! ### What a run keeps -/

/-- A property is kept when a cycle begins to serve the requests that wait, and when some envelopes
are delivered. -/
structure Admits (good : Envelope → Prop) (I : List Duty → View → List Slip → Prop) : Prop where
  start : ∀ (rs : List (RequestId × Errand)) v log,
    v.queued = (rs.map Prod.snd : Multiset Errand) → I [] v log →
    I (rs.map (fun r => .serve r.1 r.2) ++ [.retry, .merge]) { v with queued := 0 } log
  deliver : ∀ e parcel (b : Batch) v log, good e → e.unwrap = .ok parcel →
    (parcel.content.IsPlain →
      b.entries = parcel.content.arriving ∧ b.arriving = parcel.content.arriving) →
    I [] v log →
    I [] (v.queue ⟨parcel.header.operation,
      .peer parcel.header.id parcel.header.parent e.viaReplica, b.entries, b.inFile⟩) log

namespace Upholds

variable {ω : Type} {ok : Call → Prop} {good : Envelope → Prop}
  {I : List Duty → View → List Slip → Prop} {desk : Desk ω} {s : Node × List Slip × ω}

theorem startCycle (hI : Admits good I) {n : Node} {log : List Slip} (hn : I [] n.view log) :
    I (startingDuties n) { n.view with queued := 0 } log := by
  have hstart := hI.start (n.queues.inOrder.map fun r => (r.parent, n.errand r)) n.view log
  rw [List.map_map, List.map_map] at hstart
  exact hstart rfl hn

theorem turn (hI : Upholds ok I) (hgood : Admits good I) (hdesk : desk.Makes ok)
    (h : Meets I [] s) {t : Turn} (ht : t.IsAmong ok good) : Meets I [] (desk.turn s t) := by
  obtain ⟨n, log, w⟩ := s
  obtain ⟨hsound, hn⟩ := h
  cases t with
  | deliver e =>
    cases he : e.unwrap with
    | error error =>
      rw [Desk.turn, Node.receive_of_unwrap_error he]
      exact ⟨hsound, hn⟩
    | ok parcel =>
      obtain ⟨b, n', hrun, hy, hplain⟩ := hsound.receive_parcel he
      rw [Desk.turn, hrun]
      refine ⟨hy.sound, ?_⟩
      have hview : n'.view = _ := hy.view_eq
      rw [hview]
      exact hgood.deliver e parcel b n.view log ht he hplain hn
  | call c =>
    have hcalls : ∀ c' ∈ [c], ok c' := by
      rw [List.forall_mem_singleton]
      exact ht
    exact hI.calls hcalls hsound hn w
  | cycle => exact hI.cycle hdesk hsound (startCycle hgood hn)

/-- What every turn keeps holds after a run. -/
theorem run (hI : Upholds ok I) (hgood : Admits good I) (hdesk : desk.Makes ok)
    (h : Meets I [] s) {turns : List Turn} (hturns : ∀ t ∈ turns, t.IsAmong ok good) :
    Meets I [] (desk.run turns s) := by
  induction turns generalizing s with
  | nil => exact h
  | cons t turns ih =>
    obtain ⟨ht, hturns⟩ := List.forall_mem_cons.1 hturns
    exact ih (hI.turn hgood hdesk h ht) hturns

end Upholds

end TrieOverlay
