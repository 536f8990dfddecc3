import TrieOverlay.Proofs.Node.Chores
import TrieOverlay.Proofs.Node.Inputs

/-!
# Runs of a node and their record

A run of a node is a list of steps: calls, cycles, changes of the path and hand-offs.  While a
dispatch is with the router, a `Plan` says which further calls are made; it may depend on everything
there is.  The record of a run is what an observer writes down: the requests that were submitted and
served, the messages that took off and the reports, in order.

`Keeps.step` is the induction over a run in terms of the view of the node: what every call, every
chore, every take-off and the start of a cycle keep holds after every call and every cycle.
-/

namespace TrieOverlay

/-- What can happen to a node at any moment, also while its router is at work. -/
inductive Call where
  /-- A request is submitted. -/
  | submit (request : Submission)
  /-- The outcome of a message is reported. -/
  | report (sender : Engine) (id : MessageId) (delivered : Bool)
  /-- Time passes. -/
  | wait (milliseconds : Nat)

/-- An item of the record of a run. -/
inductive Note where
  /-- A request was submitted. -/
  | asked (request : Submission)
  /-- A cycle began that serves a request. -/
  | served (errand : Errand)
  /-- A message took off. -/
  | sent (message : Carried)
  /-- An outcome was reported. -/
  | told (sender : Engine) (id : MessageId) (delivered : Bool)

/-- A step of a run. -/
inductive Step where
  | call (call : Call)
  | cycle
  /-- The peer moves to another path. -/
  | setPath (path : Key)
  /-- The entries that do not belong to the path are handed off. -/
  | handOff

/-- The calls that are made while a dispatch is with the router. -/
abbrev Plan (ω : Type) := Dispatch → Node → ω → List Call × ω

/-- Whether the entries of a submission can be read and written. -/
def Submission.Encodable (r : Submission) : Prop :=
  ∃ es, r.entries? = some es ∧ ∀ e ∈ es, Bulk.Line.isEncodable e = true

/-- Whether the batch of a submission can be read. -/
def Submission.Readable (r : Submission) : Prop :=
  ∃ es, r.entries? = some es

namespace Call

/-- What is written down of a call. -/
def notes : Call → List Note
  | submit r => [.asked r]
  | report sender id delivered => [.told sender id delivered]
  | wait _ => []

/-- Whether a call submits only entries that can be written. -/
def Encodable : Call → Prop
  | submit r => r.Encodable
  | report _ _ _ | wait _ => True

/-- Whether a call submits only what can be read. -/
def Readable : Call → Prop
  | submit r => r.Readable
  | report _ _ _ | wait _ => True

theorem Encodable.readable {c : Call} (h : c.Encodable) : c.Readable := by
  cases c with
  | submit r =>
    obtain ⟨es, hes, -⟩ := h
    exact ⟨es, hes⟩
  | _ => trivial

end Call

namespace Step

/-- Whether the call of a step is one of some calls. -/
def Makes (ok : Call → Prop) : Step → Prop
  | call c => ok c
  | cycle | setPath _ | handOff => True

/-- Whether a step submits only entries that can be written. -/
def Encodable (t : Step) : Prop :=
  t.Makes Call.Encodable

/-- Whether a step is a call or a cycle. -/
def IsPlain : Step → Prop
  | call _ | cycle => True
  | setPath _ | handOff => False

end Step

/-- Whether all calls of a plan are among some calls. -/
def Plan.Makes {ω : Type} (ok : Call → Prop) (plan : Plan ω) : Prop :=
  ∀ d n w, ∀ c ∈ (plan d n w).1, ok c

/-- Whether a plan submits only entries that can be written. -/
def Plan.Encodable {ω : Type} (plan : Plan ω) : Prop :=
  plan.Makes Call.Encodable

/-! ### Calls -/

namespace Node

variable {n : Node} {hands : List Payload} {c : Call}

/-- What a call makes of a node. -/
def take (n : Node) : Call → Node
  | .submit r => (Command.submitTo r n).2
  | .report sender id delivered => n.report sender id delivered
  | .wait milliseconds => n.wait milliseconds

end Node

/-- What a call makes of a view. -/
inductive View.Takes : Call → View → View → Prop
  | submit {r : Submission} {es : List Entry} {message : MessageId} {w : View} :
      r.entries? = some es →
      Takes (.submit r) w (w.queue ⟨r.operation, r.origin message, es, r.inFile⟩)
  | wait {milliseconds : Nat} {w : View} : Takes (.wait milliseconds) w w
  | unknown {sender : Engine} {id : MessageId} {delivered : Bool} {w : View} :
      (∀ m ∈ w.flying, ¬(m.sender = sender ∧ m.id = id)) →
      Takes (.report sender id delivered) w w
  | settle {m : Carried} {rest : Multiset Carried} {delivered : Bool} {w : View} :
      w.flying = m ::ₘ rest → (∀ m' ∈ rest, ¬(m'.sender = m.sender ∧ m'.id = m.id)) →
      Takes (.report m.sender m.id delivered) w
        (View.settle { w with flying := rest } m.operation m.entries delivered)

namespace View

variable {c : Call} {w w' : View}

/-- No call changes the peer. -/
theorem Takes.peer_eq (ht : w.Takes c w') : w'.peer = w.peer := by
  cases ht with
  | @settle m rest delivered w _ _ => cases delivered <;> rfl
  | _ => rfl

/-- A call leaves an outbound list, or puts by in it what was in flight. -/
theorem Takes.outbound_cases (ht : w.Takes c w') (o : Operation) :
    w'.list (.outbound o) = w.list (.outbound o) ∨ ∃ m ∈ w.flying,
      w'.list (.outbound o) =
        w.list (.outbound o) ++ m.entries.filter fun e => Bulk.Line.isEncodable e := by
  cases ht with
  | @settle m rest delivered w hm _ =>
    cases delivered with
    | true => exact Or.inl rfl
    | false =>
      rw [View.settle, if_neg Bool.false_ne_true, append, list_setList]
      split
      · rename_i hb
        rw [← hb]
        exact Or.inr ⟨m, hm ▸ Multiset.mem_cons_self m rest, rfl⟩
      · exact Or.inl rfl
  | _ => exact Or.inl rfl

end View

namespace Node

variable {n : Node} {hands : List Payload} {c : Call}

theorem Sound.wait (h : n.Sound hands) (milliseconds : Nat) :
    n.Yields hands hands n.view (n.wait milliseconds) :=
  ⟨⟨h.inventory, h.named⟩, rfl, fun _ _ => rfl, Nat.le_refl _⟩

theorem Sound.take (h : n.Sound hands) (hc : c.Readable) :
    (∃ w, n.Yields hands hands w (n.take c)) ∧ n.view.Takes c (n.take c).view := by
  cases c with
  | submit r =>
    obtain ⟨es, hes⟩ := hc
    obtain ⟨b, n', message, hrun, hy⟩ := h.submitTo hes
    rw [Node.take, hrun]
    exact ⟨⟨_, hy⟩, hy.view_eq ▸ .submit hes⟩
  | report sender id delivered =>
    rcases h.report sender id delivered with ⟨hsame, hnone⟩ | ⟨m, rest, hm, rfl, rfl, hy⟩
    · rw [Node.take, hsame]
      exact ⟨⟨_, h.yields hands⟩, .unknown hnone⟩
    · refine ⟨⟨_, hy⟩, ?_⟩
      -- names are used once, so the message is not in flight twice
      have hnames := n.nodup_names
      rw [hm, Multiset.map_cons, Multiset.nodup_cons] at hnames
      rw [Node.take, hy.view_eq]
      refine .settle hm fun m' hm' hc => hnames.1 ?_
      exact Multiset.mem_map.2 ⟨m', hm', Prod.ext hc.1 hc.2⟩
  | wait milliseconds => exact ⟨⟨n.view, h.wait milliseconds⟩, .wait⟩

end Node

/-! ### Runs -/

namespace Plan

variable {ω : Type}

/-- The router that makes the calls of a plan and writes down what happens. -/
def router (plan : Plan ω) : Router (List Note × ω) := fun d n s =>
  let seen := match d.target with
    | .toward _ => [.sent (n.loaded d)]
    | .replicas => []
  let (calls, w) := plan d n s.2
  (calls.foldl Node.take n, s.1 ++ seen ++ calls.flatMap Call.notes, w)

/-- One step of a run. -/
def step (plan : Plan ω) (s : Node × List Note × ω) : Step → Node × List Note × ω
  | .call c => (s.1.take c, s.2.1 ++ c.notes, s.2.2)
  | .cycle =>
    Node.cycle plan.router
      (s.1, s.2.1 ++ s.1.queues.inOrder.map fun r => .served (s.1.errand r), s.2.2)
  | .setPath path => (s.1.setPath path, s.2)
  | .handOff => (s.1.redistribute.2, s.2)

/-- A run. -/
def run (plan : Plan ω) (steps : List Step) (s : Node × List Note × ω) : Node × List Note × ω :=
  steps.foldl plan.step s

end Plan

/-! ### What a run keeps -/

/-- A property of the chores that are left, the view and the record is kept by everything that
happens in a cycle and by some calls. -/
structure Keeps (ok : Call → Prop) (I : List Chore → View → List Note → Prop) : Prop where
  encodable : ∀ c, ok c → c.Encodable
  does : ∀ c cs cs' v v' log, v.Does c cs' v' → I (c :: cs) v log → I (cs' ++ cs) v' log
  send : ∀ m cs v log, I (.send m.operation m.entries :: cs) v log →
    I cs (v.fly m) (log ++ [.sent m])
  take : ∀ c cs v v' log, ok c → v.Takes c v' → I cs v log → I cs v' (log ++ c.notes)

/-- A property is kept when a cycle begins to serve the requests that wait. -/
def Starts (I : List Chore → View → List Note → Prop) : Prop :=
  ∀ (rs : List Errand) v log, v.queued = (rs : Multiset Errand) → I [] v log →
    I (rs.map .serve ++ [.retry, .merge]) { v with queued := 0 } (log ++ rs.map .served)

namespace Keeps

variable {ω : Type} {ok : Call → Prop} {I : List Chore → View → List Note → Prop}
  {plan : Plan ω} {n : Node}
  {js : List Job} {log : List Note} {w : ω}

/-- A property of the record, next to surroundings that do not matter. -/
def beside (I : List Chore → View → List Note → Prop) (cs : List Chore) (v : View)
    (s : List Note × ω) : Prop :=
  I cs v s.1

theorem calls (hI : Keeps ok I) {calls : List Call} (hcalls : ∀ c ∈ calls, ok c)
    (h : n.Sound (handsOf js)) (hn : I (js.map (·.chore n)) n.view log) (w : ω) :
    Node.Meets (beside I) js (calls.foldl Node.take n, log ++ calls.flatMap Call.notes, w) := by
  induction calls generalizing n log with
  | nil =>
    rw [List.flatMap_nil, List.append_nil]
    exact ⟨h, hn⟩
  | cons c calls ih =>
    obtain ⟨hc, hcalls⟩ := List.forall_mem_cons.1 hcalls
    obtain ⟨⟨w', hy⟩, htakes⟩ := h.take (hI.encodable c hc).readable
    rw [List.foldl_cons, List.flatMap_cons, ← List.append_assoc]
    refine ih hcalls hy.sound ?_
    rw [Node.map_chore_congr hy.kept_eq]
    exact hI.take _ _ _ _ _ hc htakes hn

theorem routerKeeps (hI : Keeps ok I) (hplan : plan.Makes ok) :
    Node.RouterKeeps plan.router (beside I) := by
  constructor
  · rintro d n js v ⟨log, w⟩ branch hsound htarget hview hsend
    rw [Plan.router, htarget]
    refine hI.calls (hplan d n w) hsound ?_ _
    rw [hview]
    exact hI.send _ _ _ _ hsend
  · rintro d n js ⟨log, w⟩ hsound htarget hn
    rw [Plan.router, htarget]
    refine hI.calls (hplan d n w) hsound ?_ _
    rw [List.append_nil]
    exact hn

/-- What holds when a cycle begins holds after it. -/
theorem cycle (hI : Keeps ok I) (hplan : plan.Makes ok) (h : n.Sound [])
    (hn : I ((n.queues.inOrder.map n.errand).map .serve ++ [.retry, .merge])
      { n.view with queued := 0 } (log ++ (n.queues.inOrder.map n.errand).map .served)) (w : ω) :
    Node.Meets (beside I) [] (plan.step (n, log, w) .cycle) := by
  rw [List.map_map, List.map_map] at hn
  exact Node.cycle_invariant (fun c cs cs' v v' w hd hi => hI.does _ _ _ _ _ _ hd hi)
    (hI.routerKeeps hplan) h hn

/-- Calls and cycles keep the property. -/
theorem step (hI : Keeps ok I) (hstart : Starts I) (hplan : plan.Makes ok)
    {s : Node × List Note × ω} (h : Node.Meets (beside I) [] s) {t : Step} (ht : t.Makes ok)
    (hplain : t.IsPlain) : Node.Meets (beside I) [] (plan.step s t) := by
  obtain ⟨n, log, w⟩ := s
  cases t with
  | call c =>
    have hcalls : ∀ c' ∈ [c], ok c' := by
      rw [List.forall_mem_singleton]
      exact ht
    have hcall := hI.calls hcalls h.sound h.holds w
    rwa [List.flatMap_singleton] at hcall
  | cycle => exact hI.cycle hplan h.sound (hstart _ _ _ rfl h.holds) w
  | setPath path => exact hplain.elim
  | handOff => exact hplain.elim

theorem run (hI : Keeps ok I) (hstart : Starts I) (hplan : plan.Makes ok)
    {s : Node × List Note × ω} (h : Node.Meets (beside I) [] s) {steps : List Step}
    (hsteps : ∀ t ∈ steps, t.Makes ok) (hplain : ∀ t ∈ steps, t.IsPlain) :
    Node.Meets (beside I) [] (plan.run steps s) := by
  induction steps generalizing s with
  | nil => exact h
  | cons t steps ih =>
    obtain ⟨ht, hsteps⟩ := List.forall_mem_cons.1 hsteps
    obtain ⟨hp, hplain⟩ := List.forall_mem_cons.1 hplain
    exact ih (hI.step hstart hplan h ht hp) hsteps hplain

end Keeps

namespace Plan

variable {ω : Type} {plan : Plan ω} {s : Node × List Note × ω}

/-- Every step leaves a sound node. -/
theorem sound_step (hplan : plan.Encodable) (h : s.1.Sound []) {t : Step} (ht : t.Encodable) :
    (plan.step s t).1.Sound [] := by
  -- soundness is part of `Node.Meets`, so there is nothing else to keep
  have htrivial : Keeps Call.Encodable fun _ _ _ => True :=
    ⟨fun _ => id, fun _ _ _ _ _ _ _ _ => trivial, fun _ _ _ _ _ => trivial,
      fun _ _ _ _ _ _ _ _ => trivial⟩
  have hstart : Starts fun _ _ _ => True := fun _ _ _ _ _ => trivial
  cases t with
  | call c => exact (htrivial.step hstart hplan ⟨h, trivial⟩ ht trivial).sound
  | cycle => exact (htrivial.step hstart hplan ⟨h, trivial⟩ ht trivial).sound
  | setPath path => exact ⟨h.inventory, h.named⟩
  | handOff =>
    obtain ⟨k, n', hrun, hy⟩ := h.redistribute
    rw [step, hrun]
    exact hy.sound

theorem sound_run (hplan : plan.Encodable) (h : s.1.Sound []) {steps : List Step}
    (hsteps : ∀ t ∈ steps, t.Encodable) : (plan.run steps s).1.Sound [] := by
  induction steps generalizing s with
  | nil => exact h
  | cons t steps ih =>
    obtain ⟨ht, hsteps⟩ := List.forall_mem_cons.1 hsteps
    exact ih (sound_step hplan h ht) hsteps

end Plan

end TrieOverlay
