import TrieOverlay.Proofs.Node.Desk

/-!
# Serving a batch without files

What serving a request with a batch of entries comes to is said here without payloads.  The router
answers in a `Manner`: after each message it may answer any of the messages so far, and what it
answers depends only on what they say.

* `Act` is a piece of work on some entries, `Act.ofRequest` the acts of a request.  They are what a
  request comes to whether its entries are in memory or in a file (`View.Fulfils.eq_acts`).
* A `Course` is what came of the acts so far: the messages that were sent, those that no outcome was
  reported of, and the view of the node with the messages in flight that were there before.
* `View.Takes.report_cases`: what a report does to a message in flight.
-/

namespace TrieOverlay

/-- How a router answers: by what the messages so far say, which of them it answers now, and how.
Messages are named by their places. -/
abbrev Manner := List Letter → List (Nat × Bool)

/-- The name of a message. -/
def Slip.name (s : Slip) : MessageId :=
  s.dispatch.message.header.id

/-- Whether a message in flight is the one that is seen. -/
def Slip.Names (s : Slip) (m : Carried) : Prop :=
  m.sender = s.dispatch.sender ∧ m.id = s.name

instance (s : Slip) : DecidablePred s.Names := fun m =>
  inferInstanceAs (Decidable (m.sender = s.dispatch.sender ∧ m.id = s.name))

/-- The reports on some of the messages. -/
def reportsOn (log : List Slip) (answers : List (Nat × Bool)) : List Call :=
  answers.filterMap fun a => log[a.1]?.map fun s => .report s.dispatch.sender s.name a.2

/-- The desk that answers in a manner. -/
def Manner.desk (manner : Manner) : Desk Unit := fun log _ w =>
  (reportsOn log (manner (log.map Slip.letter)), w)

/-- A request is served, with answers in a manner and some more answers after that. -/
def Manner.serve (manner : Manner) (later : List (Nat × Bool)) (n : Node) (r : Request) :
    Node × List Slip :=
  let s := Node.serve manner.desk.router (n, [], ()) r
  ((reportsOn s.2.1 later).foldl Node.take s.1, s.2.1)

/-! ### Acts -/

/-- A piece of work on some entries, whatever holds them. -/
inductive Act where
  /-- Send entries toward a subtree. -/
  | send (task : Task) (branch : Key) (entries : List Entry)
  /-- Apply owned entries, and share them with the replicas if that is to be done. -/
  | apply (task : Task) (path : Key) (entries : List Entry) (shared : Bool)
  /-- Send entries to the replicas. -/
  | share (task : Task) (path : Key) (entries : List Entry)
  /-- Release a payload. -/
  | drop

/-- The duty of an act on entries in memory or in a file. -/
def Act.duty (inFile : Bool) : Act → Duty
  | send task branch es => .send task branch ⟨es, inFile⟩
  | apply task path es shared => .apply task path ⟨es, inFile⟩ shared
  | share task path es => .share task path ⟨es, inFile⟩
  | drop => .drop

/-- The acts of sending entries by level. -/
def Act.sends (task : Task) (path : Key) (es : List Entry) : List Act :=
  (List.range path.length).filterMap fun i =>
    if atLevel path i es = [] then none
    else (path.branchAt? i).map (.send task · (atLevel path i es))

/-- The acts of a request. -/
def Act.ofRequest (peer : LocalPeer) (task : Task) (origin : Origin) (es : List Entry) :
    List Act :=
  let own := ownedBy peer.path es
  match origin with
  | .here =>
    if peer.isSuperPeer then
      sends task peer.path es ++ if own = [] then [] else [share task peer.path own]
    else [send task .root es]
  | .peer _ _ false =>
    sends task peer.path es ++ if own = [] then [] else [apply task peer.path own true]
  | .peer _ _ true => [apply task peer.path es false]

/-- Entries that can all be written are split alike in memory and in a file. -/
theorem Batch.part_eq {b : Batch} {es : List Entry}
    (hes : ∀ e ∈ es, Bulk.Line.isEncodable e = true) :
    b.part es = if es = [] then none else some ⟨es, b.inFile⟩ := by
  rw [part, kept, List.filter_eq_self.2 hes, ite_self]

section

variable {task : Task} {path : Key} {peer : LocalPeer} {es : List Entry} {inFile : Bool}

theorem Duty.sends_eq (hes : ∀ e ∈ es, Bulk.Line.isEncodable e = true) :
    Duty.sends task path ⟨es, inFile⟩ = (Act.sends task path es).map (Act.duty inFile) := by
  rw [sends, Act.sends, List.map_filterMap]
  refine List.filterMap_congr fun i _ => ?_
  have hlevel : ∀ e ∈ atLevel path i es, Bulk.Line.isEncodable e = true := fun e he =>
    hes e (List.mem_filter.1 he).1
  rw [Batch.partAt, Batch.part_eq hlevel]
  by_cases hnil : atLevel path i es = []
  · rw [if_pos hnil, if_pos hnil]
    rfl
  · rw [if_neg hnil, if_neg hnil]
    cases path.branchAt? i <;> rfl

theorem Batch.owned_eq (hes : ∀ e ∈ es, Bulk.Line.isEncodable e = true) :
    (⟨es, inFile⟩ : Batch).owned path =
      if ownedBy path es = [] then none else some ⟨ownedBy path es, inFile⟩ :=
  part_eq fun e he => hes e (List.mem_filter.1 he).1

/-- The duties that come of a request are its acts. -/
theorem View.Fulfils.eq_acts {parent : RequestId} {r : Errand} {v v' : View} {ds : List Duty}
    (hf : v.Fulfils (.serve parent r) ds v') (hne : r.entries ≠ [])
    (hes : ∀ e ∈ r.entries, Bulk.Line.isEncodable e = true) :
    ds = (Act.ofRequest v.peer (r.task parent) r.origin r.entries).map (Act.duty r.inFile) ∧
      v' = v := by
  have howned : r.batch.owned v.peer.path = _ := Batch.owned_eq hes
  have hsends : Duty.sends (r.task parent) v.peer.path r.batch = _ := Duty.sends_eq hes
  have hsplit : ∀ (own : Batch → Duty) (act : List Entry → Act),
      (∀ es, own ⟨es, r.inFile⟩ = (act es).duty r.inFile) →
      Duty.sends (r.task parent) v.peer.path r.batch ++
          (r.batch.owned v.peer.path).toList.map own =
        (Act.sends (r.task parent) v.peer.path r.entries ++
          if ownedBy v.peer.path r.entries = [] then []
          else [act (ownedBy v.peer.path r.entries)]).map (Act.duty r.inFile) := by
    intro own act hown
    rw [hsends, howned, List.map_append]
    split
    · rfl
    · rw [Option.toList_some, List.map_singleton, List.map_singleton, hown]
  cases hf with
  | nothing _ hnil => exact absurd hnil hne
  | root hhere hs =>
    refine ⟨?_, rfl⟩
    simp only [Act.ofRequest, hhere, hs]
    rfl
  | split hhere hs =>
    refine ⟨?_, rfl⟩
    simp only [Act.ofRequest, hhere, hs]
    exact hsplit _ (.share (r.task parent) v.peer.path) fun _ => rfl
  | splitOther hother =>
    refine ⟨?_, rfl⟩
    simp only [Act.ofRequest, hother]
    exact hsplit _ (.apply (r.task parent) v.peer.path · true) fun _ => rfl
  | replica hother =>
    refine ⟨?_, rfl⟩
    simp only [Act.ofRequest, hother]
    rfl

end

/-! ### Courses -/

/-- A message that no outcome was reported of, by its place among all messages. -/
structure Awaited where
  /-- Its place. -/
  place : Nat
  /-- The change that it asks for. -/
  operation : Operation
  /-- The entries that it carries. -/
  entries : List Entry

/-- What came of serving a request so far. -/
structure Course where
  /-- The node, with the messages in flight that were there before. -/
  view : View
  /-- The messages. -/
  letters : List Letter
  /-- The messages that no outcome was reported of. -/
  awaited : List Awaited

/-- A node with more messages in flight. -/
def View.tracking (v : View) (new : Multiset Carried) : View :=
  { v with flying := v.flying + new }

namespace Course

/-- A message is answered. -/
def answer (c : Course) (a : Nat × Bool) : Course :=
  match c.awaited.find? (·.place = a.1) with
  | none => c
  | some t =>
    { c with
      view := c.view.settle t.operation t.entries a.2
      awaited := c.awaited.filter (·.place ≠ a.1) }

/-- A message is sent, and messages are answered. -/
def tell (manner : Manner) (c : Course) (l : Letter) (awaited : List Awaited) : Course :=
  (manner (c.letters ++ [l])).foldl answer { c with letters := c.letters ++ [l], awaited }

/-- An act is done; the acts that come of it, and the course afterwards. -/
def perform (manner : Manner) (c : Course) : Act → List Act × Course
  | .send task branch es =>
    ([], c.tell manner ⟨.toward branch, branch, task.operation, task.parent, es⟩
      (c.awaited ++ [⟨c.letters.length, task.operation, es⟩]))
  | .apply task path es shared =>
    ([if shared then .share task path es else .drop],
      { c with view := c.view.apply path task.operation es })
  | .share task path es =>
    ([.drop], c.tell manner ⟨.replicas, path, task.operation, task.parent, es⟩ c.awaited)
  | .drop => ([], c)

end Course

namespace View

variable {v : View} {new : Multiset Carried}

theorem fly_eq_tracking (v : View) (m : Carried) : v.fly m = v.tracking ([m] : List Carried) := by
  rw [fly, tracking, Multiset.coe_singleton, add_comm, Multiset.singleton_add]

@[simp] theorem tracking_zero (v : View) : v.tracking 0 = v := by
  rw [tracking, add_zero]

theorem apply_tracking (v : View) (new : Multiset Carried) (path : Key) (o : Operation)
    (es : List Entry) : (v.tracking new).apply path o es = (v.apply path o es).tracking new := by
  cases o with
  | insert => rfl
  | delete => rfl
  | update =>
    have hmoved : (v.tracking new).moved path es = v.moved path es := rfl
    simp only [apply, hmoved]
    split <;> rfl

theorem settle_tracking (v : View) (new : Multiset Carried) (o : Operation) (es : List Entry)
    (delivered : Bool) :
    (v.tracking new).settle o es delivered = (v.settle o es delivered).tracking new := by
  cases delivered <;> rfl

theorem settle_flying (v : View) (o : Operation) (es : List Entry) (delivered : Bool) :
    (v.settle o es delivered).flying = v.flying := by
  cases delivered <;> rfl

/-- A report on a message that is not in flight changes nothing; otherwise the message lands. -/
theorem Takes.report_cases {sender : Engine} {id : MessageId} {delivered : Bool} {v v' : View}
    (ht : v.Takes (.report sender id delivered) v') :
    ((∀ m ∈ v.flying, ¬(m.sender = sender ∧ m.id = id)) ∧ v' = v) ∨
      ∃ m rest, v.flying = m ::ₘ rest ∧ m.sender = sender ∧ m.id = id ∧
        (∀ m' ∈ rest, ¬(m'.sender = sender ∧ m'.id = id)) ∧
        v' = View.settle { v with flying := rest } m.operation m.entries delivered := by
  cases ht with
  | unknown hnone => exact Or.inl ⟨hnone, rfl⟩
  | settle hm hrest => exact Or.inr ⟨_, _, hm, rfl, rfl, hrest, rfl⟩

end View

end TrieOverlay
