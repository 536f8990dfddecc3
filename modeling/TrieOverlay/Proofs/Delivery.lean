import TrieOverlay.Delivery
import TrieOverlay.Proofs.Node.Delivery

/-!
# What a courier does for a dispatch

A *delivery* is what it takes to bring an envelope to an address: some posts that do not get
through, and a last one, which is the first that is answered unless the attempts run out.  For a
dispatch toward a key a courier makes at most one delivery, for one to the replicas one to each of
them; then it calls its listener once.  `Courier.reports_outcome_once` says for every transport
which deliveries these are and which call it is.

The calls can be seen in two ways.  A listener can be anything that takes them in; and a courier
can work beside a log (`Courier.logged`) in which its listener notes every call
(`RouteListener.noting`), and which nothing else touches.

* `Courier.delivery_of_post` : the posts of one envelope to one address are a delivery.
* `Courier.deliveries_of_deliverAll` : one delivery to each of several addresses.
* `Courier.deliverAll_logged` : the log has no part in the deliveries.
* `Courier.reports_outcome_once` : the deliveries for a dispatch, and the one call.
-/

namespace TrieOverlay

/-! ### Answers -/

/-- An answer by which a message was accepted has a success status and a body that says so. -/
def Answer.Accepts : Answer → Prop
  | .none => False
  | .answered status body =>
    (200 ≤ status ∧ status < 300) ∧ ∃ response : RouteResponse,
      Json.Written.parse? body >>= RouteResponse.ofWritten? = some response ∧
        response.accepted = true

theorem Answer.accepted_iff (a : Answer) : a.accepted = true ↔ a.Accepts := by
  cases a with
  | none => simp [Answer.accepted, Answer.Accepts]
  | answered status body => simp [Answer.accepted, Answer.Accepts, Option.any_eq_true]

/-! ### Posts -/

/-- An envelope that was posted to an address, and what came of it. -/
structure Posting where
  /-- Where it was posted to. -/
  address : String
  /-- What was posted. -/
  envelope : Envelope
  /-- What came of it. -/
  answer : Answer

/-- Posts that a transport makes one after another, from a state to a state. -/
inductive Posted {σ : Type} (transport : Transport σ) : List Posting → σ → σ → Prop
  | nil (s : σ) : Posted transport [] s s
  | cons {p : Posting} {ps : List Posting} {s s' t : σ}
      (first : transport p.address p.envelope s = (p.answer, s'))
      (rest : Posted transport ps s' t) : Posted transport (p :: ps) s t

namespace Posted

variable {σ : Type} {transport : Transport σ} {ps qs : List Posting} {s t u : σ}

theorem append (h : Posted transport ps s t) (h' : Posted transport qs t u) :
    Posted transport (ps ++ qs) s u := by
  induction h with
  | nil => exact h'
  | cons first _ ih => exact .cons first (ih h')

end Posted

/-- The posts that bring an envelope to an address: none but the last got through. -/
structure Delivery where
  /-- Where the envelope goes. -/
  address : String
  /-- The envelope. -/
  envelope : Envelope
  /-- The number of the posts before the last one. -/
  missed : Nat
  /-- What came of the last post. -/
  answer : Answer

namespace Delivery

/-- The posts of a delivery. -/
def posts (x : Delivery) : List Posting :=
  .replicate x.missed ⟨x.address, x.envelope, .none⟩ ++ [⟨x.address, x.envelope, x.answer⟩]

/-- A delivery takes no more than a number of attempts, but at least one; it gives up only when
there is none left. -/
structure KeepsTo (x : Delivery) (attempts : Nat) : Prop where
  bounded : x.missed + 1 ≤ max 1 attempts
  exhausted : x.answer = .none → x.missed + 1 = max 1 attempts

@[simp] theorem length_posts (x : Delivery) : x.posts.length = x.missed + 1 := by
  simp [posts]

/-- One more post before the others, which did not get through. -/
theorem posted_missed {σ : Type} {transport : Transport σ} {x : Delivery} {s s' t : σ}
    (first : transport x.address x.envelope s = (.none, s'))
    (rest : Posted transport x.posts s' t) :
    Posted transport { x with missed := x.missed + 1 }.posts s t :=
  .cons (p := ⟨x.address, x.envelope, .none⟩) first rest

end Delivery

/-! ### Calls of listeners -/

/-- A call of a listener. -/
inductive Callback where
  /-- It is told that a message was delivered. -/
  | finished (id : MessageId)
  /-- It is told that a message was not delivered. -/
  | failed (id : MessageId)
deriving DecidableEq, Repr

/-- The call that tells an outcome. -/
def Callback.of (id : MessageId) (delivered : Bool) : Callback :=
  if delivered then finished id else failed id

/-- The listener that notes its calls, in a log beside the state. -/
def RouteListener.noting {ω : Type} : RouteListener (Node × (ω × List Callback)) where
  finished id s := (s.1, s.2.1, s.2.2 ++ [.finished id])
  failed id s := (s.1, s.2.1, s.2.2 ++ [.failed id])

@[simp] theorem RouteListener.report_noting {ω : Type} (id : MessageId) (delivered : Bool)
    (s : Node × (ω × List Callback)) :
    RouteListener.noting.report id delivered s =
      (s.1, s.2.1, s.2.2 ++ [.of id delivered]) := by
  cases delivered <;> rfl

/-! ### Couriers -/

/-- The address that a resolution comes to. -/
def Resolution.address? (self : LocalPeer) : Resolution → Option String
  | .here => some self.info.address
  | .remote p => some p.info.address
  | .unreachable => none

theorem Resolution.isSome_address? {self : LocalPeer} {r : Resolution} :
    (r.address? self).isSome = true ↔ r ≠ .unreachable := by
  cases r <;> simp [address?]

namespace Courier

variable {ω : Type}

/-- The posts of an envelope to an address are a delivery, and its last answer is the result. -/
theorem delivery_of_post (transport : Transport (Node × ω)) (address : String) (e : Envelope) :
    ∀ (more : Nat) (s : Node × ω), ∃ x : Delivery, x.address = address ∧ x.envelope = e ∧
      Posted transport x.posts s (post transport address e more s).2 ∧ x.KeepsTo (more + 1) ∧
      x.answer = (post transport address e more s).1 := by
  intro more
  -- the induction is on the attempts that are left after the one at hand
  induction more with
  | zero =>
    intro s
    refine ⟨⟨address, e, 0, (transport address e s).1⟩, rfl, rfl, ?_, ⟨?_, fun _ => ?_⟩, rfl⟩
    · exact .cons rfl (.nil _)
    · simp
    · simp
  | succ more ih =>
    intro s
    rcases hpost : transport address e s with ⟨answer, s'⟩
    cases answer with
    | none =>
      obtain ⟨x, rfl, rfl, hposted, hkeeps, hanswer⟩ := ih s'
      have hresult : post transport x.address x.envelope (more + 1) s =
          post transport x.address x.envelope more s' := by
        rw [post, hpost]
      rw [hresult]
      refine ⟨{ x with missed := x.missed + 1 }, rfl, rfl, x.posted_missed hpost hposted,
        ⟨?_, fun h => ?_⟩, hanswer⟩
      · have := hkeeps.bounded
        simp only
        omega
      · have := hkeeps.exhausted h
        simp only
        omega
    | answered status body =>
      have hresult : post transport address e (more + 1) s = (.answered status body, s') := by
        rw [post, hpost]
      rw [hresult]
      refine ⟨⟨address, e, 0, .answered status body⟩, rfl, rfl, ?_, ⟨?_, fun h => ?_⟩, rfl⟩
      · exact .cons hpost (.nil _)
      · simp
      · exact absurd h (by simp)

variable (c : Courier ω)

/-- To bring an envelope to an address takes one delivery, which tells whether it was accepted. -/
theorem delivery_of_deliver (address : String) (e : Envelope) (s : Node × ω) :
    ∃ x : Delivery, x.address = address ∧ x.envelope = e ∧
      Posted c.transport x.posts s (c.deliver address e s).2 ∧ x.KeepsTo c.attempts ∧
      ((c.deliver address e s).1 = true ↔ x.answer.Accepts) := by
  obtain ⟨x, haddress, he, hposted, hkeeps, hanswer⟩ :=
    delivery_of_post c.transport address e (c.attempts - 1) s
  refine ⟨x, haddress, he, hposted, ⟨?_, fun h => ?_⟩, ?_⟩
  · have := hkeeps.bounded
    omega
  · have := hkeeps.exhausted h
    omega
  · rw [hanswer]
    exact Answer.accepted_iff _

/-- To bring an envelope to several addresses takes one delivery to each of them. -/
theorem deliveries_of_deliverAll (e : Envelope) :
    ∀ (addresses : List String) (s : Node × ω), ∃ xs : List Delivery,
      xs.map (·.address) = addresses ∧ (∀ x ∈ xs, x.envelope = e ∧ x.KeepsTo c.attempts) ∧
      Posted c.transport (xs.flatMap Delivery.posts) s (c.deliverAll e addresses s).2 ∧
      ((c.deliverAll e addresses s).1 = true ↔ ∀ x ∈ xs, x.answer.Accepts) := by
  intro addresses
  induction addresses with
  | nil =>
    intro s
    exact ⟨[], rfl, by simp, .nil _, by simp [deliverAll]⟩
  | cons address rest ih =>
    intro s
    obtain ⟨x, rfl, rfl, hposted, hkeeps, haccepted⟩ := c.delivery_of_deliver address e s
    obtain ⟨xs, rfl, hxs, hrest, hall⟩ := ih (c.deliver x.address x.envelope s).2
    refine ⟨x :: xs, rfl, ?_, ?_, ?_⟩
    · exact List.forall_mem_cons.2 ⟨⟨rfl, hkeeps⟩, hxs⟩
    · rw [List.flatMap_cons]
      exact hposted.append hrest
    · rw [deliverAll, Bool.and_eq_true, haccepted, hall, List.forall_mem_cons]

/-! ### Beside a log -/

/-- The courier beside a log, which its transport leaves alone. -/
def logged : Courier (ω × List Callback) where
  table w := c.table w.1
  choose := c.choose
  attempts := c.attempts
  transport address e s :=
    let (answer, t) := c.transport address e (s.1, s.2.1)
    (answer, t.1, t.2, s.2.2)

variable (log : List Callback)

/-- The log has no part in the posts of an envelope to an address. -/
theorem post_logged (address : String) (e : Envelope) (more : Nat) (s : Node × ω) :
    post c.logged.transport address e more (s.1, s.2, log) =
      let r := post c.transport address e more s
      (r.1, r.2.1, r.2.2, log) := by
  induction more generalizing s with
  | zero => rfl
  | succ more ih =>
    rcases hpost : c.transport address e s with ⟨answer, s'⟩
    cases answer with
    | none => simpa [post, logged, hpost] using ih s'
    | answered status body => simp [post, logged, hpost]

/-- The log has no part in a delivery. -/
theorem deliver_logged (address : String) (e : Envelope) (s : Node × ω) :
    c.logged.deliver address e (s.1, s.2, log) =
      let r := c.deliver address e s
      (r.1, r.2.1, r.2.2, log) := by
  rw [deliver, c.post_logged log]
  rfl

/-- The log has no part in several deliveries. -/
theorem deliverAll_logged (e : Envelope) (addresses : List String) (s : Node × ω) :
    c.logged.deliverAll e addresses (s.1, s.2, log) =
      let r := c.deliverAll e addresses s
      (r.1, r.2.1, r.2.2, log) := by
  induction addresses generalizing s with
  | nil => rfl
  | cons address rest ih => simp only [deliverAll, c.deliver_logged log, ih]

/-! ### The outcome of a dispatch -/

/-- What comes of making the envelope of a dispatch. -/
def wrapping (d : Dispatch) (n : Node) : Except StorageError Envelope × Node :=
  n.tryOnDisk (Envelope.ofMessage d.target.strategy n.peer.info.id d.message)

/-- What a key resolves to for a node. -/
def resolution (key : Key) (n : Node) (w : ω) : Resolution :=
  (c.table w).resolve n.peer c.choose key

/-- What the right deliveries for a dispatch are, and the right outcome.

A message toward a key needs an envelope and a peer that the key resolves to; that peer is the only
one that gets posts, no more than there are attempts, and has to accept.  A message to the replicas
needs nothing if there are none; otherwise it needs an envelope, each of them gets a delivery, and
all have to accept. -/
def Settles (d : Dispatch) (n : Node) (w : ω) (xs : List Delivery) (delivered : Bool) : Prop :=
  let wrapped := (wrapping d n).1.isOk
  match d.target with
  | .toward key =>
    xs.map (·.address) =
        (if wrapped then ((c.resolution key n w).address? n.peer).toList else []) ∧
      (xs.flatMap Delivery.posts).length ≤ max 1 c.attempts ∧
      (delivered = true ↔
        wrapped = true ∧ c.resolution key n w ≠ .unreachable ∧ ∀ x ∈ xs, x.answer.Accepts)
  | .replicas =>
    let replicas := (c.table w).replicas
    xs.map (·.address) = (if wrapped then replicas.map (·.info.address) else []) ∧
      (delivered = true ↔
        replicas = [] ∨ wrapped = true ∧ ∀ x ∈ xs, x.answer.Accepts)

theorem addressFor_eq {n n' : Node} (h : n'.peer = n.peer) (key : Key) (w : ω) :
    c.addressFor key (n', w) = (c.resolution key n w).address? n.peer := by
  simp only [addressFor, resolution, h]
  cases (c.table w).resolve n.peer c.choose key <;> rfl

/-- The courier reports the outcome of a dispatch at a state: whoever listens is called once, there,
and a log of the calls gets that one and no other. -/
structure ReportsAt (d : Dispatch) (n : Node) (w : ω) (delivered : Bool) (s : Node × ω) : Prop where
  told (l : RouteListener (Node × ω)) :
    c.route l d.target d.message (n, w) = l.report d.message.header.id delivered s
  noted (log : List Callback) :
    c.logged.route .noting d.target d.message (n, w, log) =
      (s.1, s.2, log ++ [.of d.message.header.id delivered])

/-- A message toward a key is carried by one delivery, if there is an envelope and an address. -/
theorem deliveries_of_routeToward {d : Dispatch} {key : Key} (hd : d.target = .toward key)
    (n : Node) (w : ω) :
    ∃ (xs : List Delivery) (delivered : Bool) (s : Node × ω),
      Posted c.transport (xs.flatMap Delivery.posts) ((wrapping d n).2, w) s ∧
      c.ReportsAt d n w delivered s ∧
      (∀ x ∈ xs, (wrapping d n).1 = .ok x.envelope ∧ x.KeepsTo c.attempts) ∧
      c.Settles d n w xs delivered := by
  obtain ⟨m, target, sender⟩ := d
  obtain rfl : target = .toward key := hd
  obtain ⟨wrapped, n', hwrap⟩ : ∃ wrapped n',
      n.tryOnDisk (Envelope.ofMessage .greedy n.peer.info.id m) = (wrapped, n') := ⟨_, _, rfl⟩
  have hpeer : n'.peer = n.peer := (congrArg (·.2.peer) hwrap).symm
  have hlogged (log : List Callback) : c.logged.addressFor key (n', w, log) =
      c.addressFor key (n', w) := rfl
  simp only [Settles, wrapping, Target.strategy, hwrap]
  cases wrapped with
  | error e =>
    refine ⟨[], false, (n', w), .nil _, ⟨fun l => ?_, fun log => ?_⟩, by simp,
      by simp [Except.isOk, Except.toBool]⟩
    · simp only [route, routeToward, hwrap]
      rfl
    · simp only [route, routeToward, hwrap]
      rfl
  | ok e =>
    rw [← @Resolution.isSome_address? n.peer, ← c.addressFor_eq hpeer]
    cases haddress : c.addressFor key (n', w) with
    | none =>
      refine ⟨[], false, (n', w), .nil _, ⟨fun l => ?_, fun log => ?_⟩, by simp, by simp⟩
      · simp only [route, routeToward, hwrap, haddress]
        rfl
      · simp only [route, routeToward, hwrap, hlogged, haddress]
        rfl
    | some address =>
      obtain ⟨x, rfl, rfl, hposted, hkeeps, haccepted⟩ := c.delivery_of_deliver address e (n', w)
      have hnoted := fun log => c.deliver_logged log x.address x.envelope (n', w)
      rcases hdeliver : c.deliver x.address x.envelope (n', w) with ⟨delivered, s⟩
      simp only [hdeliver] at hposted haccepted hnoted
      refine ⟨[x], delivered, s, by simpa using hposted, ⟨fun l => ?_, fun log => ?_⟩,
        by simpa using hkeeps, ?_, ?_, ?_⟩
      · simp only [route, routeToward, hwrap, haddress, hdeliver]
      · simp only [route, routeToward, hwrap, hlogged, haddress, hnoted,
          RouteListener.report_noting]
      · simp [Except.isOk, Except.toBool]
      · simpa using hkeeps.bounded
      · simpa [Except.isOk, Except.toBool] using haccepted

/-- A message to the replicas is carried by one delivery to each, if there is an envelope. -/
theorem deliveries_of_routeToReplicas {d : Dispatch} (hd : d.target = .replicas) (n : Node)
    (w : ω) :
    ∃ (xs : List Delivery) (delivered : Bool) (n' : Node) (s : Node × ω),
      (n' = n ∨ n' = (wrapping d n).2) ∧
      Posted c.transport (xs.flatMap Delivery.posts) (n', w) s ∧
      c.ReportsAt d n w delivered s ∧
      (∀ x ∈ xs, (wrapping d n).1 = .ok x.envelope ∧ x.KeepsTo c.attempts) ∧
      c.Settles d n w xs delivered := by
  obtain ⟨m, target, sender⟩ := d
  obtain rfl : target = .replicas := hd
  obtain ⟨wrapped, n', hwrap⟩ : ∃ wrapped n',
      n.tryOnDisk (Envelope.ofMessage .replicas n.peer.info.id m) = (wrapped, n') := ⟨_, _, rfl⟩
  have hlogged (log : List Callback) : c.logged.table (w, log) = c.table w := rfl
  simp only [Settles, wrapping, Target.strategy, hwrap]
  by_cases hreplicas : (c.table w).replicas = []
  · -- no envelope is made if there is nobody to send it to
    refine ⟨[], true, n, (n, w), .inl rfl, .nil _, ⟨fun l => ?_, fun log => ?_⟩, by simp,
      by simp [hreplicas]⟩
    · simp only [route, routeToReplicas, hreplicas, List.isEmpty_nil, if_true]
      rfl
    · simp only [route, routeToReplicas, hlogged, hreplicas, List.isEmpty_nil, if_true]
      rfl
  · have hsome : ¬(c.table w).replicas.isEmpty = true := by simpa using hreplicas
    cases wrapped with
    | error e =>
      refine ⟨[], false, n', (n', w), .inr rfl, .nil _, ⟨fun l => ?_, fun log => ?_⟩, by simp,
        by simp [Except.isOk, Except.toBool, hreplicas]⟩
      · simp only [route, routeToReplicas, if_neg hsome, hwrap]
        rfl
      · simp only [route, routeToReplicas, hlogged, if_neg hsome, hwrap]
        rfl
    | ok e =>
      obtain ⟨xs, haddresses, hxs, hposted, hall⟩ := c.deliveries_of_deliverAll e
        ((c.table w).replicas.map (·.info.address)) (n', w)
      have hnoted := fun log => c.deliverAll_logged log e
        ((c.table w).replicas.map (·.info.address)) (n', w)
      rcases hdeliver : c.deliverAll e ((c.table w).replicas.map (·.info.address)) (n', w) with
        ⟨delivered, s⟩
      simp only [hdeliver] at hposted hall hnoted
      refine ⟨xs, delivered, n', s, .inr rfl, hposted, ⟨fun l => ?_, fun log => ?_⟩,
        fun x hx => ?_, ?_, ?_⟩
      · simp only [route, routeToReplicas, if_neg hsome, hwrap, hdeliver]
      · simp only [route, routeToReplicas, hlogged, if_neg hsome, hwrap, hnoted,
          RouteListener.report_noting]
      · obtain ⟨rfl, hkeeps⟩ := hxs x hx
        exact ⟨rfl, hkeeps⟩
      · simpa [Except.isOk, Except.toBool] using haddresses
      · simpa [Except.isOk, Except.toBool, hreplicas] using hall

/-- For a dispatch a courier makes its deliveries, of which each stops at the first answer and gives
up only when its attempts run out, and then tells the right outcome of the message, once: a log of
what its listener is told grows by this one call, and whoever else listens is called like this at
the end, such as the node that sends. -/
theorem reports_outcome_once (d : Dispatch) (n : Node) (w : ω) :
    ∃ (xs : List Delivery) (delivered : Bool) (n' : Node) (s : Node × ω),
      (n' = n ∨ n' = (wrapping d n).2) ∧
      Posted c.transport (xs.flatMap Delivery.posts) (n', w) s ∧
      (∀ log : List Callback, c.logged.route .noting d.target d.message (n, w, log) =
        (s.1, s.2, log ++ [if delivered then .finished d.message.header.id
          else .failed d.message.header.id])) ∧
      (∀ l : RouteListener (Node × ω), c.route l d.target d.message (n, w) =
        if delivered then l.finished d.message.header.id s
        else l.failed d.message.header.id s) ∧
      c.router d n w = (s.1.report d.sender d.message.header.id delivered, s.2) ∧
      (∀ x ∈ xs, (wrapping d n).1 = .ok x.envelope ∧ x.KeepsTo c.attempts) ∧
      c.Settles d n w xs delivered := by
  have hrouter {delivered : Bool} {s : Node × ω} (h : c.ReportsAt d n w delivered s) :
      c.router d n w = (s.1.report d.sender d.message.header.id delivered, s.2) := by
    rw [router, h.told]
    cases delivered <;> rfl
  cases hd : d.target with
  | toward key =>
    obtain ⟨xs, delivered, s, hposted, hreports, hxs, hsettles⟩ :=
      c.deliveries_of_routeToward hd n w
    exact ⟨xs, delivered, _, s, .inr rfl, hposted, hd ▸ hreports.noted, hd ▸ hreports.told,
      hrouter hreports, hxs, hsettles⟩
  | replicas =>
    obtain ⟨xs, delivered, n', s, hn', hposted, hreports, hxs, hsettles⟩ :=
      c.deliveries_of_routeToReplicas hd n w
    exact ⟨xs, delivered, n', s, hn', hposted, hd ▸ hreports.noted, hd ▸ hreports.told,
      hrouter hreports, hxs, hsettles⟩

end Courier

end TrieOverlay
