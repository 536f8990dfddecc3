import TrieOverlay.Node.Cycle

/-!
# A cycle as a list of jobs

`Node.cycle` serves the waiting requests one after the other, and serving a request calls the router
in between.  To say what holds at every moment of a cycle it is cut into *jobs*: an agenda of jobs
is worked off from the front, and a job may put further jobs before the rest.  Each payload that is
in hand during a cycle belongs to exactly one job of the agenda.

* `Node.perform` does one job, `Node.Works` is a run to the end of the agenda.
* `Node.works_cycle`: a cycle is such a run.
* `Node.cycle_induction`: what every job keeps holds after the cycle.
-/

namespace TrieOverlay

/-- A piece of work of a cycle. -/
inductive Job where
  /-- Serve a request. -/
  | serve (request : Request)
  /-- Send a payload toward a subtree. -/
  | send (task : Task) (branch : Key) (payload : Payload)
  /-- Apply an owned payload, and share it with the replicas if that is to be done. -/
  | apply (task : Task) (path : Key) (payload : Payload) (shared : Bool)
  /-- Send a payload to the replicas. -/
  | share (task : Task) (path : Key) (payload : Payload)
  /-- Release a payload. -/
  | drop (payload : Payload)
  /-- Send the outbound lists again, if that is due. -/
  | retry
  /-- Send the outbound list of an operation again. -/
  | resend (operation : Operation)
  /-- Merge the inbound list. -/
  | merge

namespace Job

/-- The payload that a job has in hand. -/
def payload? : Job → Option Payload
  | serve r => some r.payload
  | send _ _ x | apply _ _ x _ | share _ _ x | drop x => some x
  | retry | resend _ | merge => none

/-- The jobs of sending the levels of a payload. -/
def sends (task : Task) (path : Key) (levels : List (Option Payload)) : List Job :=
  levels.zipIdx.filterMap fun (level, i) =>
    match level, path.branchAt? i with
    | some x, some branch => some (send task branch x)
    | _, _ => none

end Job

/-- The payloads that the jobs of an agenda have in hand. -/
def handsOf (js : List Job) : List Payload :=
  js.filterMap Job.payload?

namespace Node

variable {ω : Type} {router : Router ω} {j : Job} {js ks : List Job} {s t u : Node × ω}

/-- The jobs of a split payload: its levels are sent, then come those of the owned part. -/
def splitJobs (task : Task) (payload : Payload) (owned : Payload → Job) (s : Node × ω) :
    List Job × (Node × ω) :=
  match s.1.split s.1.peer.path payload with
  | (none, n) => ([], n, s.2)
  | (some (levels, own), n) =>
    (Job.sends task s.1.peer.path levels ++ own.toList.map owned, n, s.2)

/-- Does a job; the jobs that come of it, and the state afterwards. -/
def perform (router : Router ω) (j : Job) (s : Node × ω) : List Job × (Node × ω) :=
  match j with
  | .serve r =>
    let task : Task := ⟨r.operation, r.parent, r.isLocal⟩
    match r.origin with
    | .here =>
      if r.payload = .entries [] then ([], s)
      else if s.1.peer.isSuperPeer then
        splitJobs task r.payload (.share task s.1.peer.path) s
      else ([.send task .root r.payload], s)
    | .peer _ _ viaReplica =>
      if viaReplica then ([.apply task s.1.peer.path r.payload false], s)
      else splitJobs task r.payload (.apply task s.1.peer.path · true) s
  | .send task branch x => ([], send router task branch x s)
  | .apply task path x shared =>
    ([if shared then .share task path x else .drop x],
      s.1.applyPayload path task.operation x, s.2)
  | .share task path x => ([.drop x], broadcast router task path x s)
  | .drop x => ([], s.1.releasePayload x, s.2)
  | .retry =>
    match s.1.retryDue with
    | (false, n) => ([], n, s.2)
    | (true, n) => (Operation.all.map .resend, { n with lastRetry := some n.clock }, s.2)
  | .resend o =>
    match s.1.tryAsk (·.takeOutbound o) with
    | (.ok (some file), n) =>
      let (id, n) := n.newIdent
      ([.serve ⟨id, o, .file file, .here⟩], n, s.2)
    | (.ok none, n) | (.error _, n) => ([], n, s.2)
  | .merge => ([], s.1.merge, s.2)

/-- An agenda is worked off from a state to another. -/
inductive Works (router : Router ω) : List Job → Node × ω → Node × ω → Prop
  | nil (s : Node × ω) : Works router [] s s
  | cons {j : Job} {js : List Job} {s t : Node × ω} :
      Works router ((perform router j s).1 ++ js) (perform router j s).2 t →
        Works router (j :: js) s t

namespace Works

theorem append (h : Works router js s t) (h' : Works router ks t u) :
    Works router (js ++ ks) s u := by
  induction h with
  | nil s => exact h'
  | cons _ ih =>
    have hrest := ih h'
    rw [List.append_assoc] at hrest
    exact cons hrest

theorem of_perform (h : Works router (perform router j s).1 (perform router j s).2 t) :
    Works router [j] s t :=
  cons (by rwa [List.append_nil])

/-- What every job keeps is kept by a run. -/
theorem invariant {I : List Job → Node × ω → Prop}
    (hstep : ∀ j js s, I (j :: js) s → I ((perform router j s).1 ++ js) (perform router j s).2)
    (h : Works router js s t) : I js s → I [] t := by
  induction h with
  | nil s => exact id
  | cons _ ih => exact fun hi => ih (hstep _ _ _ hi)

end Works

/-! ### The functions of a cycle as runs -/

theorem works_sendLevel (task : Task) (path : Key) (levels : List (Option Payload × Nat))
    (s : Node × ω) :
    Works router
      (levels.filterMap fun (level, i) =>
        match level, path.branchAt? i with
        | some x, some branch => some (.send task branch x)
        | _, _ => none) s (levels.foldl (sendLevel router task path) s) := by
  induction levels generalizing s with
  | nil => exact .nil s
  | cons level levels ih =>
    obtain ⟨level, i⟩ := level
    rw [List.foldl_cons]
    cases level with
    | none =>
      rw [List.filterMap_cons_none rfl]
      exact ih s
    | some x =>
      cases hb : path.branchAt? i with
      | none =>
        rw [List.filterMap_cons_none (by simp [hb])]
        simp only [sendLevel, hb]
        exact ih s
      | some branch =>
        rw [List.filterMap_cons_some (b := .send task branch x) (by simp [hb])]
        simp only [sendLevel, hb]
        exact .cons (ih _)

theorem works_sendLevels (task : Task) (path : Key) (levels : List (Option Payload))
    (s : Node × ω) :
    Works router (Job.sends task path levels) s (sendLevels router task path levels s) :=
  works_sendLevel task path levels.zipIdx s

/-- A payload that is shared is released after that. -/
theorem works_share (task : Task) (path : Key) (x : Payload) (s : Node × ω) :
    Works router [.share task path x] s
      ((broadcast router task path x s).1.releasePayload x,
        (broadcast router task path x s).2) :=
  .cons (.cons (.nil _))

/-- A payload that is applied for another peer is shared, and released after that. -/
theorem works_applyShared (task : Task) (path : Key) (x : Payload) (s : Node × ω) :
    Works router [.apply task path x true] s
      (let t := broadcast router task path x (s.1.applyPayload path task.operation x, s.2)
      (t.1.releasePayload x, t.2)) :=
  .cons (works_share _ _ x _)

/-- A payload that is split is sent level by level; then comes what is done with the owned part. -/
theorem works_splitJobs (task : Task) (payload : Payload) {owned : Payload → Job}
    {act : Payload → Node × ω → Node × ω} (howned : ∀ x s, Works router [owned x] s (act x s))
    (s : Node × ω) :
    Works router (splitJobs task payload owned s).1 (splitJobs task payload owned s).2
      (match s.1.split s.1.peer.path payload with
      | (none, n) => (n, s.2)
      | (some (levels, own), n) =>
        let s' := sendLevels router task s.1.peer.path levels (n, s.2)
        match own with
        | none => s'
        | some x => act x s') := by
  rw [splitJobs]
  -- both sides go by what came of the split
  cases hsplit : s.1.split s.1.peer.path payload with
  | mk parts n =>
    cases parts with
    | none => exact .nil _
    | some parts =>
      obtain ⟨levels, own⟩ := parts
      refine (works_sendLevels _ _ levels (n, s.2)).append ?_
      cases own with
      | none => exact .nil _
      | some x => exact howned x _

theorem works_serveLocal {r : Request} (ho : r.origin = .here) (hne : r.payload ≠ .entries [])
    (s : Node × ω) :
    Works router [.serve r] s
      (serveLocal router ⟨r.operation, r.parent, r.isLocal⟩ r.payload s) := by
  refine Works.of_perform ?_
  simp only [perform, ho, if_neg hne]
  rw [serveLocal]
  by_cases hs : s.1.peer.isSuperPeer
  · rw [if_pos hs, if_pos hs]
    exact works_splitJobs _ _ (works_share _ _) s
  · rw [if_neg hs, if_neg hs]
    exact .cons (.nil _)

theorem works_serveRemote {r : Request} {message : MessageId} {parent : RequestId}
    {viaReplica : Bool} (ho : r.origin = .peer message parent viaReplica) (s : Node × ω) :
    Works router [.serve r] s
      (serveRemote router ⟨r.operation, r.parent, r.isLocal⟩ r.payload viaReplica s) := by
  refine Works.of_perform ?_
  simp only [perform, ho]
  rw [serveRemote]
  by_cases hv : viaReplica
  · rw [if_pos hv, if_pos hv]
    exact .cons (.cons (.nil _))
  · rw [if_neg hv, if_neg hv]
    exact works_splitJobs _ _ (works_applyShared _ _) s

theorem works_serve (r : Request) (s : Node × ω) :
    Works router [.serve r] s (serve router s r) := by
  rw [serve]
  cases ho : r.origin with
  | here =>
    by_cases hne : r.payload = .entries []
    · simp only [if_pos hne]
      refine Works.of_perform ?_
      simp only [perform, ho, if_pos hne]
      exact .nil s
    · simp only [if_neg hne]
      exact works_serveLocal ho hne s
  | peer message parent viaReplica => exact works_serveRemote ho s

theorem works_serves (rs : List Request) (s : Node × ω) :
    Works router (rs.map .serve) s (rs.foldl (serve router) s) := by
  induction rs generalizing s with
  | nil => exact .nil s
  | cons r rs ih => exact (works_serve r s).append (ih _)

theorem works_resend (o : Operation) (s : Node × ω) :
    Works router [.resend o] s (retryOperation router s o) := by
  refine Works.of_perform ?_
  simp only [perform, retryOperation]
  rcases s.1.tryAsk (·.takeOutbound o) with ⟨_ | file?, n⟩
  · exact .nil _
  · cases file? with
    | none => exact .nil _
    | some file => exact works_serve _ _

theorem works_resends (os : List Operation) (s : Node × ω) :
    Works router (os.map .resend) s (os.foldl (retryOperation router) s) := by
  induction os generalizing s with
  | nil => exact .nil s
  | cons o os ih => exact (works_resend o s).append (ih _)

theorem works_retry (s : Node × ω) : Works router [.retry] s (retry router s) := by
  refine Works.of_perform ?_
  simp only [perform, retry]
  rcases s.1.retryDue with ⟨_ | _, n⟩
  · exact .nil _
  · exact works_resends _ _

/-- A cycle works off the requests that wait, then retries and merges. -/
theorem works_cycle (s : Node × ω) :
    Works router (s.1.queues.inOrder.map .serve ++ [.retry, .merge])
      ({ s.1 with queues := .empty }, s.2) (cycle router s) := by
  refine (works_serves s.1.queues.inOrder _).append ?_
  exact (works_retry _).append (.cons (.nil _))

/-- What every job keeps holds after the cycle. -/
theorem cycle_induction {I : List Job → Node × ω → Prop}
    (hstep : ∀ j js s, I (j :: js) s → I ((perform router j s).1 ++ js) (perform router j s).2)
    (h : I (s.1.queues.inOrder.map .serve ++ [.retry, .merge])
      ({ s.1 with queues := .empty }, s.2)) : I [] (cycle router s) :=
  (works_cycle s).invariant hstep h

end Node

end TrieOverlay
