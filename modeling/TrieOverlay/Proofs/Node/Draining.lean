import TrieOverlay.Proofs.Node.Opening
import TrieOverlay.Proofs.Node.Runs
import TrieOverlay.Proofs.Store

/-!
# Several requests in one cycle

What a cycle makes of the store depends only on the delivered requests that it serves.  Updates and
deletions change the store when they are served, inserted entries wait in the inbound list and are
merged when all requests are served.  So the requests of one cycle act like requests of one cycle
each, of which those to update and to delete came first (`Node.drain_eq_reordered`).  In particular
a deletion that waits behind the insertion of an entry does not delete it
(`Node.drain_ne_oneByOne`).
-/

namespace TrieOverlay

/-- What the requests of a cycle change: the rows of the store, and the delivered entries that are
not merged yet. -/
structure Stock where
  /-- The rows of the store. -/
  rows : Store.Rows
  /-- The delivered entries. -/
  inbound : List Entry

namespace Stock

variable {keys : KeyScheme} {path : Key} {s : Stock}

/-- Owned entries are applied. -/
def apply (keys : KeyScheme) (path : Key) (s : Stock) : Operation → List Entry → Stock
  | .insert, es => { s with inbound := s.inbound ++ es.filter fun e => Bulk.Line.isEncodable e }
  | .update, es =>
    let staying := es.filter fun e => path.owns (Holdings.rekey keys e).key
    let leaving := es.filter fun e => !path.owns (Holdings.rekey keys e).key
    { s with
      rows := (((staying.map (Holdings.rekey keys)).foldl .upsert s.rows).deleteAll
        (leaving.map (·.id))).2 }
  | .delete, es => { s with rows := (s.rows.deleteAll (es.map (·.id))).2 }

/-- The delivered entries are merged. -/
def merge (s : Stock) : Stock :=
  ⟨s.inbound.foldl .upsert s.rows, []⟩

@[simp] theorem apply_nil (o : Operation) : s.apply keys path o [] = s := by
  cases o <;> simp [apply, Store.Rows.deleteAll]

theorem merge_of_inbound_nil (h : s.inbound = []) : s.merge = s := by
  obtain ⟨rows, inbound⟩ := s
  subst h
  rfl

end Stock

/-- What the requests of a cycle change. -/
def View.stock (w : View) : Stock :=
  ⟨w.rows, w.list .inbound⟩

theorem View.rows_stock (w : View) : w.stock.rows = w.rows := rfl

theorem View.stock_apply (w : View) (path : Key) (o : Operation) (es : List Entry) :
    (w.apply path o es).stock = w.stock.apply w.keys path o es := by
  cases o with
  | insert => simp [View.apply, View.append, View.stock, Stock.apply, View.list_setList]; rfl
  | delete => rfl
  | update =>
    simp only [View.apply]
    split <;> rfl

/-- The entries that serving a request applies. -/
def Errand.applies (path : Key) (r : Errand) : List Entry :=
  match r.origin with
  | .here => []
  | .peer _ _ false => ownedBy path r.kept
  | .peer _ _ true => r.entries

/-- What a chore does to the stock in the end. -/
def Chore.stock (keys : KeyScheme) (path : Key) (s : Stock) : Chore → Stock
  | .serve r => s.apply keys path r.operation (r.applies path)
  | .apply o path es => s.apply keys path o es
  | .merge => s.merge
  | .send _ _ | .idle | .retry | .resend _ => s

/-- The stock as it will be when some chores are done. -/
structure Stocked (keys : KeyScheme) (path : Key) (final : Stock) (cs : List Chore) (w : View) :
    Prop where
  keys_eq : w.keys = keys
  path_eq : w.peer.path = path
  final_eq : cs.foldl (Chore.stock keys path) w.stock = final
  queued : ∀ r ∈ w.queued, r.origin = .here

/-- Whether a call reports an outcome or lets time pass. -/
def Call.IsReport : Call → Prop
  | submit _ => False
  | report _ _ _ | wait _ => True

section Stocked

variable {keys : KeyScheme} {path : Key} {final s : Stock} {c : Chore} {cs cs' : List Chore}
  {w w' : View}

/-- Serving a request that was raised here does nothing to the stock. -/
theorem Chore.stock_serve_of_here {r : Errand} (hr : r.origin = .here) (s : Stock) :
    Chore.stock keys path s (.serve r) = s := by
  rw [Chore.stock, Errand.applies, hr]
  exact Stock.apply_nil _

theorem foldl_stock_sends (o : Operation) (parts : List (List Entry)) :
    (parts.map (Chore.send o)).foldl (Chore.stock keys path) s = s := by
  induction parts with
  | nil => rfl
  | cons part parts ih => exact ih

/-- Every chore, with what comes of it, does to the stock what was expected of it. -/
theorem View.Does.stock (hd : w.Does c cs' w') (hkeys : w.keys = keys)
    (hpath : w.peer.path = path) :
    cs'.foldl (Chore.stock keys path) w'.stock = Chore.stock keys path w.stock c := by
  subst hkeys hpath
  cases hd with
  | nothing hhere _ => exact (Chore.stock_serve_of_here hhere _).symm
  | root hhere _ => exact (Chore.stock_serve_of_here hhere _).symm
  | split hhere _ _ hrest =>
    rw [List.foldl_append, foldl_stock_sends, Chore.stock_serve_of_here hhere]
    rcases hrest with rfl | rfl <;> rfl
  | splitOther hother _ hrest =>
    rw [List.foldl_append, foldl_stock_sends, Chore.stock, Errand.applies, hother]
    rcases hrest with ⟨rfl, hnil⟩ | rfl
    · simp only [hnil]
      exact (Stock.apply_nil _).symm
    · rfl
  | replica hother =>
    rw [Chore.stock, Errand.applies, hother]
    rfl
  | apply => exact View.stock_apply ..
  | idle => rfl
  | wait => rfl
  | retry => rfl
  | resendNothing _ => rfl
  | resend _ => exact Stock.apply_nil _
  | merge => rfl

/-- Requests that come up in a cycle are raised here. -/
theorem View.Does.queued_here (hd : w.Does c cs' w') (h : ∀ r ∈ w.queued, r.origin = .here) :
    ∀ r ∈ w'.queued, r.origin = .here := by
  rcases hd.queued_cases with hsame | ⟨es, hmore⟩
  · rwa [hsame]
  · rw [hmore]
    exact Multiset.forall_mem_cons.2 ⟨rfl, h⟩

theorem Stocked.keeps (keys : KeyScheme) (path : Key) (final : Stock) :
    Keeps Call.IsReport fun cs w _ => Stocked keys path final cs w where
  encodable c hc := by
    cases c with
    | submit r => exact hc.elim
    | report _ _ _ => trivial
    | wait _ => trivial
  does c cs cs' v v' log hd h := by
    have hstock := hd.stock h.keys_eq h.path_eq
    refine ⟨hd.keys_eq.trans h.keys_eq, hd.peer_eq ▸ h.path_eq, ?_, hd.queued_here h.queued⟩
    rw [List.foldl_append, hstock]
    exact h.final_eq
  send m cs v log h := ⟨h.keys_eq, h.path_eq, h.final_eq, h.queued⟩
  take c cs v v' log hc ht h := by
    cases ht with
    | submit _ => exact hc.elim
    | wait => exact h
    | unknown _ => exact h
    | @settle m rest delivered w _ _ =>
      cases delivered with
      | true => exact ⟨h.keys_eq, h.path_eq, h.final_eq, h.queued⟩
      | false => exact ⟨h.keys_eq, h.path_eq, h.final_eq, h.queued⟩

end Stocked

/-! ### Requests and cycles -/

namespace Submission

/-- The entries of a submission in memory. -/
def batch (r : Submission) : List Entry :=
  r.draft.entries.getD []

/-- A request that another peer delivered in memory, all of whose entries a path owns. -/
structure IsOwned (path : Key) (r : Submission) : Prop where
  delivered : r.remote ≠ none
  inMemory : r.inFile = false
  owned : ∀ e ∈ r.batch, path.owns e.key = true

/-- Whether a submission asks to insert. -/
def inserts (r : Submission) : Bool :=
  r.operation == .insert

end Submission

namespace Stock

variable {keys : KeyScheme} {path : Key}

/-- The stock after a request. -/
def serve (keys : KeyScheme) (path : Key) (s : Stock) (r : Submission) : Stock :=
  s.apply keys path r.operation r.batch

/-- The rows after a request. -/
def change (keys : KeyScheme) (path : Key) (rows : Store.Rows) (r : Submission) : Store.Rows :=
  (serve keys path ⟨rows, []⟩ r).rows

/-- The entries that a request delivers. -/
def arrivals (r : Submission) : List Entry :=
  r.batch.filter fun e => Bulk.Line.isEncodable e

theorem serve_of_inserts {r : Submission} (hr : r.inserts = true) (s : Stock) :
    serve keys path s r = ⟨s.rows, s.inbound ++ arrivals r⟩ := by
  rw [serve, beq_iff_eq.1 hr]
  rfl

theorem serve_of_not_inserts {r : Submission} (hr : r.inserts = false) (s : Stock) :
    serve keys path s r = ⟨change keys path s.rows r, s.inbound⟩ := by
  rw [change, serve, serve]
  cases ho : r.operation with
  | insert => simp [Submission.inserts, ho] at hr
  | delete => rfl
  | update => rfl

/-- Requests that do not insert leave the delivered entries alone, and those that insert leave the
rows alone. -/
theorem foldl_serve (rs : List Submission) (s : Stock) :
    rs.foldl (serve keys path) s =
      ⟨(rs.filter (!·.inserts)).foldl (change keys path) s.rows,
        s.inbound ++ (rs.filter (·.inserts)).flatMap arrivals⟩ := by
  induction rs generalizing s with
  | nil => simp
  | cons r rs ih =>
    rw [List.foldl_cons, ih]
    cases hr : r.inserts with
    | true => simp [serve_of_inserts hr, hr]
    | false => simp [serve_of_not_inserts hr, hr]

theorem foldl_merge_of_not_inserts {rs : List Submission} (hrs : ∀ r ∈ rs, r.inserts = false)
    (rows : Store.Rows) :
    rs.foldl (fun s r => (serve keys path s r).merge) ⟨rows, []⟩ =
      ⟨rs.foldl (change keys path) rows, []⟩ := by
  induction rs generalizing rows with
  | nil => rfl
  | cons r rs ih =>
    obtain ⟨hr, hrs⟩ := List.forall_mem_cons.1 hrs
    rw [List.foldl_cons, serve_of_not_inserts hr, merge_of_inbound_nil rfl, ih hrs]
    rfl

theorem foldl_merge_of_inserts {rs : List Submission} (hrs : ∀ r ∈ rs, r.inserts = true)
    (rows : Store.Rows) :
    rs.foldl (fun s r => (serve keys path s r).merge) ⟨rows, []⟩ =
      ⟨(rs.flatMap arrivals).foldl .upsert rows, []⟩ := by
  induction rs generalizing rows with
  | nil => rfl
  | cons r rs ih =>
    obtain ⟨hr, hrs⟩ := List.forall_mem_cons.1 hrs
    rw [List.foldl_cons, serve_of_inserts hr, List.nil_append, merge, ih hrs, List.flatMap_cons,
      List.foldl_append]

/-- **Reordering.**  Serving requests and merging at the end comes to the same as serving those that
do not insert, then those that do, with a merge after each. -/
theorem merge_foldl_serve {s : Stock} (hs : s.inbound = []) (rs : List Submission) :
    (rs.foldl (serve keys path) s).merge =
      (rs.filter (!·.inserts) ++ rs.filter (·.inserts)).foldl
        (fun s r => (serve keys path s r).merge) s := by
  obtain ⟨rows, inbound⟩ := s
  subst hs
  have hnot : ∀ r ∈ rs.filter (!·.inserts), r.inserts = false := by simp
  have hinserts : ∀ r ∈ rs.filter (·.inserts), r.inserts = true := by simp
  rw [foldl_serve, List.foldl_append, foldl_merge_of_not_inserts hnot,
    foldl_merge_of_inserts hinserts]
  rfl

end Stock

/-! ### Runs -/

namespace Node

variable {ω : Type} {plan : Plan ω} {n : Node} {s : Node × List Note × ω} {rs : List Submission}
  {r : Submission} {path : Key}

/-- The requests that wait, in the order in which they are served. -/
def errands (n : Node) : List Errand :=
  n.queues.inOrder.map n.errand

/-- A cycle serves the requests that wait, then merges. -/
theorem stock_cycle (h : s.1.Sound []) (hplan : plan.Makes Call.IsReport) :
    (plan.step s .cycle).1.view.stock =
        ((s.1.errands.map .serve).foldl (Chore.stock s.1.keys s.1.peer.path)
          s.1.view.stock).merge ∧
      (plan.step s .cycle).1.keys = s.1.keys ∧
      (plan.step s .cycle).1.peer.path = s.1.peer.path ∧
      ∀ r ∈ (plan.step s .cycle).1.errands, r.origin = .here := by
  obtain ⟨n, log, w⟩ := s
  -- the stock in the end is known from the start; every chore keeps it
  let final := ((n.errands.map .serve).foldl (Chore.stock n.keys n.peer.path)
    n.view.stock).merge
  have hstart : Stocked n.keys n.peer.path final (n.errands.map .serve ++ [.retry, .merge])
      { n.view with queued := 0 } := by
    refine ⟨rfl, rfl, ?_, by simp⟩
    rw [List.foldl_append]
    rfl
  have hmeets : Meets (Keeps.beside fun cs w _ => Stocked n.keys n.peer.path final cs w) []
      (plan.step (n, log, w) .cycle) :=
    (Stocked.keeps n.keys n.peer.path final).cycle hplan h hstart w
  have hdone := hmeets.holds
  exact ⟨hdone.final_eq, hdone.keys_eq, hdone.path_eq, fun r hr => hdone.queued r hr⟩

/-- The stock as it will be when the requests that wait are served. -/
def expected (n : Node) : Stock :=
  (n.errands.map .serve).foldl (Chore.stock n.keys n.peer.path) n.view.stock

/-- No request of a peer waits in the last of the queues. -/
def Calm (n : Node) : Prop :=
  ∀ q ∈ n.queues.remoteFiles, q.origin = .here

theorem foldl_stock_of_here {keys : KeyScheme} {es : List Errand}
    (hes : ∀ r ∈ es, r.origin = .here) (s : Stock) :
    (es.map .serve).foldl (Chore.stock keys path) s = s := by
  induction es generalizing s with
  | nil => rfl
  | cons r es ih =>
    obtain ⟨hr, hes⟩ := List.forall_mem_cons.1 hes
    rw [List.map_cons, List.foldl_cons, Chore.stock_serve_of_here hr, ih hes]

/-- A request that is submitted in memory waits at the end of its queue. -/
theorem take_submit {parent : RequestId} {viaReplica : Bool} (hr : r.inFile = false)
    (hremote : r.remote = some (parent, viaReplica)) :
    n.take (.submit r) =
      { n with
        queues := n.queues.push ⟨.ofSerial (n.serial + 1), r.operation, .entries r.batch,
          .peer (.ofSerial n.serial) parent viaReplica⟩
        serial := n.serial + 2 } := by
  obtain ⟨operation, draft, inFile, remote⟩ := r
  subst hr hremote
  rfl

/-- What is expected after a request is submitted. -/
theorem expected_submit (hn : n.Calm) (hr : r.IsOwned n.peer.path) :
    (n.take (.submit r)).expected = n.expected.serve n.keys n.peer.path r ∧
      (n.take (.submit r)).Calm ∧ (n.take (.submit r)).keys = n.keys ∧
      (n.take (.submit r)).peer = n.peer := by
  obtain ⟨⟨parent, viaReplica⟩, hremote⟩ := Option.ne_none_iff_exists'.1 hr.delivered
  rw [take_submit hr.inMemory hremote]
  refine ⟨?_, hn, rfl, rfl⟩
  let q : Request := ⟨.ofSerial (n.serial + 1), r.operation, .entries r.batch,
    .peer (.ofSerial n.serial) parent viaReplica⟩
  have happlies : (n.errand q).applies n.peer.path = r.batch := by
    cases viaReplica with
    | true => rfl
    | false => exact List.filter_eq_self.2 hr.owned
  -- the request is the last of its queue, and what waits in the queue behind that one was raised
  -- here and does nothing to the stock
  have hfiles : ∀ e ∈ n.queues.remoteFiles.map n.errand, e.origin = .here := by
    intro e he
    obtain ⟨q', hq', rfl⟩ := List.mem_map.1 he
    exact hn q' hq'
  have hbefore : n.errands = (n.queues.localEntries ++ n.queues.localFiles ++
      n.queues.remoteEntries).map n.errand ++ n.queues.remoteFiles.map n.errand := by
    rw [errands, Queues.inOrder, List.map_append]
  have hafter : (n.queues.push q).inOrder.map n.errand = (n.queues.localEntries ++
      n.queues.localFiles ++ n.queues.remoteEntries).map n.errand ++
        (n.errand q :: n.queues.remoteFiles.map n.errand) := by
    simp [Queues.push, Queues.inOrder, q]
  have hexpected : n.expected =
      (((n.queues.localEntries ++ n.queues.localFiles ++ n.queues.remoteEntries).map
        n.errand).map .serve).foldl (Chore.stock n.keys n.peer.path) n.view.stock := by
    rw [expected, hbefore, List.map_append, List.foldl_append, foldl_stock_of_here hfiles]
  change (((n.queues.push q).inOrder.map n.errand).map Chore.serve).foldl _ _ = _
  rw [hafter, List.map_append, List.map_cons, List.foldl_append, List.foldl_cons,
    foldl_stock_of_here hfiles, hexpected, Stock.serve, Chore.stock, happlies]
  rfl

/-- Nothing more is expected of a node in which only requests raised here wait. -/
theorem expected_of_here (h : ∀ r ∈ n.errands, r.origin = .here) :
    n.expected = n.view.stock ∧ n.Calm := by
  refine ⟨foldl_stock_of_here h _, fun q hq => ?_⟩
  exact h _ (List.mem_map_of_mem (List.mem_append_right _ hq))

/-- What a node keeps while requests come in: its files are sound, and it stays at its path. -/
structure Stays (n : Node) (s : Node × List Note × ω) : Prop where
  sound : s.1.Sound []
  keys : s.1.keys = n.keys
  path : s.1.peer.path = n.peer.path
  calm : s.1.Calm

theorem Stays.submit (plan : Plan ω) (h : n.Stays s) (hr : r.IsOwned n.peer.path) :
    n.Stays (plan.step s (.call (.submit r))) ∧
      (plan.step s (.call (.submit r))).1.expected =
        s.1.expected.serve n.keys n.peer.path r := by
  have hr' : r.IsOwned s.1.peer.path := h.path ▸ hr
  obtain ⟨hexpected, hcalm, hkeys, hpeer⟩ := expected_submit h.calm hr'
  have hentries : r.entries? = some r.batch := by
    rw [Submission.entries?, hr.inMemory]
    rfl
  obtain ⟨b, n', message, hrun, hy⟩ := h.sound.submitTo hentries
  refine ⟨⟨?_, hkeys.trans h.keys, (congrArg _ hpeer).trans h.path, hcalm⟩, ?_⟩
  · change (Command.submitTo r s.1).2.Sound []
    rw [hrun]
    exact hy.sound
  · exact hexpected.trans (by rw [h.keys, h.path])

theorem Stays.cycle (h : n.Stays s) (hplan : plan.Makes Call.IsReport) :
    n.Stays (plan.step s .cycle) ∧
      (plan.step s .cycle).1.expected = s.1.expected.merge ∧
      (plan.step s .cycle).1.view.stock = s.1.expected.merge := by
  obtain ⟨hstock, hkeys, hpath, hhere⟩ := stock_cycle h.sound hplan
  obtain ⟨hexpected, hcalm⟩ := expected_of_here hhere
  have hencodable : plan.Encodable := fun d n w c hc =>
    (Stocked.keeps n.keys n.peer.path n.view.stock).encodable c (hplan d n w c hc)
  exact ⟨⟨Plan.sound_step hencodable h.sound trivial, hkeys.trans h.keys, hpath.trans h.path,
    hcalm⟩, hexpected.trans hstock, hstock⟩

/-- Requests that are submitted add up. -/
theorem Stays.submits (plan : Plan ω) (h : n.Stays s) (hrs : ∀ r ∈ rs, r.IsOwned n.peer.path) :
    n.Stays (plan.run (rs.map fun r => .call (.submit r)) s) ∧
      (plan.run (rs.map fun r => .call (.submit r)) s).1.expected =
        rs.foldl (Stock.serve n.keys n.peer.path) s.1.expected := by
  induction rs generalizing s with
  | nil => exact ⟨h, rfl⟩
  | cons r rs ih =>
    obtain ⟨hr, hrs⟩ := List.forall_mem_cons.1 hrs
    obtain ⟨hstays, hexpected⟩ := h.submit plan hr
    have hrest := ih hstays hrs
    rw [hexpected] at hrest
    exact hrest

/-- Several requests are submitted, then a cycle runs. -/
def drain (rs : List Submission) : List Step :=
  (rs.map fun r => .call (.submit r)) ++ [.cycle]

/-- Every request gets a cycle of its own. -/
def oneByOne (rs : List Submission) : List Step :=
  rs.flatMap fun r => [.call (.submit r), .cycle]

theorem Stays.drain (h : n.Stays s) (hplan : plan.Makes Call.IsReport)
    (hrs : ∀ r ∈ rs, r.IsOwned n.peer.path) :
    (plan.run (drain rs) s).1.view.stock =
      (rs.foldl (Stock.serve n.keys n.peer.path) s.1.expected).merge := by
  obtain ⟨hstays, hexpected⟩ := h.submits plan hrs
  rw [Node.drain, Plan.run, List.foldl_append]
  exact (hstays.cycle hplan).2.2.trans (congrArg _ hexpected)

theorem Stays.oneByOne (h : n.Stays s) (hs : s.1.view.stock = s.1.expected)
    (hplan : plan.Makes Call.IsReport) (hrs : ∀ r ∈ rs, r.IsOwned n.peer.path) :
    (plan.run (oneByOne rs) s).1.view.stock =
      rs.foldl (fun s r => (s.serve n.keys n.peer.path r).merge) s.1.expected := by
  induction rs generalizing s with
  | nil => exact hs
  | cons r rs ih =>
    obtain ⟨hr, hrs⟩ := List.forall_mem_cons.1 hrs
    obtain ⟨hstays, hexpected⟩ := h.submit plan hr
    obtain ⟨hstays', hexpected', hstock⟩ := hstays.cycle hplan
    have hrest := ih hstays' (hstock.trans hexpected'.symm) hrs
    rw [hexpected', hexpected] at hrest
    exact hrest

/-- A node in which nothing waits. -/
theorem stays_of_idle (hn : n.Sound []) (hqueues : n.queues.inOrder = []) (w : ω) :
    n.Stays (n, [], w) ∧ n.view.stock = n.expected := by
  have hhere : ∀ r ∈ n.errands, r.origin = .here := by simp [errands, hqueues]
  obtain ⟨hexpected, hcalm⟩ := expected_of_here hhere
  exact ⟨⟨hn, rfl, rfl, hcalm⟩, hexpected.symm⟩

variable {ω' : Type} {plan' : Plan ω'}

/-- **Several requests in one cycle.**  Owned requests that are served in one cycle leave the store
that they leave in one cycle each, if those to update and to delete are submitted first and those to
insert after them. -/
theorem drain_eq_reordered (hn : n.Sound []) (hqueues : n.queues.inOrder = [])
    (hinbound : n.view.list .inbound = []) (hrs : ∀ r ∈ rs, r.IsOwned n.peer.path)
    (hplan : plan.Makes Call.IsReport) (hplan' : plan'.Makes Call.IsReport) (w : ω) (w' : ω') :
    (plan.run (drain rs) (n, [], w)).1.view.rows =
      (plan'.run (oneByOne (rs.filter (!·.inserts) ++ rs.filter (·.inserts)))
        (n, [], w')).1.view.rows := by
  obtain ⟨hstays, hexpected⟩ := stays_of_idle hn hqueues w
  obtain ⟨hstays', -⟩ := stays_of_idle hn hqueues w'
  have hreordered : ∀ r ∈ rs.filter (!·.inserts) ++ rs.filter (·.inserts),
      r.IsOwned n.peer.path := by
    intro r hr
    rcases List.mem_append.1 hr with hr | hr
    · exact hrs r (List.mem_filter.1 hr).1
    · exact hrs r (List.mem_filter.1 hr).1
  have hnil : n.expected.inbound = [] := hexpected ▸ hinbound
  have hdrain := hstays.drain hplan hrs
  have hone := hstays'.oneByOne hexpected hplan' hreordered
  rw [Stock.merge_foldl_serve hnil] at hdrain
  exact congrArg Stock.rows (hdrain.trans hone.symm)

/-- A deletion that waits behind the insertion of an entry comes first. -/
theorem drain_insert_delete :
    let quiet : Plan Unit := fun _ _ w => ([], w)
    let batch : Bulk.Draft := ⟨some [Sample.entry "a" ⟨[true]⟩], none, none⟩
    let insert : Submission := ⟨.insert, batch, false, some (⟨"parent"⟩, false)⟩
    let delete : Submission := ⟨.delete, batch, false, some (⟨"parent"⟩, true)⟩
    ∃ n, Node.openAt (Sample.peer ⟨[true]⟩) (.ofBits 8) 0 .root .empty = .ok n ∧
      (quiet.run (drain [insert, delete]) (n, [], ())).1.view.rows =
        (quiet.run (oneByOne [delete, insert]) (n, [], ())).1.view.rows := by
  intro quiet batch insert delete
  obtain ⟨n, hopen, hsound, hidle, hpeer, -⟩ := openAt_sound rfl Volume.vacant_empty
    (Sample.peer ⟨[true]⟩) (.ofBits 8) 0
  have hqueues := inOrder_eq_nil hidle.queued
  have hrs : ∀ r ∈ [insert, delete], r.IsOwned n.peer.path := by
    rw [hpeer, List.forall_mem_cons, List.forall_mem_singleton]
    exact ⟨⟨by decide, rfl, by decide⟩, ⟨by decide, rfl, by decide⟩⟩
  have hquiet : quiet.Makes Call.IsReport := fun d n w c hc => absurd hc List.not_mem_nil
  exact ⟨n, hopen, drain_eq_reordered hsound hqueues (hidle.list .inbound) hrs hquiet hquiet () ()⟩

/-- In one cycle the entry of an insertion stays although a deletion waits behind it; with a cycle
for each of the two it goes. -/
theorem drain_ne_oneByOne :
    let quiet : Plan Unit := fun _ _ w => ([], w)
    let e := Sample.entry "a" ⟨[true]⟩
    let insert : Submission := ⟨.insert, ⟨some [e], none, none⟩, false, some (⟨"parent"⟩, false)⟩
    let delete : Submission := ⟨.delete, ⟨some [e], none, none⟩, false, some (⟨"parent"⟩, false)⟩
    ∃ n, Node.openAt (Sample.peer ⟨[true]⟩) (.ofBits 8) 0 .root .empty = .ok n ∧
      (quiet.run (drain [insert, delete]) (n, [], ())).1.view.rows.keyAt? e.id = some e.key ∧
      (quiet.run (oneByOne [insert, delete]) (n, [], ())).1.view.rows.keyAt? e.id = none := by
  intro quiet e insert delete
  obtain ⟨n, hopen, hsound, hidle, hpeer, -⟩ := openAt_sound rfl Volume.vacant_empty
    (Sample.peer ⟨[true]⟩) (.ofBits 8) 0
  have hqueues := inOrder_eq_nil hidle.queued
  have hrs : ∀ r ∈ [insert, delete], r.IsOwned n.peer.path := by
    rw [hpeer, List.forall_mem_cons, List.forall_mem_singleton]
    exact ⟨⟨by decide, rfl, by decide⟩, ⟨by decide, rfl, by decide⟩⟩
  have hquiet : quiet.Makes Call.IsReport := fun d n w c hc => absurd hc List.not_mem_nil
  obtain ⟨hstays, hexpected⟩ := stays_of_idle hsound hqueues ()
  have hdrain := hstays.drain hquiet hrs
  have hone := hstays.oneByOne hexpected hquiet hrs
  have hempty : n.expected = ⟨n.view.rows, []⟩ := by
    rw [← hexpected, View.stock, hidle.list]
  have hinsert : ∀ s, Stock.serve n.keys n.peer.path s insert = ⟨s.rows, s.inbound ++ [e]⟩ := by
    intro s
    rw [Stock.serve_of_inserts rfl, show Stock.arrivals insert = [e] by decide]
  have hdelete : ∀ s, Stock.serve n.keys n.peer.path s delete =
      ⟨(s.rows.deleteAll [e.id]).2, s.inbound⟩ := fun _ => rfl
  refine ⟨n, hopen, ?_, ?_⟩
  · rw [← View.rows_stock, hdrain, hempty, List.foldl_cons, hinsert, List.foldl_cons, hdelete,
      List.foldl_nil, Stock.merge, List.nil_append, List.foldl_cons, List.foldl_nil,
      Store.Rows.keyAt?_upsert, if_pos rfl]
  · rw [← View.rows_stock, hone, hempty, List.foldl_cons, hinsert, List.foldl_cons, hdelete,
      List.foldl_nil, Stock.merge, Stock.merge, List.foldl_nil, Store.Rows.keyAt?_deleteAll,
      if_pos (List.mem_singleton_self e.id)]

end Node

end TrieOverlay
