import TrieOverlay.Proofs.Node.Draining
import TrieOverlay.Proofs.Node.Frame
import TrieOverlay.Proofs.Store.Edits

/-!
# Requests without a common entry

Requests of other peers for owned entries may come in any order, and in any number of cycles, if no
identifier is in two of them: the store has the same entries in the end, up to the addresses of the
peers (`Node.requests_commute`).

What a request asks for is a list of edits of the store (`Submission.edits`).  Entries that are to
be inserted wait in the inbound list and get into the store after requests that came later, but such
requests are about other identifiers.  So at any moment the rows as they will be after the next
merge agree on every identifier with the rows that the requests so far would make one after the
other (`Stock.Reflects`).  Cycles do not change these rows, and two runs differ in the order of the
requests only.
-/

namespace TrieOverlay

open Store.Rows (AgreeOn)

/-! ### What a request asks for -/

namespace Submission

variable {keys : KeyScheme} {path : Key} {r : Submission} {x : Edit}

/-- The edits that a request of owned entries asks for.  An update drops the entries whose new keys
the path does not own. -/
def edits (keys : KeyScheme) (path : Key) (r : Submission) : List Edit :=
  match r.operation with
  | .insert => (Stock.arrivals r).map .put
  | .update =>
    let staying := r.batch.filter fun e => path.owns (Holdings.rekey keys e).key
    let leaving := r.batch.filter fun e => !path.owns (Holdings.rekey keys e).key
    (staying.map (Holdings.rekey keys)).map .put ++ (leaving.map (·.id)).map .drop
  | .delete => (r.batch.map (·.id)).map .drop

/-- No identifier is in both of two requests. -/
def Apart (r r' : Submission) : Prop :=
  ∀ e ∈ r.batch, ∀ e' ∈ r'.batch, e.id ≠ e'.id

theorem Apart.symm {r r' : Submission} (h : r.Apart r') : r'.Apart r :=
  fun e he e' he' => (h e' he' e he).symm

/-- A request edits the identifiers of its entries. -/
theorem exists_of_mem_edits (hx : x ∈ r.edits keys path) : ∃ e ∈ r.batch, e.id = x.id := by
  rw [edits] at hx
  cases ho : r.operation with
  | insert =>
    rw [ho] at hx
    obtain ⟨e, he, rfl⟩ := List.mem_map.1 hx
    exact ⟨e, (List.mem_filter.1 he).1, rfl⟩
  | update =>
    rw [ho] at hx
    rcases List.mem_append.1 hx with hx | hx
    · rw [List.map_map] at hx
      obtain ⟨e, he, rfl⟩ := List.mem_map.1 hx
      exact ⟨e, (List.mem_filter.1 he).1, rfl⟩
    · rw [List.map_map] at hx
      obtain ⟨e, he, rfl⟩ := List.mem_map.1 hx
      exact ⟨e, (List.mem_filter.1 he).1, rfl⟩
  | delete =>
    rw [ho, List.map_map] at hx
    obtain ⟨e, he, rfl⟩ := List.mem_map.1 hx
    exact ⟨e, he, rfl⟩

theorem Apart.edits {r r' : Submission} (h : r.Apart r') :
    Edit.Apart (r.edits keys path) (r'.edits keys path) := by
  intro x hx y hy
  obtain ⟨e, he, hex⟩ := exists_of_mem_edits hx
  obtain ⟨e', he', hey⟩ := exists_of_mem_edits hy
  rw [← hex, ← hey]
  exact h e he e' he'

/-- What requests ask for does not depend on their order. -/
theorem agree_edits_of_perm {rs rs' : List Submission} (hperm : rs.Perm rs')
    (hapart : rs.Pairwise Apart) (keys : KeyScheme) (path : Key) (rows : Store.Rows)
    (id : EntryId) :
    AgreeOn id (rows.edits (rs.flatMap (edits keys path)))
      (rows.edits (rs'.flatMap (edits keys path))) := by
  have hapart' : (rs.map (edits keys path)).Pairwise Edit.Apart :=
    hapart.map _ fun _ _ h => h.edits
  exact Store.Rows.agree_of_perm (hperm.map _) hapart' id rows

end Submission

/-! ### The stock and the requests so far -/

namespace Stock

variable {keys : KeyScheme} {path : Key} {s : Stock} {r : Submission} {rs : List Submission}
  {rows : Store.Rows}

theorem rows_merge (s : Stock) : s.merge.rows = s.rows.edits (s.inbound.map .put) :=
  (Store.Rows.edits_put ..).symm

theorem merge_merge (s : Stock) : s.merge.merge = s.merge :=
  merge_of_inbound_nil rfl

theorem change_eq_edits (hr : r.inserts = false) (rows : Store.Rows) :
    change keys path rows r = rows.edits (r.edits keys path) := by
  rw [change, serve, Submission.edits]
  cases ho : r.operation with
  | insert => simp [Submission.inserts, ho] at hr
  | update =>
    dsimp only [apply]
    rw [Store.Rows.edits_append, Store.Rows.edits_put, Store.Rows.edits_drop]
  | delete => exact (Store.Rows.edits_drop ..).symm

/-- A request makes the edits that it asks for, before or after the merge. -/
theorem agree_merge_serve (hs : ∀ e ∈ s.inbound, ∀ e' ∈ r.batch, e.id ≠ e'.id) (id : EntryId) :
    AgreeOn id (s.serve keys path r).merge.rows (s.merge.rows.edits (r.edits keys path)) := by
  cases hr : r.inserts with
  | true =>
    -- the new entries are merged behind those that wait
    have hedits : r.edits keys path = (arrivals r).map .put := by
      rw [Submission.edits, beq_iff_eq.1 hr]
    rw [serve_of_inserts hr, hedits, rows_merge, rows_merge, List.map_append,
      Store.Rows.edits_append]
  | false =>
    -- the entries that wait are merged behind the edits, which are about other identifiers
    have hapart : Edit.Apart (r.edits keys path) (s.inbound.map .put) := by
      intro x hx y hy
      obtain ⟨e', he', hid⟩ := Submission.exists_of_mem_edits hx
      obtain ⟨e, he, rfl⟩ := List.mem_map.1 hy
      rw [← hid]
      exact (hs e he e' he').symm
    rw [serve_of_not_inserts hr, change_eq_edits hr, rows_merge, rows_merge]
    exact Store.Rows.agree_edits_swap hapart id

/-- What there is comes of some rows by some requests. -/
structure Reflects (keys : KeyScheme) (path : Key) (rows : Store.Rows) (rs : List Submission)
    (s : Stock) : Prop where
  agree : ∀ id, AgreeOn id s.merge.rows (rows.edits (rs.flatMap (Submission.edits keys path)))
  /-- What waits was brought by a request. -/
  inbound : ∀ e ∈ s.inbound, ∃ r ∈ rs, e ∈ r.batch
  /-- The store is one that a ledger can be kept of, if it was at the start. -/
  keeps : ∀ m, rows.Keeps m → ∃ m', s.rows.Keeps m'

theorem reflects_nil (hs : s.inbound = []) : Reflects keys path s.rows [] s where
  agree id := by
    rw [merge_of_inbound_nil hs]
    rfl
  inbound e he := absurd (hs ▸ he) List.not_mem_nil
  keeps m hm := ⟨m, hm⟩

theorem Reflects.merge (h : Reflects keys path rows rs s) :
    Reflects keys path rows rs s.merge where
  agree id := by
    rw [merge_merge]
    exact h.agree id
  inbound e he := absurd he List.not_mem_nil
  keeps m hm := by
    obtain ⟨m', hm'⟩ := h.keeps m hm
    exact ⟨_, hm'.upserts s.inbound⟩

theorem keeps_serve {m : Ledger} (hm : s.rows.Keeps m) (r : Submission) :
    ∃ m', (s.serve keys path r).rows.Keeps m' := by
  rw [serve]
  cases r.operation with
  | insert => exact ⟨m, hm⟩
  | update => exact ⟨_, ((hm.upserts _).deletes _).2⟩
  | delete => exact ⟨_, (hm.deletes _).2⟩

/-- A request that has no entry in common with those so far. -/
theorem Reflects.serve (h : Reflects keys path rows rs s) (hr : ∀ r' ∈ rs, r'.Apart r) :
    Reflects keys path rows (rs ++ [r]) (s.serve keys path r) where
  agree id := by
    have hs : ∀ e ∈ s.inbound, ∀ e' ∈ r.batch, e.id ≠ e'.id := by
      intro e he e' he'
      obtain ⟨r', hr', hbatch⟩ := h.inbound e he
      exact hr r' hr' e hbatch e' he'
    rw [List.flatMap_append, List.flatMap_singleton, Store.Rows.edits_append]
    exact (agree_merge_serve hs id).trans ((h.agree id).edits (r.edits keys path))
  inbound e he := by
    cases hins : r.inserts with
    | true =>
      rw [serve_of_inserts hins] at he
      rcases List.mem_append.1 he with he | he
      · obtain ⟨r', hr', hbatch⟩ := h.inbound e he
        exact ⟨r', List.mem_append_left _ hr', hbatch⟩
      · exact ⟨r, by simp, (List.mem_filter.1 he).1⟩
    | false =>
      rw [serve_of_not_inserts hins] at he
      obtain ⟨r', hr', hbatch⟩ := h.inbound e he
      exact ⟨r', List.mem_append_left _ hr', hbatch⟩
  keeps m hm := by
    obtain ⟨m', hm'⟩ := h.keeps m hm
    exact keeps_serve hm' r

end Stock

/-! ### Reports and time -/

namespace Call

variable {c : Call} {n : Node}

theorem IsReport.encodable (hc : c.IsReport) : c.Encodable := by
  cases c with
  | submit r => exact hc.elim
  | report sender id delivered => trivial
  | wait milliseconds => trivial

/-- What is reported and waited for does nothing to the stock. -/
theorem IsReport.stock_eq (hc : c.IsReport) {w w' : View} (ht : w.Takes c w') :
    w'.stock = w.stock := by
  cases ht with
  | submit _ => exact hc.elim
  | wait => rfl
  | unknown _ => rfl
  | @settle m rest delivered w _ _ => cases delivered <;> rfl

/-- What is reported and waited for does nothing to the requests that wait. -/
theorem IsReport.take (hc : c.IsReport) :
    (n.take c).queues = n.queues ∧ (n.take c).keys = n.keys ∧ (n.take c).peer = n.peer := by
  cases c with
  | submit r => exact hc.elim
  | report sender id delivered =>
    have hframe := Node.SameFrame.report n sender id delivered
    exact ⟨hframe.queues, hframe.keys, hframe.peer⟩
  | wait milliseconds => exact ⟨rfl, rfl, rfl⟩

end Call

namespace Step

/-- The requests that a step submits. -/
def submissions : Step → List Submission
  | call (.submit r) => [r]
  | call (.report _ _ _) | call (.wait _) | cycle | setPath _ | handOff => []

end Step

namespace Node

variable {ω : Type} {plan : Plan ω} {n n' : Node} {s : Node × List Note × ω}
  {rows : Store.Rows} {rs : List Submission} {r : Submission} {c : Call} {t : Step}
  {steps : List Step}

/-- The requests of other peers that wait have their entries in memory. -/
def InMemory (n : Node) : Prop :=
  ∀ q ∈ n.queues.inOrder, q.origin = .here ∨ ∃ batch, q.payload = .entries batch

/-- What requests in memory will do does not depend on any file. -/
theorem expected_congr (hn : n.InMemory) (hqueues : n'.queues = n.queues)
    (hkeys : n'.keys = n.keys) (hpeer : n'.peer = n.peer)
    (hstock : n'.view.stock = n.view.stock) : n'.expected = n.expected := by
  have hserve : ∀ s : Stock, ∀ q ∈ n.queues.inOrder,
      Chore.stock n.keys n.peer.path s (.serve (n'.errand q)) =
        Chore.stock n.keys n.peer.path s (.serve (n.errand q)) := by
    intro s q hq
    rcases hn q hq with hhere | ⟨batch, hbatch⟩
    · rw [Chore.stock_serve_of_here hhere, Chore.stock_serve_of_here hhere]
    · rw [errand, errand, hbatch]
      rfl
  rw [expected, expected, errands, errands, hqueues, hkeys, hpeer, hstock]
  simp only [List.foldl_map]
  exact List.foldl_ext _ _ _ hserve

/-- What a node keeps while requests in memory come in and messages are reported. -/
structure Steady (n : Node) (s : Node × List Note × ω) : Prop extends n.Stays s where
  inMemory : s.1.InMemory

theorem Steady.submit (plan : Plan ω) (h : n.Steady s) (hr : r.IsOwned n.peer.path) :
    n.Steady (plan.step s (.call (.submit r))) ∧
      (plan.step s (.call (.submit r))).1.expected = s.1.expected.serve n.keys n.peer.path r := by
  obtain ⟨hstays, hexpected⟩ := h.toStays.submit plan hr
  refine ⟨⟨hstays, ?_⟩, hexpected⟩
  obtain ⟨⟨parent, viaReplica⟩, hremote⟩ := Option.ne_none_iff_exists'.1 hr.delivered
  change (s.1.take (.submit r)).InMemory
  rw [take_submit hr.inMemory hremote]
  intro q hq
  rcases List.mem_cons.1 ((inOrder_push_perm ..).mem_iff.1 hq) with rfl | hq
  · exact Or.inr ⟨r.batch, rfl⟩
  · exact h.inMemory q hq

theorem Steady.report (plan : Plan ω) (h : n.Steady s) (hc : c.IsReport) :
    n.Steady (plan.step s (.call c)) ∧ (plan.step s (.call c)).1.expected = s.1.expected := by
  obtain ⟨hqueues, hkeys, hpeer⟩ := hc.take (n := s.1)
  obtain ⟨⟨w, hy⟩, htakes⟩ := h.sound.take hc.encodable.readable
  refine ⟨⟨⟨hy.sound, hkeys.trans h.keys, (congrArg _ hpeer).trans h.path, ?_⟩, ?_⟩, ?_⟩
  · change ∀ q ∈ (s.1.take c).queues.remoteFiles, q.origin = .here
    rw [hqueues]
    exact h.calm
  · change ∀ q ∈ (s.1.take c).queues.inOrder, _
    rw [hqueues]
    exact h.inMemory
  · exact expected_congr h.inMemory hqueues hkeys hpeer (hc.stock_eq htakes)

theorem Steady.cycle (h : n.Steady s) (hplan : plan.Makes Call.IsReport) :
    n.Steady (plan.step s .cycle) ∧ (plan.step s .cycle).1.expected = s.1.expected.merge ∧
      (plan.step s .cycle).1.view.stock = s.1.expected.merge := by
  obtain ⟨hstays, hexpected, hstock⟩ := h.toStays.cycle hplan
  obtain ⟨-, -, -, hhere⟩ := stock_cycle h.sound hplan
  refine ⟨⟨hstays, fun q hq => ?_⟩, hexpected, hstock⟩
  exact Or.inl (hhere _ (List.mem_map_of_mem hq))

/-- A step adds what it submits to the requests that the stock comes of. -/
theorem Steady.step (h : n.Steady s) (hplan : plan.Makes Call.IsReport)
    (hs : s.1.expected.Reflects n.keys n.peer.path rows rs) (ht : t.IsPlain)
    (howned : ∀ r ∈ t.submissions, r.IsOwned n.peer.path)
    (hapart : (rs ++ t.submissions).Pairwise Submission.Apart) :
    n.Steady (plan.step s t) ∧
      (plan.step s t).1.expected.Reflects n.keys n.peer.path rows (rs ++ t.submissions) := by
  have hreport : ∀ c : Call, c.IsReport → n.Steady (plan.step s (.call c)) ∧
      (plan.step s (.call c)).1.expected.Reflects n.keys n.peer.path rows (rs ++ []) := by
    intro c hc
    obtain ⟨hsteady, hexpected⟩ := h.report plan hc
    rw [hexpected, List.append_nil]
    exact ⟨hsteady, hs⟩
  cases t with
  | call c =>
    cases c with
    | submit r =>
      obtain ⟨hsteady, hexpected⟩ := h.submit plan (howned r (List.mem_singleton_self r))
      rw [hexpected]
      refine ⟨hsteady, hs.serve fun r' hr' => ?_⟩
      exact (List.pairwise_append.1 hapart).2.2 r' hr' r (List.mem_singleton_self r)
    | report sender id delivered => exact hreport _ trivial
    | wait milliseconds => exact hreport _ trivial
  | cycle =>
    obtain ⟨hsteady, hexpected, -⟩ := h.cycle hplan
    rw [hexpected, Step.submissions, List.append_nil]
    exact ⟨hsteady, hs.merge⟩
  | setPath path => exact ht.elim
  | handOff => exact ht.elim

/-- After any steps the stock comes of the requests that were submitted. -/
theorem Steady.run (h : n.Steady s) (hplan : plan.Makes Call.IsReport)
    (hs : s.1.expected.Reflects n.keys n.peer.path rows rs) (hplain : ∀ t ∈ steps, t.IsPlain)
    (howned : ∀ r ∈ steps.flatMap Step.submissions, r.IsOwned n.peer.path)
    (hapart : (rs ++ steps.flatMap Step.submissions).Pairwise Submission.Apart) :
    n.Steady (plan.run steps s) ∧
      (plan.run steps s).1.expected.Reflects n.keys n.peer.path rows
        (rs ++ steps.flatMap Step.submissions) := by
  induction steps generalizing s rs with
  | nil =>
    rw [List.flatMap_nil, List.append_nil]
    exact ⟨h, hs⟩
  | cons t steps ih =>
    obtain ⟨ht, hplain⟩ := List.forall_mem_cons.1 hplain
    rw [List.flatMap_cons] at howned
    obtain ⟨ht', howned⟩ := List.forall_mem_append.1 howned
    rw [List.flatMap_cons, ← List.append_assoc] at hapart ⊢
    obtain ⟨hsteady, hreflects⟩ := h.step hplan hs ht ht' (List.pairwise_append.1 hapart).1
    exact ih hsteady hreflects hplain howned hapart

/-- When a cycle ends a run, the store has what the requests ask for. -/
theorem agree_run (hn : n.Sound []) (hqueues : n.queues.inOrder = [])
    (hinbound : n.view.list .inbound = []) (hplan : plan.Makes Call.IsReport)
    (hplain : ∀ t ∈ steps, t.IsPlain)
    (howned : ∀ r ∈ steps.flatMap Step.submissions, r.IsOwned n.peer.path)
    (hapart : (steps.flatMap Step.submissions).Pairwise Submission.Apart) (w : ω) :
    (∀ id, AgreeOn id (plan.run (steps ++ [.cycle]) (n, [], w)).1.view.rows
      (n.view.rows.edits
        ((steps.flatMap Step.submissions).flatMap (Submission.edits n.keys n.peer.path)))) ∧
      ∀ m, n.view.rows.Keeps m →
        ∃ m', (plan.run (steps ++ [.cycle]) (n, [], w)).1.view.rows.Keeps m' := by
  obtain ⟨hstays, hexpected⟩ := stays_of_idle hn hqueues w
  have hmemory : n.InMemory := by
    intro q hq
    rw [hqueues] at hq
    cases hq
  have hsteady : n.Steady (n, [], w) := ⟨hstays, hmemory⟩
  have hstart : n.expected.Reflects n.keys n.peer.path n.view.rows [] := by
    rw [← hexpected]
    exact Stock.reflects_nil (s := n.view.stock) hinbound
  obtain ⟨hlast, hreflects⟩ := hsteady.run hplan hstart hplain howned hapart
  obtain ⟨-, -, hstock⟩ := hlast.cycle hplan
  have hrows : (plan.run (steps ++ [.cycle]) (n, [], w)).1.view.rows =
      (plan.run steps (n, [], w)).1.expected.merge.rows := by
    rw [Plan.run, List.foldl_append]
    exact congrArg Stock.rows hstock
  rw [hrows]
  exact ⟨hreflects.agree, hreflects.merge.keeps⟩

variable {ω' : Type} {plan' : Plan ω'} {steps' : List Step}

/-- **Requests without a common entry commute.**  Two runs submit the same owned requests, in any
orders, with cycles, reports and time in between; no identifier is in two of the requests.  When a
last cycle has served them all, the two stores are alike, each has of every identifier what the
requests ask for, and they show the same entries up to the addresses of the peers. -/
theorem requests_commute (hn : n.Sound []) (hqueues : n.queues.inOrder = [])
    (hinbound : n.view.list .inbound = []) (hplain : ∀ t ∈ steps, t.IsPlain)
    (hplain' : ∀ t ∈ steps', t.IsPlain)
    (howned : ∀ r ∈ steps.flatMap Step.submissions, r.IsOwned n.peer.path)
    (hapart : (steps.flatMap Step.submissions).Pairwise Submission.Apart)
    (hperm : (steps.flatMap Step.submissions).Perm (steps'.flatMap Step.submissions))
    (hplan : plan.Makes Call.IsReport) (hplan' : plan'.Makes Call.IsReport) (w : ω) (w' : ω') :
    let rows := (plan.run (steps ++ [.cycle]) (n, [], w)).1.view.rows
    let rows' := (plan'.run (steps' ++ [.cycle]) (n, [], w')).1.view.rows
    let asked := (steps.flatMap Step.submissions).flatMap (Submission.edits n.keys n.peer.path)
    rows.Alike rows' ∧ (∀ id, AgreeOn id rows (n.view.rows.edits asked)) ∧
      ∀ m, n.view.rows.Keeps m →
        rows.entries.map Entry.withoutAddress = rows'.entries.map Entry.withoutAddress := by
  intro rows rows' asked
  have howned' : ∀ r ∈ steps'.flatMap Step.submissions, r.IsOwned n.peer.path :=
    fun r hr => howned r (hperm.mem_iff.2 hr)
  have hapart' : (steps'.flatMap Step.submissions).Pairwise Submission.Apart :=
    (hperm.pairwise_iff fun h => Submission.Apart.symm h).1 hapart
  obtain ⟨hagree, hkeeps⟩ := agree_run hn hqueues hinbound hplan hplain howned hapart w
  obtain ⟨hagree', hkeeps'⟩ := agree_run hn hqueues hinbound hplan' hplain' howned' hapart' w'
  have halike : rows.Alike rows' := by
    refine Store.Rows.alike_of_agree fun id => ?_
    have hedits := Submission.agree_edits_of_perm hperm hapart n.keys n.peer.path n.view.rows id
    exact ((hagree id).trans hedits).trans (hagree' id).symm
  refine ⟨halike, hagree, fun m hm => ?_⟩
  obtain ⟨m₁, hm₁⟩ := hkeeps m hm
  obtain ⟨m₂, hm₂⟩ := hkeeps' m hm
  exact halike.entries hm₁ hm₂

/-- An insertion, an update and a deletion of three entries, in one order with a cycle for each and
in another order with one cycle for two of them. -/
theorem requests_commute_of_three :
    let quiet : Plan Unit := fun _ _ w => ([], w)
    let draft (id : String) : Bulk.Draft := ⟨some [Sample.entry id ⟨[false]⟩], none, none⟩
    let insert : Submission := ⟨.insert, draft "a", false, some (⟨"parent"⟩, false)⟩
    let update : Submission := ⟨.update, draft "b", false, some (⟨"parent"⟩, true)⟩
    let delete : Submission := ⟨.delete, draft "c", false, some (⟨"parent"⟩, false)⟩
    let steps : List Step :=
      [.call (.submit insert), .cycle, .call (.submit update), .cycle, .call (.submit delete)]
    let steps' : List Step :=
      [.call (.submit delete), .call (.submit update), .cycle, .call (.wait 5),
        .call (.submit insert)]
    ∃ n, Node.openAt (Sample.peer ⟨[false]⟩) (.ofBits 8) 0 .root .empty = .ok n ∧
      let rows := (quiet.run (steps ++ [.cycle]) (n, [], ())).1.view.rows
      let rows' := (quiet.run (steps' ++ [.cycle]) (n, [], ())).1.view.rows
      rows.entries.map (·.id) = [⟨"a"⟩, ⟨"b"⟩] ∧ rows.Alike rows' ∧
        rows.entries.map Entry.withoutAddress = rows'.entries.map Entry.withoutAddress := by
  intro quiet draft insert update delete steps steps'
  have hruns : (Node.openAt (Sample.peer ⟨[false]⟩) (.ofBits 8) 0 .root .empty).toOption.map
      (fun n => (quiet.run (steps ++ [.cycle]) (n, [], ())).1.view.rows.entries.map (·.id)) =
      some [⟨"a"⟩, ⟨"b"⟩] := by
    decide +kernel
  obtain ⟨n, hopen, hsound, hidle, hpeer, -, hrows⟩ := openAt_sound rfl Volume.vacant_empty
    (Sample.peer ⟨[false]⟩) (.ofBits 8) 0
  have hqueues := inOrder_eq_nil hidle.queued
  have howned : ∀ r ∈ [insert, update, delete], r.IsOwned n.peer.path := by
    rw [hpeer, List.forall_mem_cons, List.forall_mem_cons, List.forall_mem_singleton]
    exact ⟨⟨by decide, rfl, by decide⟩, ⟨by decide, rfl, by decide⟩, ⟨by decide, rfl, by decide⟩⟩
  have hapart : [insert, update, delete].Pairwise Submission.Apart := by
    unfold Submission.Apart
    decide
  have hperm : [insert, update, delete].Perm [delete, update, insert] :=
    List.reverse_perm [delete, update, insert]
  have hplain : ∀ t ∈ steps, t.IsPlain := by simp [steps, Step.IsPlain]
  have hplain' : ∀ t ∈ steps', t.IsPlain := by simp [steps', Step.IsPlain]
  have hquiet : quiet.Makes Call.IsReport := fun d n w c hc => absurd hc List.not_mem_nil
  have hkeeps : n.view.rows.Keeps .empty := by
    rw [hrows]
    exact Store.Rows.keeps_empty
  obtain ⟨halike, -, hentries⟩ := requests_commute hsound hqueues (hidle.list .inbound) hplain
    hplain' howned hapart hperm hquiet hquiet () ()
  rw [hopen] at hruns
  exact ⟨n, hopen, Option.some.inj hruns, halike, hentries _ hkeeps⟩

end Node

end TrieOverlay
