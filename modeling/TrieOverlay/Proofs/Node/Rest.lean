import TrieOverlay.Proofs.Node.Chores
import TrieOverlay.Proofs.Node.Frame
import TrieOverlay.Proofs.Node.Opening

/-!
# A node comes to rest

When every message is delivered at once, serving requests leaves the messages in flight and the
outbound lists what they are, and the only requests that it raises are raised here
(`View.ServedTo`).  A request that was raised here is only passed on, so serving it changes nothing
at all.  The first cycle therefore leaves requests that the second one passes on, and the second
leaves nothing; in the second every list was counted, so a third has nothing to do but to look
(`Node.AtRest`).

* `Node.works_service` : what serving requests comes to.
* `Node.Sound.firstCycle`, `Node.Sound.secondCycle` : the two cycles.
* `Node.AtRest.cycle`, `Node.AtRest.hasWork` : at rest nothing happens any more.
* `Node.comes_to_rest` : after two cycles a node has come to rest (`Node.Settled`).
-/

namespace TrieOverlay

/-! ### Serving requests -/

namespace Chore

/-- Whether a chore is part of serving a request. -/
def IsService : Chore → Prop
  | serve _ | send _ _ | apply _ _ _ | idle => True
  | retry | resend _ | merge => False

/-- Whether a chore is part of serving a request that was raised here. -/
def IsHere : Chore → Prop
  | serve r => r.origin = .here
  | send _ _ | idle => True
  | apply _ _ _ | retry | resend _ | merge => False

end Chore

namespace View

/-- A view in which the outbound lists of some operations are empty. -/
def without (w : View) (os : List Operation) : View :=
  { w with list := fun b =>
      match b with
      | .inbound => w.list .inbound
      | .outbound o => if o ∈ os then [] else w.list (.outbound o) }

theorem without_eq_self (w : View) {os : List Operation} (h : ∀ o ∈ os, w.list (.outbound o) = []) :
    w.without os = w := by
  have hlist : (w.without os).list = w.list := by
    funext b
    cases b with
    | inbound => rfl
    | outbound o =>
      show (if o ∈ os then [] else w.list (.outbound o)) = w.list (.outbound o)
      split
      · exact (h o ‹_›).symm
      · rfl
  exact congrArg (fun list => { w with list }) hlist

theorem setList_outbound_eq_without (w : View) (o : Operation) :
    w.setList (.outbound o) [] = w.without [o] := by
  have hlist : (w.setList (.outbound o) []).list = (w.without [o]).list := by
    funext b
    rw [list_setList]
    cases b with
    | inbound => rfl
    | outbound o' => simp [without]
  exact congrArg (fun list => { w with list }) hlist

theorem without_without (w : View) (o : Operation) (os : List Operation) :
    (w.without [o]).without os = w.without (o :: os) := by
  have hlist : ((w.without [o]).without os).list = (w.without (o :: os)).list := by
    funext b
    cases b with
    | inbound => rfl
    | outbound o' =>
      by_cases ho : o' = o <;> by_cases hos : o' ∈ os <;> simp [without, ho, hos]
  exact congrArg (fun list => { w with list }) hlist

/-- When the outbound lists were sent and the inbound list was merged, no list has an entry. -/
theorem list_merge_without (w : View) (b : Buffer) :
    (w.without Operation.all).merge.list b = [] := by
  cases b with
  | inbound => rfl
  | outbound o => cases o <;> rfl

/-- What serving requests makes of a view when every message is delivered at once. -/
structure ServedTo (w w' : View) : Prop where
  flying : w'.flying = w.flying
  outbound : ∀ o, w'.list (.outbound o) = w.list (.outbound o)
  queued : ∀ r ∈ w'.queued, r ∈ w.queued ∨ r.origin = .here

variable {w w' w'' : View} {c : Chore} {cs : List Chore}

theorem ServedTo.refl (w : View) : w.ServedTo w :=
  ⟨rfl, fun _ => rfl, fun _ hr => .inl hr⟩

theorem ServedTo.trans (h : w.ServedTo w') (h' : w'.ServedTo w'') : w.ServedTo w'' := by
  refine ⟨h'.flying.trans h.flying, fun o => (h'.outbound o).trans (h.outbound o), ?_⟩
  intro r hr
  rcases h'.queued r hr with hr | hhere
  · exact h.queued r hr
  · exact .inr hhere

theorem servedTo_apply (w : View) (path : Key) (o : Operation) (es : List Entry) :
    w.ServedTo (w.apply path o es) := by
  cases o with
  | insert =>
    refine ⟨rfl, fun o => ?_, fun _ hr => .inl hr⟩
    rw [apply, append, list_setList, if_neg (by simp)]
  | update =>
    simp only [apply]
    split
    · exact ⟨rfl, fun _ => rfl, fun _ hr => .inl hr⟩
    · refine ⟨rfl, fun _ => rfl, ?_⟩
      intro r hr
      rcases Multiset.mem_cons.1 hr with rfl | hr
      · exact .inr rfl
      · exact .inl hr
  | delete => exact ⟨rfl, fun _ => rfl, fun _ hr => .inl hr⟩

/-- What comes of serving a request is part of serving it. -/
theorem Does.isService (hd : w.Does c cs w') (hc : c.IsService) :
    w.ServedTo w' ∧ ∀ c' ∈ cs, c'.IsService := by
  cases hd with
  | nothing | idle => exact ⟨.refl w, by simp⟩
  | root | replica => exact ⟨.refl w, by simp [Chore.IsService]⟩
  | split _ _ _ hrest =>
    refine ⟨.refl w, ?_⟩
    rcases hrest with rfl | rfl <;> simp [Chore.IsService, or_imp, forall_and]
  | splitOther _ _ hrest =>
    refine ⟨.refl w, ?_⟩
    rcases hrest with ⟨rfl, -⟩ | rfl <;> simp [Chore.IsService, or_imp, forall_and]
  | @apply o path es w => exact ⟨servedTo_apply w path o es, by simp [Chore.IsService]⟩
  | wait | retry | resendNothing | resend | merge => exact hc.elim

/-- Serving a request that was raised here changes nothing. -/
theorem Does.isHere (hd : w.Does c cs w') (hc : c.IsHere) : w' = w ∧ ∀ c' ∈ cs, c'.IsHere := by
  cases hd with
  | nothing | idle => exact ⟨rfl, by simp⟩
  | root => exact ⟨rfl, by simp [Chore.IsHere]⟩
  | split _ _ _ hrest =>
    refine ⟨rfl, ?_⟩
    rcases hrest with rfl | rfl <;> simp [Chore.IsHere, or_imp, forall_and]
  | splitOther hother =>
    rw [Chore.IsHere, hother] at hc
    cases hc
  | replica hother =>
    rw [Chore.IsHere, hother] at hc
    cases hc
  | apply | wait | retry | resendNothing | resend | merge => exact hc.elim

end View

/-! ### Messages that are delivered at once -/

/-- A router that reports every message as delivered before it returns. -/
def DeliversAtOnce {ω : Type} (router : Router ω) : Prop :=
  ∀ d n w, (router d n w).1 = n.report d.sender d.message.header.id true

namespace Node

variable {ω : Type} {router : Router ω} {n n' : Node} {hands : List Payload} {j : Job}
  {js : List Job}

/-- The report on a message that just took off takes it out again. -/
theorem Sound.report_loaded (h : n.Sound hands) {m : Carried} {v : View}
    (hview : n.view = v.fly m) : n.Yields hands hands v (n.report m.sender m.id true) := by
  have hflying : n.view.flying = m ::ₘ v.flying := by rw [hview]; rfl
  have hmem : m ∈ n.view.flying := by rw [hflying]; exact Multiset.mem_cons_self ..
  rcases h.report m.sender m.id true with ⟨-, hnone⟩ | ⟨m', rest, hm', hsender, hid, hy⟩
  · exact absurd ⟨rfl, rfl⟩ (hnone m hmem)
  · have hmem' : m' ∈ n.view.flying := by rw [hm']; exact Multiset.mem_cons_self ..
    -- names are used once, so it is the message itself that is taken out
    obtain rfl : m' = m := Multiset.inj_on_of_nodup_map n.nodup_names m' hmem' m hmem
      (Prod.ext hsender hid)
    have hrest : rest = v.flying := (Multiset.cons_inj_right m').1 (hm'.symm.trans hflying)
    rw [hview, hrest] at hy
    exact hy

/-- A report on a name that is not in flight means nothing. -/
theorem Sound.report_unknown (h : n.Sound hands) {id : MessageId}
    (hid : ∀ m ∈ n.view.flying, m.id ≠ id) (sender : Engine) (delivered : Bool) :
    n.report sender id delivered = n := by
  rcases h.report sender id delivered with ⟨hsame, -⟩ | ⟨m, rest, hm, -, hname, -⟩
  · exact hsame
  · refine absurd hname (hid m ?_)
    rw [hm]
    exact Multiset.mem_cons_self ..

/-- The next name of a sound node is not in flight. -/
theorem Sound.ne_of_mem_flying (h : n.Sound hands) {m : Carried} (hm : m ∈ n.view.flying) :
    m.id ≠ .ofSerial n.serial := by
  obtain ⟨f, hf, rfl⟩ := List.mem_map.1 (Multiset.mem_coe.1 hm)
  obtain ⟨k, hk, hname⟩ := h.named f hf
  intro hid
  exact Nat.ne_of_lt hk (Ident.ofSerial_injective (hname.symm.trans hid))

/-! ### Serving requests -/

theorem isHere_chore_congr (n n' : Node) (j : Job) : (j.chore n).IsHere ↔ (j.chore n').IsHere := by
  cases j <;> exact Iff.rfl

theorem isService_chore_congr (n n' : Node) (j : Job) :
    (j.chore n).IsService ↔ (j.chore n').IsService := by
  cases j <;> exact Iff.rfl

/-- What serving requests makes of a node when every message is delivered at once. -/
structure ServedTo (here : Prop) (n n' : Node) : Prop where
  clock : n.SameClock n'
  view : n.view.ServedTo n'.view
  same : here → n'.view = n.view

theorem ServedTo.of_view {here : Prop} (hclock : n.SameClock n') (hview : n'.view = n.view) :
    n.ServedTo here n' :=
  ⟨hclock, hview ▸ View.ServedTo.refl _, fun _ => hview⟩

theorem ServedTo.trans {here here₁ here₂ : Prop} {n'' : Node} (h : n.ServedTo here₁ n')
    (h' : n'.ServedTo here₂ n'') (h₁ : here → here₁) (h₂ : here → here₂) :
    n.ServedTo here n'' :=
  ⟨h.clock.trans h'.clock, h.view.trans h'.view,
    fun hhere => (h'.same (h₂ hhere)).trans (h.same (h₁ hhere))⟩

theorem sameClock_newHeader (n : Node) (task : Task) (branch : Key) :
    n.SameClock (n.newHeader task branch).2 :=
  ⟨rfl, rfl, rfl⟩

theorem sameClock_perform (hrouter : DeliversAtOnce router) (hj : (j.chore n).IsService)
    (w : ω) : n.SameClock (perform router j (n, w)).2.1 := by
  cases j with
  | serve r => exact (perform_serve_frame r (n, w)).1.sameClock
  | send task branch x =>
    simp only [perform, Node.send, hrouter _ _ _]
    refine SameClock.trans ?_ (SameFrame.report ..).sameClock
    exact (sameClock_newHeader n task branch).trans (SameFrame.takeOff ..).sameClock
  | apply task path x shared => exact sameClock_applyPayload ..
  | share task path x =>
    simp only [perform, Node.broadcast, hrouter _ _ _]
    exact (sameClock_newHeader n task path).trans (SameFrame.report ..).sameClock
  | drop x => exact (SameFrame.releasePayload n x).sameClock
  | retry | resend | merge => exact hj.elim

/-- What comes of a job of serving requests. -/
theorem Sound.perform_service (h : n.Sound (handsOf (j :: js))) (hrouter : DeliversAtOnce router)
    (hj : (j.chore n).IsService) (w : ω) :
    ∃ js' s', Node.perform router j (n, w) = (js', s') ∧ s'.1.Sound (handsOf (js' ++ js)) ∧
      n.ServedTo (j.chore n).IsHere s'.1 ∧ (∀ j' ∈ js', (j'.chore s'.1).IsService) ∧
      ((j.chore n).IsHere → ∀ j' ∈ js', (j'.chore s'.1).IsHere) := by
  have hclock := sameClock_perform hrouter hj w
  by_cases hroutes : j.Routes
  · rcases hroutes.eq_send_or_share with ⟨task, branch, x, rfl⟩ | ⟨task, path, x, rfl⟩
    · obtain ⟨d, n₁, hrun, -, hloaded, -, -, hy⟩ := @Sound.perform_send _ router _ _ _ _ _ h w
      rw [hrun] at hclock ⊢
      have hy' := hy.sound.report_loaded hy.view_eq
      refine ⟨[], _, rfl, ?_, .of_view hclock ?_, by simp, by simp⟩
      · rw [hrouter]
        exact hy'.sound
      · rw [hrouter]
        exact hy'.view_eq
    · obtain ⟨d, n₁, hrun, -, hloaded, -, -, hy⟩ := @Sound.perform_share _ router _ _ _ _ _ h w
      have hid : d.message.header.id = .ofSerial n.serial := congrArg Carried.id hloaded
      rw [hrun] at hclock ⊢
      have hunknown : (router d n₁ w).1 = n₁ := by
        rw [hrouter]
        refine hy.sound.report_unknown ?_ _ _
        intro m hm
        rw [hid]
        rw [hy.view_eq] at hm
        exact h.ne_of_mem_flying hm
      refine ⟨[.drop x], _, rfl, ?_, .of_view hclock ?_, by simp [Job.chore, Chore.IsService],
        by simp [Job.chore, Chore.IsHere]⟩
      · rw [hunknown]
        exact hy.sound
      · rw [hunknown]
        exact hy.view_eq
  · obtain ⟨js', n₁, hrun, hp⟩ := @Sound.perform _ router _ _ _ h hroutes w
    rw [hrun] at hclock ⊢
    obtain ⟨hview, hservice⟩ := hp.does.isService hj
    refine ⟨js', (n₁, w), rfl, hp.sound, ⟨hclock, hview, fun hhere => (hp.does.isHere hhere).1⟩,
      fun j' hj' => hservice _ (List.mem_map_of_mem hj'), fun hhere j' hj' => ?_⟩
    exact (hp.does.isHere hhere).2 _ (List.mem_map_of_mem hj')

/-- What serving requests comes to, one job after the other. -/
theorem works_service {s t : Node × ω} (hrouter : DeliversAtOnce router)
    (hworks : Works router js s t) (h : s.1.Sound (handsOf js))
    (hjs : ∀ j ∈ js, (j.chore s.1).IsService) :
    t.1.Sound [] ∧ s.1.ServedTo (∀ j ∈ js, (j.chore s.1).IsHere) t.1 := by
  induction hworks with
  | nil s => exact ⟨h, .of_view (.refl _) rfl⟩
  | @cons j js s t hworks ih =>
    obtain ⟨hj, hrest⟩ := List.forall_mem_cons.1 hjs
    obtain ⟨js', s', hrun, hsound, hserved, hservice, hhere⟩ := h.perform_service hrouter hj s.2
    rw [show (s.1, s.2) = s from rfl] at hrun
    simp only [hrun] at ih
    obtain ⟨ht, hserved'⟩ := ih hsound fun j' hj' => by
      rcases List.mem_append.1 hj' with hj' | hj'
      · exact hservice j' hj'
      · exact (isService_chore_congr s.1 s'.1 j').1 (hrest j' hj')
    refine ⟨ht, hserved.trans hserved' (fun hall => (List.forall_mem_cons.1 hall).1) ?_⟩
    intro hall j' hj'
    obtain ⟨hj, hrest⟩ := List.forall_mem_cons.1 hall
    rcases List.mem_append.1 hj' with hj' | hj'
    · exact hhere hj j' hj'
    · exact (isHere_chore_congr s.1 s'.1 j').1 (hrest j' hj')

/-- Serving everything that waits. -/
theorem Sound.serveQueues (h : n.Sound []) (hrouter : DeliversAtOnce router) (w : ω) :
    (Node.serveQueues router (n, w)).1.Sound [] ∧
      ({ n with queues := .empty } : Node).ServedTo (∀ r ∈ n.view.queued, r.origin = .here)
        (Node.serveQueues router (n, w)).1 := by
  have hworks : Works router (n.queues.inOrder.map .serve) ({ n with queues := .empty }, w)
      (Node.serveQueues router (n, w)) := works_serves ..
  have hhands : handsOf (n.queues.inOrder.map .serve) = n.queues.inOrder.map (·.payload) := by
    rw [← handsOf_start, handsOf_append]
    exact (List.append_nil _).symm
  obtain ⟨hsound, hserved⟩ := works_service hrouter hworks (by
    rw [hhands]
    exact ⟨h.inventory, h.named⟩) (by simp [Job.chore, Chore.IsService])
  refine ⟨hsound, hserved.clock, hserved.view, ?_⟩
  intro hall
  refine hserved.same fun j hj => ?_
  obtain ⟨r, hr, rfl⟩ := List.mem_map.1 hj
  exact hall (n.errand r) (Multiset.mem_coe.2 (List.mem_map_of_mem hr))

/-! ### Retrying -/

/-- The last retry is long enough ago. -/
def MayRetry (n : Node) : Prop :=
  ∀ t ∈ n.lastRetry, n.idlePoll ≤ n.clock - t

instance (n : Node) : Decidable n.MayRetry :=
  inferInstanceAs (Decidable (∀ t ∈ n.lastRetry, _))

theorem MayRetry.of_sameClock (h : n.MayRetry) (hclock : n.SameClock n') : n'.MayRetry := by
  intro t ht
  rw [hclock.lastRetry] at ht
  rw [hclock.idlePoll, hclock.clock]
  exact h t ht

theorem MayRetry.not_recent (h : n.MayRetry) :
    (n.lastRetry.any fun t => n.clock - t < n.idlePoll) = false := by
  cases hlast : n.lastRetry with
  | none => rfl
  | some t =>
    have := h t hlast
    simp only [Option.any_some, decide_eq_false_iff_not]
    omega

/-- The outbound list of an operation is sent again, and is empty then. -/
theorem Sound.retryOperation (h : n.Sound []) (hrouter : DeliversAtOnce router) (o : Operation)
    (w : ω) :
    (Node.retryOperation router (n, w) o).1.Sound [] ∧
      (Node.retryOperation router (n, w) o).1.view = n.view.without [o] := by
  by_cases hnil : n.view.list (.outbound o) = []
  · obtain ⟨n', hrun, hy⟩ := h.takeOutbound_nil hnil
    simp only [Node.retryOperation, hrun]
    refine ⟨hy.sound, hy.view_eq.trans (n.view.without_eq_self ?_).symm⟩
    simpa using hnil
  · obtain ⟨f, n', hrun, hy, -⟩ := h.takeOutbound hnil
    let r : Request := ⟨.ofSerial n'.serial, o, .file f, .here⟩
    have htick := hy.trans (hy.sound.tick [])
    have hretry : Node.retryOperation router (n, w) o =
        Node.serve router ({ n' with serial := n'.serial + 1 }, w) r := by
      simp only [Node.retryOperation, hrun]
      rfl
    obtain ⟨hsound, hserved⟩ := works_service hrouter
      (works_serve r ({ n' with serial := n'.serial + 1 }, w)) htick.sound
      (by simp [Job.chore, Chore.IsService])
    rw [hretry]
    refine ⟨hsound, (hserved.same ?_).trans ?_⟩
    · simp [Job.chore, Chore.IsHere, errand, r]
    · exact hy.view_eq.trans (n.view.setList_outbound_eq_without o)

theorem Sound.retryOperations (hrouter : DeliversAtOnce router) (os : List Operation) :
    ∀ s : Node × ω, s.1.Sound [] → (os.foldl (Node.retryOperation router) s).1.Sound [] ∧
      (os.foldl (Node.retryOperation router) s).1.view = s.1.view.without os := by
  induction os with
  | nil => exact fun s h => ⟨h, (s.1.view.without_eq_self (by simp)).symm⟩
  | cons o os ih =>
    intro s h
    obtain ⟨hsound, hview⟩ := h.retryOperation hrouter o s.2
    obtain ⟨hsound', hview'⟩ := ih _ hsound
    refine ⟨hsound', hview'.trans ?_⟩
    rw [hview, View.without_without]

/-- If a retry may be due, the outbound lists are empty afterwards. -/
theorem Sound.retry (h : n.Sound []) (hrouter : DeliversAtOnce router) (hmay : n.MayRetry)
    (w : ω) :
    (Node.retry router (n, w)).1.Sound [] ∧
      (Node.retry router (n, w)).1.view = n.view.without Operation.all := by
  obtain ⟨n', hrun, hy⟩ := h.retryDue
  rw [Node.retry]
  cases hdue : n.isRetryDue with
  | false =>
    simp only [hrun, hdue]
    refine ⟨hy.sound, hy.view_eq.trans (n.view.without_eq_self ?_).symm⟩
    rw [isRetryDue, hmay.not_recent] at hdue
    simpa using hdue
  | true =>
    simp only [hrun, hdue]
    have hsound : ({ n' with lastRetry := some n'.clock } : Node).Sound [] :=
      ⟨hy.sound.inventory, hy.sound.named⟩
    obtain ⟨hsound', hview⟩ := Sound.retryOperations hrouter Operation.all (_, w) hsound
    refine ⟨hsound', hview.trans ?_⟩
    exact congrArg (·.without Operation.all) hy.view_eq

/-! ### The first cycle -/

/-- After a cycle the lists are empty, and what waits was raised here. -/
theorem Sound.firstCycle (h : n.Sound []) (hrouter : DeliversAtOnce router) (hmay : n.MayRetry)
    (w : ω) :
    (Node.cycle router (n, w)).1.Sound [] ∧
      (Node.cycle router (n, w)).1.view.flying = n.view.flying ∧
      (∀ b, (Node.cycle router (n, w)).1.view.list b = []) ∧
      ∀ r ∈ (Node.cycle router (n, w)).1.view.queued, r.origin = .here := by
  obtain ⟨hsound₁, hserved⟩ := h.serveQueues hrouter w
  have hmay₁ : ({ n with queues := .empty } : Node).MayRetry :=
    hmay.of_sameClock ⟨rfl, rfl, rfl⟩
  obtain ⟨hsound₂, hview⟩ := hsound₁.retry hrouter (hmay₁.of_sameClock hserved.clock)
    (Node.serveQueues router (n, w)).2
  have hmerge := hsound₂.merge
  refine ⟨hmerge.sound, ?_, ?_, ?_⟩
  · rw [Node.cycle, hmerge.view_eq, View.merge, hview]
    exact hserved.view.flying
  · intro b
    rw [Node.cycle, hmerge.view_eq, View.merge, hview]
    exact View.list_merge_without _ b
  · rw [Node.cycle, hmerge.view_eq, View.merge, hview]
    intro r hr
    rcases hserved.view.queued r hr with hr | hhere
    · exact absurd hr (Multiset.notMem_zero r)
    · exact hhere

end Node

/-! ### Lists that are known to be empty -/

namespace BulkList

variable {l l' : BulkList} {v v' : Volume}

/-- The list is remembered to be empty. -/
def KnownEmpty (l : BulkList) : Prop :=
  l.counted.lookup? l.signature = some 0

theorem KnownEmpty.run_count (h : l.KnownEmpty) (v : Volume) : l.count.run v = ((0, l), v) := by
  rw [count, Memo.fetch, h]
  rfl

/-- What was counted is remembered. -/
theorem knownEmpty_of_count (h : l.count.run v = ((0, l'), v')) : l'.KnownEmpty := by
  cases hslot : l.counted.lookup? l.signature with
  | some k =>
    rw [count, Memo.fetch, hslot] at h
    obtain ⟨rfl, rfl⟩ := Prod.mk.inj (Prod.mk.inj h).1
    exact hslot
  | none =>
    rcases hscan : l.scanCount.run v with ⟨k, v₁⟩
    have hfetch : (l.counted.fetch l.signature l.scanCount : Disk _).run v =
        ((k, ⟨some (l.signature, k)⟩), v₁) := by
      rw [Memo.fetch, hslot]
      exact (Disk.run_bind_eq hscan).trans rfl
    rw [count, Disk.run_bind_eq hfetch] at h
    obtain ⟨rfl, rfl⟩ := Prod.mk.inj (Prod.mk.inj h).1
    exact Memo.lookup?_mk_self ..

end BulkList

namespace Holdings

variable {g g' : Holdings} {v v' : Volume} {o : Operation} {l : BulkList}

theorem outbound_setOutbound (g : Holdings) (o o' : Operation) (l : BulkList) :
    (g.setOutbound o l).outbound o' = if o' = o then l else g.outbound o' := by
  cases o <;> cases o' <;> rfl

theorem setOutbound_outbound (g : Holdings) (o : Operation) :
    g.setOutbound o (g.outbound o) = g := by
  cases o <;> rfl

theorem inbound_setOutbound (g : Holdings) (o : Operation) (l : BulkList) :
    (g.setOutbound o l).inbound = g.inbound := by
  cases o <;> rfl

/-- All lists are remembered to be empty. -/
structure KnownEmpty (g : Holdings) : Prop where
  inbound : g.inbound.KnownEmpty
  outbound : ∀ o, (g.outbound o).KnownEmpty

theorem KnownEmpty.run_hasInbound (h : g.KnownEmpty) (v : Volume) :
    g.hasInbound.run v = ((false, g), v) := by
  have hempty : g.inbound.isEmpty.run v = ((true, g.inbound), v) :=
    (Disk.run_bind_eq (h.inbound.run_count v)).trans rfl
  exact (Disk.run_bind_eq hempty).trans rfl

theorem KnownEmpty.run_hasOutboundAmong (h : g.KnownEmpty) (os : List Operation) (v : Volume) :
    (g.hasOutboundAmong os).run v = ((false, g), v) := by
  induction os with
  | nil => rfl
  | cons o os ih =>
    have hcount : (g.outboundCountOf o).run v = ((0, g), v) := by
      refine (Disk.run_bind_eq ((h.outbound o).run_count v)).trans ?_
      exact congrArg (fun g => ((0, g), v)) (g.setOutbound_outbound o)
    rw [hasOutboundAmong, Disk.run_bind_eq hcount]
    exact ih

/-- If a search finds no undelivered entry, the lists that it looked at are remembered to be
empty, and no list is forgotten. -/
theorem knownEmpty_of_hasOutboundAmong (os : List Operation) :
    ∀ (g : Holdings) (v : Volume), (g.hasOutboundAmong os).run v = ((false, g'), v') →
      g'.inbound = g.inbound ∧ (∀ o ∈ os, (g'.outbound o).KnownEmpty) ∧
        ∀ o, (g.outbound o).KnownEmpty → (g'.outbound o).KnownEmpty := by
  induction os with
  | nil =>
    intro g v h
    obtain ⟨-, rfl⟩ := Prod.mk.inj (Prod.mk.inj h).1
    exact ⟨rfl, by simp, fun _ h => h⟩
  | cons o os ih =>
    intro g v h
    rcases hcount : (g.outbound o).count.run v with ⟨⟨k, l⟩, v₁⟩
    have hrun : (g.outboundCountOf o).run v = ((k, g.setOutbound o l), v₁) :=
      (Disk.run_bind_eq hcount).trans rfl
    rw [hasOutboundAmong, Disk.run_bind_eq hrun] at h
    dsimp only at h
    by_cases hk : k = 0
    · subst hk
      rw [if_pos rfl] at h
      obtain ⟨hinbound, hlooked, hknown⟩ := ih _ _ h
      have hset : ∀ o', o' = o ∨ (g.outbound o').KnownEmpty →
          ((g.setOutbound o l).outbound o').KnownEmpty := by
        intro o' ho'
        rw [outbound_setOutbound]
        split
        · exact BulkList.knownEmpty_of_count hcount
        · exact ho'.resolve_left ‹_›
      refine ⟨hinbound.trans (inbound_setOutbound ..), ?_,
        fun o' ho' => hknown o' (hset o' (.inr ho'))⟩
      intro o' ho'
      rcases List.mem_cons.1 ho' with rfl | ho'
      · exact hknown _ (hset _ (.inl rfl))
      · exact hlooked o' ho'
    · rw [if_neg hk] at h
      cases congrArg (·.1.1) h

theorem knownEmpty_of_hasInbound (h : g.hasInbound.run v = ((false, g'), v')) :
    g'.inbound.KnownEmpty ∧ g'.outbound = g.outbound := by
  rcases hcount : g.inbound.count.run v with ⟨⟨k, l⟩, v₁⟩
  have hempty : g.inbound.isEmpty.run v = ((k == 0, l), v₁) := (Disk.run_bind_eq hcount).trans rfl
  rw [hasInbound, Disk.run_bind_eq hempty] at h
  obtain ⟨hk, rfl⟩ := Prod.mk.inj (Prod.mk.inj h).1
  obtain rfl : k = 0 := by simpa using hk
  refine ⟨BulkList.knownEmpty_of_count hcount, ?_⟩
  funext o
  cases o <;> rfl

end Holdings

namespace Node

variable {ω : Type} {router : Router ω} {n : Node}

/-- Nothing waits, and all lists are remembered to be empty. -/
structure AtRest (n : Node) : Prop where
  queues : n.queues = .empty
  holdings : n.holdings.KnownEmpty

namespace AtRest

theorem retryDue (h : n.AtRest) : n.retryDue = (false, n) := by
  simp only [Node.retryDue]
  split
  · rfl
  · exact ask_eq (h.holdings.run_hasOutboundAmong Operation.all n.volume)

theorem hasInbound (h : n.AtRest) : n.ask (·.hasInbound) = (false, n) :=
  ask_eq (h.holdings.run_hasInbound n.volume)

/-- At rest there is nothing to do. -/
theorem hasWork (h : n.AtRest) : n.hasWork = (false, n) := by
  have hempty : n.queues.isEmpty = true := by rw [h.queues]; rfl
  rw [Node.hasWork]
  split
  · rfl
  · simp only [hempty, h.retryDue, h.hasInbound, Bool.not_true, Bool.false_eq_true, if_false]

/-- At rest a cycle sends nothing and changes nothing. -/
theorem cycle (h : n.AtRest) (router : Router ω) (w : ω) : Node.cycle router (n, w) = (n, w) := by
  have hserve : serveQueues router (n, w) = (n, w) := by
    have hsame : ({ n with queues := .empty } : Node) = n := by rw [← h.queues]
    simp only [serveQueues, h.queues, Queues.inOrder, Queues.empty, List.append_nil, List.foldl_nil]
    exact congrArg (·, w) hsame
  rw [Node.cycle, hserve]
  simp only [retry, h.retryDue, merge, h.hasInbound]

theorem wait (h : n.AtRest) (milliseconds : Nat) : (n.wait milliseconds).AtRest :=
  ⟨h.queues, h.holdings⟩

end AtRest

/-! ### The second cycle -/

theorem queues_eq_empty (h : n.view.queued = 0) : n.queues = .empty := by
  have hnil := inOrder_eq_nil h
  simp only [Queues.inOrder, List.append_eq_nil_iff] at hnil
  obtain ⟨⟨⟨hle, hlf⟩, hre⟩, hrf⟩ := hnil
  rcases hqueues : n.queues with ⟨le, lf, re, rf⟩
  rw [hqueues] at hle hlf hre hrf
  rw [show le = [] from hle, show lf = [] from hlf, show re = [] from hre, show rf = [] from hrf]
  rfl

/-- A retry that may be due finds nothing to send, and the lists were counted. -/
theorem Sound.retryDue_of_nil (h : n.Sound []) (hmay : n.MayRetry)
    (hnil : ∀ o, n.view.list (.outbound o) = []) :
    ∃ n', n.retryDue = (false, n') ∧ n'.Sound [] ∧ n'.view = n.view ∧
      ∀ o, (n'.holdings.outbound o).KnownEmpty := by
  obtain ⟨g, hrun, hy⟩ := h.hasOutboundAmong Operation.all
  have hnone : (Operation.all.any fun o => !(n.view.list (.outbound o)).isEmpty) = false := by
    simp [hnil]
  rw [hnone] at hrun
  obtain ⟨-, hknown, -⟩ := Holdings.knownEmpty_of_hasOutboundAmong _ _ _ hrun
  refine ⟨{ n with holdings := g }, ?_, hy.sound, hy.view_eq, fun o => hknown o o.mem_all⟩
  have hask : n.ask (·.hasOutbound) = (false, { n with holdings := g }) := ask_eq hrun
  simp only [Node.retryDue, hmay.not_recent, hask, Bool.false_eq_true, if_false]

/-- A merge of nothing counts the inbound list. -/
theorem Sound.merge_of_nil (h : n.Sound []) (hnil : n.view.list .inbound = []) :
    n.merge.Sound [] ∧ n.merge.view = n.view ∧ n.merge.holdings.inbound.KnownEmpty ∧
      n.merge.holdings.outbound = n.holdings.outbound := by
  obtain ⟨n', hask, hy⟩ := h.hasInbound
  rcases hrun : n.holdings.hasInbound.run n.volume with ⟨⟨found, g⟩, v⟩
  have hrun' : n.ask (·.hasInbound) = (found, { n with holdings := g, volume := v }) := ask_eq hrun
  obtain ⟨rfl, rfl⟩ := Prod.mk.inj (hrun'.symm.trans hask)
  rw [hnil] at hrun
  obtain ⟨hinbound, houtbound⟩ := Holdings.knownEmpty_of_hasInbound hrun
  have hmerge : n.merge = { n with holdings := g, volume := v } := by
    rw [Node.merge, hask, hnil]
    rfl
  rw [hmerge]
  exact ⟨hy.sound, hy.view_eq, hinbound, houtbound⟩

/-- A cycle on requests that were raised here, with empty lists, brings a node to rest. -/
theorem Sound.secondCycle (h : n.Sound []) (hrouter : DeliversAtOnce router) (hmay : n.MayRetry)
    (hlist : ∀ b, n.view.list b = []) (hhere : ∀ r ∈ n.view.queued, r.origin = .here) (w : ω) :
    (Node.cycle router (n, w)).1.AtRest ∧
      (Node.cycle router (n, w)).1.view = { n.view with queued := 0 } := by
  obtain ⟨hsound₁, hserved⟩ := h.serveQueues hrouter w
  rcases hserve : Node.serveQueues router (n, w) with ⟨n₁, w₁⟩
  rw [hserve] at hsound₁ hserved
  have hview₁ : n₁.view = { n.view with queued := 0 } := hserved.same hhere
  have hmay₁ : n₁.MayRetry := MayRetry.of_sameClock (n := n) hmay
    ⟨hserved.clock.clock, hserved.clock.idlePoll, hserved.clock.lastRetry⟩
  obtain ⟨n₂, hdue, hsound₂, hview₂, hknown⟩ := hsound₁.retryDue_of_nil hmay₁ fun o => by
    rw [hview₁]
    exact hlist _
  obtain ⟨-, hview₃, hinbound, houtbound⟩ := hsound₂.merge_of_nil (by
    rw [hview₂, hview₁]
    exact hlist _)
  have hcycle : Node.cycle router (n, w) = (n₂.merge, w₁) := by
    simp only [Node.cycle, hserve, Node.retry, hdue]
  have hview : n₂.merge.view = { n.view with queued := 0 } := hview₃.trans (hview₂.trans hview₁)
  rw [hcycle]
  refine ⟨⟨queues_eq_empty ?_, hinbound, ?_⟩, hview⟩
  · rw [hview]
  · rw [houtbound]
    exact hknown

/-- What it means that a node came to rest while some messages are in flight: from now on there is
nothing to do, and a cycle sends nothing and changes nothing. -/
structure Settled (flying : Multiset Carried) (n : Node) : Prop where
  queues : n.queues = .empty
  list : ∀ b, n.view.list b = []
  flying : n.view.flying = flying
  hasWork : ∀ later, (n.wait later).hasWork = (false, n.wait later)
  cycle : ∀ (later : Nat) {ω : Type} (router : Router ω) (w : ω),
    Node.cycle router (n.wait later, w) = (n.wait later, w)

/-- **A healthy node comes to rest in two cycles.**  Whatever waits, is in flight or in the lists of
a sound node: if every message is delivered at once, and the time to retry has come before each of
two cycles, then after them the node is settled, and in flight is what was in flight before. -/
theorem comes_to_rest (h : n.Sound []) (hrouter : DeliversAtOnce router) (w : ω)
    (hmay : n.MayRetry) (pause : Nat)
    (hmay' : ((Node.cycle router (n, w)).1.wait pause).MayRetry) :
    let s := Node.cycle router (n, w)
    (Node.cycle router (s.1.wait pause, s.2)).1.Settled n.view.flying := by
  intro s
  obtain ⟨hsound, hflying, hlist, hhere⟩ := h.firstCycle hrouter hmay w
  have hwaited : (s.1.wait pause).Sound [] := ⟨hsound.inventory, hsound.named⟩
  obtain ⟨hrest, hview⟩ := hwaited.secondCycle hrouter hmay' hlist hhere s.2
  constructor
  · exact hrest.queues
  · intro b
    rw [hview]
    exact hlist b
  · rw [hview]
    exact hflying
  · intro later
    exact (hrest.wait later).hasWork
  · intro later _ router' w'
    exact (hrest.wait later).cycle router' w'

/-- A node with an entry to send again serves an update that moves an entry out of its path: after
the first cycle the insertion of that entry waits. -/
theorem comes_to_rest_of_update :
    let router : Router Unit := fun d n w => (n.report d.sender d.message.header.id true, w)
    let moved := { Sample.entry "b" ⟨[true]⟩ with payload := "moved" }
    let prepared (n : Node) : Node :=
      (n.requeue .delete [Sample.entry "a" ⟨[false]⟩]).submitFrom .update (.entries [moved])
        (.ofSerial 7) (.ofSerial 8) true
    ∃ n, openAt (Sample.peer ⟨[true]⟩) (.ofBits 8) 5 .root .empty = .ok n ∧
      let s := Node.cycle router (prepared n, ())
      s.1.queues.length = 1 ∧
        (Node.cycle router (s.1.wait 5, s.2)).1.Settled (prepared n).view.flying := by
  intro router moved prepared
  obtain ⟨n, hopen, hn, -⟩ := openAt_sound rfl Volume.vacant_empty (Sample.peer ⟨[true]⟩)
    (.ofBits 8) 5
  have hruns : (openAt (Sample.peer ⟨[true]⟩) (.ofBits 8) 5 .root .empty).toOption.map (fun n =>
      let s := Node.cycle router (prepared n, ())
      (s.1.queues.length, decide (prepared n).MayRetry, decide (s.1.wait 5).MayRetry)) =
        some (1, true, true) := by
    decide +kernel
  rw [hopen] at hruns
  obtain ⟨hwaits, hmay⟩ := Prod.mk.inj (Option.some.inj hruns)
  obtain ⟨hmay, hmay'⟩ := Prod.mk.inj hmay
  have hrequeued := (hn.requeue .delete [Sample.entry "a" ⟨[false]⟩]).sound
  have hsound : (prepared n).Sound [] :=
    ((hrequeued.entries_cons [moved]).submitFrom .update (.ofSerial 7) (.ofSerial 8) true).sound
  exact ⟨n, hopen, hwaits, comes_to_rest hsound (fun _ _ _ => rfl) () (of_decide_eq_true hmay) 5
    (of_decide_eq_true hmay')⟩

end Node

end TrieOverlay
