import TrieOverlay.Proofs.Node.Duties

/-!
# Jobs on what a node has

A *chore* is a duty with the entries that it stands for and nothing else: neither the order of the
parts of a batch nor where they go.  `View.Does` says what doing a chore makes of the view of a
node, and `View.Fulfils.does` that every duty does its chore.  `Node.cycle_invariant` is the
induction over a cycle in these terms: a property of the chores that are left and the view holds
after a cycle if every chore keeps it and the router keeps it.
-/

namespace TrieOverlay

/-- A job with the entries that it stands for. -/
inductive Chore where
  /-- Serve a request. -/
  | serve (errand : Errand)
  /-- Send entries toward another subtree. -/
  | send (operation : Operation) (entries : List Entry)
  /-- Apply owned entries for a peer at a path. -/
  | apply (operation : Operation) (path : Key) (entries : List Entry)
  /-- Share a payload with the replicas, or release it. -/
  | idle
  /-- Send the outbound lists again, if that is due. -/
  | retry
  /-- Send the outbound list of an operation again. -/
  | resend (operation : Operation)
  /-- Merge the inbound list. -/
  | merge

/-- A job with the entries that its payload stands for. -/
def Job.chore (n : Node) : Job → Chore
  | serve r => .serve (n.errand r)
  | send task _ x => .send task.operation (n.entriesIn x)
  | apply task path x _ => .apply task.operation path (n.entriesIn x)
  | share _ _ _ | drop _ => .idle
  | retry => .retry
  | resend o => .resend o
  | merge => .merge

namespace View

/-- What a chore that does not call the router makes of a view, and the chores that come of it. -/
inductive Does : Chore → View → List Chore → View → Prop
  | nothing {r : Errand} {w : View} : r.origin = .here → r.entries = [] → Does (.serve r) w [] w
  | root {r : Errand} {w : View} : r.origin = .here → w.peer.isSuperPeer = false →
      Does (.serve r) w [.send r.operation r.entries] w
  | split {r : Errand} {w : View} {parts : List (List Entry)} {rest : List Chore} :
      r.origin = .here → w.peer.isSuperPeer = true →
      parts.flatten.Perm (foreignTo w.peer.path r.kept) →
      rest = [] ∨ rest = [.idle] →
      Does (.serve r) w (parts.map (.send r.operation) ++ rest) w
  | splitOther {r : Errand} {w : View} {message : MessageId} {parent : RequestId}
      {parts : List (List Entry)} {rest : List Chore} :
      r.origin = .peer message parent false →
      parts.flatten.Perm (foreignTo w.peer.path r.kept) →
      (rest = [] ∧ ownedBy w.peer.path r.kept = []) ∨
        rest = [.apply r.operation w.peer.path (ownedBy w.peer.path r.kept)] →
      Does (.serve r) w (parts.map (.send r.operation) ++ rest) w
  | replica {r : Errand} {w : View} {message : MessageId} {parent : RequestId} :
      r.origin = .peer message parent true →
      Does (.serve r) w [.apply r.operation w.peer.path r.entries] w
  | apply {o : Operation} {path : Key} {es : List Entry} {w : View} :
      Does (.apply o path es) w [.idle] (w.apply path o es)
  | idle {w : View} : Does .idle w [] w
  | wait {w : View} : Does .retry w [] w
  | retry {w : View} : Does .retry w (Operation.all.map .resend) w
  | resendNothing {o : Operation} {w : View} : w.list (.outbound o) = [] →
      Does (.resend o) w [] w
  | resend {o : Operation} {w : View} : w.list (.outbound o) ≠ [] →
      Does (.resend o) w
        [.serve
          ⟨o, .here, (w.list (.outbound o)).filter fun e => Bulk.Line.isEncodable e, true⟩]
        (w.setList (.outbound o) [])
  | merge {w : View} : Does .merge w [] w.merge

variable {c : Chore} {cs' : List Chore} {w w' : View}

theorem apply_frame (w : View) (path : Key) (o : Operation) (es : List Entry) :
    (w.apply path o es).peer = w.peer ∧ (w.apply path o es).keys = w.keys ∧
      (w.apply path o es).flying = w.flying := by
  cases o with
  | insert => exact ⟨rfl, rfl, rfl⟩
  | delete => exact ⟨rfl, rfl, rfl⟩
  | update =>
    simp only [apply]
    split <;> exact ⟨rfl, rfl, rfl⟩

/-- No chore changes the peer. -/
theorem Does.peer_eq (hd : w.Does c cs' w') : w'.peer = w.peer := by
  cases hd with
  | apply => exact (apply_frame ..).1
  | _ => rfl

/-- No chore changes the keys of payloads. -/
theorem Does.keys_eq (hd : w.Does c cs' w') : w'.keys = w.keys := by
  cases hd with
  | apply => exact (apply_frame ..).2.1
  | _ => rfl

/-- No chore changes what is in flight. -/
theorem Does.flying_eq (hd : w.Does c cs' w') : w'.flying = w.flying := by
  cases hd with
  | apply => exact (apply_frame ..).2.2
  | _ => rfl

/-- To apply entries leaves the requests that wait, or adds the insertion of what an update moves. -/
theorem queued_apply (w : View) (path : Key) (o : Operation) (es : List Entry) :
    (w.apply path o es).queued = w.queued ∨
      (w.apply path o es).queued = ⟨.insert, .here, w.moved path es, false⟩ ::ₘ w.queued := by
  cases o with
  | insert => exact Or.inl rfl
  | delete => exact Or.inl rfl
  | update =>
    simp only [apply]
    split
    · exact Or.inl rfl
    · exact Or.inr rfl

/-- To apply entries leaves the outbound lists. -/
theorem list_outbound_apply (w : View) (path : Key) (o o' : Operation) (es : List Entry) :
    (w.apply path o es).list (.outbound o') = w.list (.outbound o') := by
  cases o with
  | insert => simp [apply, append, list_setList]
  | delete => rfl
  | update =>
    simp only [apply]
    split <;> rfl

/-- A chore leaves the requests that wait, or adds an insertion that is raised here. -/
theorem Does.queued_cases (hd : w.Does c cs' w') :
    w'.queued = w.queued ∨ ∃ es, w'.queued = ⟨.insert, .here, es, false⟩ ::ₘ w.queued := by
  cases hd with
  | @apply o path es w =>
    rcases queued_apply w path o es with hsame | hmore
    · exact Or.inl hsame
    · exact Or.inr ⟨_, hmore⟩
  | _ => exact Or.inl rfl

/-- What waits goes on waiting while a chore is done. -/
theorem Does.queued_subset (hd : w.Does c cs' w') : w.queued ⊆ w'.queued := by
  rcases hd.queued_cases with hsame | ⟨es, hmore⟩
  · rw [hsame]
    exact Multiset.Subset.refl _
  · rw [hmore]
    exact Multiset.subset_cons _ _

/-- A chore leaves an outbound list or empties it. -/
theorem Does.outbound_cases (hd : w.Does c cs' w') (o : Operation) :
    w'.list (.outbound o) = w.list (.outbound o) ∨ w'.list (.outbound o) = [] := by
  cases hd with
  | apply => exact Or.inl (list_outbound_apply ..)
  | resend _ =>
    rw [list_setList]
    split
    · exact Or.inr rfl
    · exact Or.inl rfl
  | merge =>
    left
    rw [View.merge, setRows, list_setList, if_neg (by simp)]
  | _ => exact Or.inl rfl

end View

/-! ### Duties as chores -/

/-- A duty with the entries that it stands for and nothing else. -/
def Duty.chore : Duty → Chore
  | serve _ r => .serve r
  | send task _ b => .send task.operation b.entries
  | apply task path b _ => .apply task.operation path b.entries
  | share _ _ _ | drop => .idle
  | retry => .retry
  | resend o => .resend o
  | merge => .merge

theorem Job.chore_duty (n : Node) (j : Job) : (j.duty n).chore = j.chore n := by
  cases j <;> rfl

/-- The parts at the levels are sent, and are together what a path does not own. -/
theorem Duty.map_chore_sends (task : Task) (path : Key) (b : Batch) :
    ∃ parts : List (List Entry),
      (Duty.sends task path b).map Duty.chore = parts.map (.send task.operation) ∧
        parts.flatten.Perm (foreignTo path (b.kept b.entries)) := by
  let parts := (List.range path.length).filterMap (b.partAt path)
  refine ⟨parts.map Batch.entries, ?_, ?_⟩
  · rw [sends, List.map_filterMap, List.map_map, List.map_filterMap]
    refine List.filterMap_congr fun i hi => ?_
    obtain ⟨branch, hbranch⟩ := Job.exists_branchAt? (List.mem_range.1 hi)
    rw [hbranch]
    cases b.partAt path i <;> rfl
  · -- a level without a part has no entries, so the levels may be compared one by one
    have hflatten : (parts.map Batch.entries).flatten =
        (List.range path.length).flatMap fun i => (b.partAt path i).elim [] Batch.entries := by
      simp only [parts]
      rw [← List.flatMap_def, List.filterMap_eq_flatMap_toList, List.flatMap_assoc]
      refine List.flatMap_congr fun i _ => ?_
      cases b.partAt path i with
      | none => rfl
      | some p => exact List.append_nil _
    have hlevel : (fun i => (b.partAt path i).elim [] Batch.entries) = fun i =>
        atLevel path i (b.kept b.entries) := by
      funext i
      rw [Batch.partAt, Batch.part_elim, atLevel, atLevel, Batch.kept_filter]
    rw [hflatten, hlevel]
    exact flatMap_atLevel_perm path _

/-- The owned part has the owned entries. -/
theorem Batch.owned_cases (b : Batch) (path : Key) :
    (b.owned path = none ∧ ownedBy path (b.kept b.entries) = []) ∨
      b.owned path = some ⟨ownedBy path (b.kept b.entries), b.inFile⟩ := by
  have hkept : b.kept (ownedBy path b.entries) = ownedBy path (b.kept b.entries) :=
    b.kept_filter _ _
  rw [← hkept, owned, part]
  split
  · rename_i hnil
    rw [hnil, kept, List.filter_nil, ite_self]
    exact Or.inl ⟨rfl, rfl⟩
  · exact Or.inr rfl

/-- What fulfils a duty does its chore. -/
theorem View.Fulfils.does {d : Duty} {ds : List Duty} {w w' : View} (hf : w.Fulfils d ds w') :
    w.Does d.chore (ds.map Duty.chore) w' := by
  cases hf with
  | nothing hhere hnil => exact .nothing hhere hnil
  | root hhere hs => exact .root hhere hs
  | @split parent r w hhere hs =>
    obtain ⟨parts, hsends, hperm⟩ := Duty.map_chore_sends (r.task parent) w.peer.path r.batch
    rw [List.map_append, hsends]
    refine .split hhere hs hperm ?_
    cases r.batch.owned w.peer.path with
    | none => exact Or.inl rfl
    | some p => exact Or.inr rfl
  | @splitOther parent r w message sender hother =>
    obtain ⟨parts, hsends, hperm⟩ := Duty.map_chore_sends (r.task parent) w.peer.path r.batch
    rw [List.map_append, hsends]
    refine .splitOther hother hperm ?_
    rcases r.batch.owned_cases w.peer.path with ⟨hnone, hnil⟩ | hsome
    · rw [hnone]
      exact Or.inl ⟨rfl, hnil⟩
    · rw [hsome]
      exact Or.inr rfl
  | replica hother => exact .replica hother
  | @apply task path b shared w => cases shared <;> exact .apply
  | drop => exact .idle
  | wait => exact .wait
  | retry => exact .retry
  | resendNothing hnil => exact .resendNothing hnil
  | resend hne => exact .resend hne
  | merge => exact .merge

/-- No duty changes the peer. -/
theorem View.Fulfils.peer_eq {d : Duty} {ds : List Duty} {w w' : View} (hf : w.Fulfils d ds w') :
    w'.peer = w.peer :=
  hf.does.peer_eq

namespace Node

variable {ω : Type} {router : Router ω} {n n' : Node} {j : Job} {js js' : List Job} {w : ω}

theorem map_chore_duty (n : Node) (js : List Job) :
    (js.map (·.duty n)).map Duty.chore = js.map (·.chore n) := by
  rw [List.map_map]
  exact List.map_congr_left fun j _ => j.chore_duty n

/-- Chores are the same when the payloads in hand stand for the same entries. -/
theorem map_chore_congr (h : ∀ x ∈ handsOf js, n'.entriesIn x = n.entriesIn x) :
    js.map (·.chore n') = js.map (·.chore n) := by
  rw [← map_chore_duty, map_duty_congr h, map_chore_duty]

theorem Performs.does (h : n.Performs j js js' n') :
    n.view.Does (j.chore n) (js'.map (·.chore n')) n'.view := by
  have hdoes := h.fulfils.does
  rwa [j.chore_duty, map_chore_duty] at hdoes

theorem Performs.rest_eq (h : n.Performs j js js' n') :
    js.map (·.chore n') = js.map (·.chore n) :=
  map_chore_congr h.kept_eq

/-- What is left to do when a cycle begins. -/
def startingChores (n : Node) : List Chore :=
  (n.queues.inOrder.map fun r => .serve (n.errand r)) ++ [.retry, .merge]

/-- A property of the chores that are left, the view and the surroundings holds of a sound node. -/
structure Meets (I : List Chore → View → ω → Prop) (js : List Job) (s : Node × ω) : Prop where
  sound : s.1.Sound (handsOf js)
  holds : I (js.map (·.chore s.1)) s.1.view s.2

/-- A router keeps a property of the chores that are left, the view and the surroundings, while a
message is in flight that it was given, or a payload is shared. -/
structure RouterKeeps (router : Router ω) (I : List Chore → View → ω → Prop) : Prop where
  send : ∀ d n js v w branch, n.Sound (handsOf js) → d.target = .toward branch →
    n.view = v.fly (n.loaded d) →
    I (.send (n.loaded d).operation (n.loaded d).entries :: js.map (·.chore n)) v w →
    Meets I js (router d n w)
  share : ∀ d n js w, n.Sound (handsOf js) → d.target = .replicas →
    I (js.map (·.chore n)) n.view w → Meets I js (router d n w)

/-- A node whose requests are about to be served. -/
theorem Sound.startCycle (h : n.Sound []) :
    ({ n with queues := .empty } : Node).Sound
      (handsOf (n.queues.inOrder.map .serve ++ [.retry, .merge])) := by
  rw [handsOf_start]
  exact ⟨h.inventory, h.named⟩

/-- What every chore and the router keep holds after a cycle. -/
theorem cycle_invariant {I : List Chore → View → ω → Prop}
    (hdoes : ∀ c cs cs' v v' w, v.Does c cs' v' → I (c :: cs) v w → I (cs' ++ cs) v' w)
    (hroute : RouterKeeps router I) (h : n.Sound [])
    (hI : I n.startingChores { n.view with queued := 0 } w) :
    Meets I [] (cycle router (n, w)) := by
  refine cycle_induction (I := Meets I) ?_ ⟨h.startCycle, ?_⟩
  · rintro j js ⟨n, w⟩ ⟨hsound, hI⟩
    by_cases hj : j.Routes
    · rcases hj.eq_send_or_share with ⟨task, branch, x, rfl⟩ | ⟨task, path, x, rfl⟩
      · obtain ⟨d, n', hrun, htarget, hloaded, -, -, hy⟩ := hsound.perform_send w
        rw [hrun]
        refine hroute.send d n' js n.view w branch hy.sound htarget hy.view_eq ?_
        rw [map_chore_congr hy.kept_eq, hloaded]
        exact hI
      · obtain ⟨d, n', hrun, htarget, -, -, -, hy⟩ := hsound.perform_share w
        rw [hrun]
        refine hroute.share d n' (.drop x :: js) w hy.sound htarget ?_
        rw [map_chore_congr hy.kept_eq, hy.view_eq]
        exact hI
    · obtain ⟨js', n', hrun, hp⟩ := hsound.perform hj w
      rw [hrun]
      refine ⟨hp.sound, ?_⟩
      rw [List.map_append, hp.rest_eq]
      exact hdoes _ _ _ _ _ _ hp.does hI
  · rw [List.map_append, List.map_map]
    exact hI

end Node

end TrieOverlay
