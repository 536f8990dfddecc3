import TrieOverlay.Proofs.Mesh.HandOff

/-!
# What nobody else asks for

An identifier is *reserved* for a key in a mesh (`Mesh.Reserves`) if every change that somebody
asked for and that names the identifier gives it the key, wherever the change waits: in a request,
in a job that is left of a cycle, in a message in flight, in a post, or in a list.  A move keeps it
reserved unless the move itself asks for another change of it (`Mesh.Reserves.step`).  So no run in
which nobody else names the identifier disturbs it (`Mesh.Reserves.undisturbed`,
`Mesh.undisturbed_opened`), and what is handed off then is held for as long as that lasts
(`Mesh.Reserves.held`).
-/

namespace TrieOverlay

variable {schemes : Set KeyScheme} {id : EntryId} {key : Key} {es es' : List Entry} {o : Operation}

/-! ### Changes that agree -/

namespace Operation

theorem Agrees.mono {keys : KeyScheme} (h : o.Agrees keys id key es) (hs : es' ⊆ es) :
    o.Agrees keys id key es' := by
  cases o <;> exact fun e he => h e (hs he)

/-- Whether a change gives an identifier a key, if it names the identifier, whichever of some
schemes makes the keys of payloads where it is made. -/
def AgreesUnder (schemes : Set KeyScheme) (id : EntryId) (key : Key) (o : Operation)
    (es : List Entry) : Prop :=
  ∀ keys ∈ schemes, o.Agrees keys id key es

/-- A change that does not name an identifier agrees with every key of it. -/
theorem agreesUnder_of_forall_ne (h : ∀ e ∈ es, e.id ≠ id) : o.AgreesUnder schemes id key es := by
  intro keys _
  cases o with
  | delete => exact h
  | insert | update => exact fun e he hid => absurd hid (h e he)

theorem agreesUnder_nil : o.AgreesUnder schemes id key [] :=
  agreesUnder_of_forall_ne (List.forall_mem_nil _)

theorem AgreesUnder.mono (h : o.AgreesUnder schemes id key es) (hs : es' ⊆ es) :
    o.AgreesUnder schemes id key es' :=
  fun keys hkeys => (h keys hkeys).mono hs

theorem AgreesUnder.filter (h : o.AgreesUnder schemes id key es) {p : Entry → Bool} :
    o.AgreesUnder schemes id key (es.filter p) :=
  h.mono fun _ he => (List.mem_filter.1 he).1

theorem AgreesUnder.append (h : o.AgreesUnder schemes id key es)
    (h' : o.AgreesUnder schemes id key es') : o.AgreesUnder schemes id key (es ++ es') := by
  intro keys hkeys
  have hall := h keys hkeys
  have hall' := h' keys hkeys
  cases o <;> exact fun e he => (List.mem_append.1 he).elim (hall e) (hall' e)

/-- On their way entries keep what a change depends on. -/
theorem AgreesUnder.arriving {b : Batch} (h : o.AgreesUnder schemes id key b.entries) :
    o.AgreesUnder schemes id key b.arriving := by
  rw [Batch.arriving]
  split
  · intro keys hkeys
    have hall := h keys hkeys
    cases o with
    | insert | update | delete =>
      intro e he
      obtain ⟨e', he', rfl⟩ := List.mem_map.1 he
      exact hall e' he'
  · exact h

end Operation

/-- The change that the entries of a list wait for. -/
def Buffer.operation : Buffer → Operation
  | inbound => .insert
  | outbound o => o

namespace Duty

/-- Whether what a duty asks for, here or elsewhere, agrees with a key of an identifier. -/
def Agrees (schemes : Set KeyScheme) (id : EntryId) (key : Key) : Duty → Prop
  | serve _ r => r.operation.AgreesUnder schemes id key r.entries
  | send task _ b | apply task _ b _ | share task _ b =>
    task.operation.AgreesUnder schemes id key b.entries
  | drop | retry | resend _ | merge => True

variable {task : Task} {path : Key} {b : Batch}

theorem agrees_sends (h : task.operation.AgreesUnder schemes id key b.entries) :
    ∀ d ∈ sends task path b, d.Agrees schemes id key := by
  intro d hd
  obtain ⟨i, branch, p, -, -, hp, rfl⟩ := mem_sends hd
  exact h.filter.mono (Batch.part_subset hp)

/-- The parts of a batch ask for nothing that the batch does not ask for. -/
theorem agrees_split (h : task.operation.AgreesUnder schemes id key b.entries) {f : Batch → Duty}
    (hf : ∀ p, task.operation.AgreesUnder schemes id key p.entries →
      (f p).Agrees schemes id key) :
    ∀ d ∈ sends task path b ++ (b.owned path).toList.map f, d.Agrees schemes id key := by
  intro d hd
  rcases List.mem_append.1 hd with hd | hd
  · exact agrees_sends h d hd
  · obtain ⟨p, hp, rfl⟩ := List.mem_map.1 hd
    exact hf p (h.filter.mono (Batch.part_subset (Option.mem_toList.1 hp)))

end Duty

/-! ### One node -/

namespace View

/-- Every change that waits at a node, with some duties left, agrees with a key of an identifier,
and so does what the node may still hand off. -/
structure Reserves (schemes : Set KeyScheme) (id : EntryId) (key : Key) (ds : List Duty)
    (w : View) : Prop where
  scheme : w.keys ∈ schemes
  queued : ∀ r ∈ w.queued, r.operation.AgreesUnder schemes id key r.entries
  duties : ∀ d ∈ ds, d.Agrees schemes id key
  flying : ∀ m ∈ w.flying, m.operation.AgreesUnder schemes id key m.entries
  listed : ∀ b : Buffer, b.operation.AgreesUnder schemes id key (w.list b)
  stored : ∀ k, w.rows.keyAt? id = some k → k = key ∨ w.peer.path.owns k = true

variable {w w' : View} {ds ds' : List Duty} {d : Duty} {path : Key}

/-! #### Parts of a view -/

theorem Reserves.queue (h : w.Reserves schemes id key ds) {r : Errand}
    (hr : r.operation.AgreesUnder schemes id key r.entries) :
    (w.queue r).Reserves schemes id key ds := by
  refine { h with queued := fun r' hr' => ?_ }
  rcases Multiset.mem_cons.1 hr' with rfl | hr'
  · exact hr
  · exact h.queued r' hr'

theorem Reserves.fly (h : w.Reserves schemes id key ds) {m : Carried}
    (hm : m.operation.AgreesUnder schemes id key m.entries) :
    (w.fly m).Reserves schemes id key ds := by
  refine { h with flying := fun m' hm' => ?_ }
  rcases Multiset.mem_cons.1 hm' with rfl | hm'
  · exact hm
  · exact h.flying m' hm'

theorem Reserves.setList (h : w.Reserves schemes id key ds) {b : Buffer}
    (hes : b.operation.AgreesUnder schemes id key es) :
    (w.setList b es).Reserves schemes id key ds := by
  refine { h with listed := fun b' => ?_ }
  rw [list_setList]
  split
  · rename_i hb
    exact hb ▸ hes
  · exact h.listed b'

theorem Reserves.append (h : w.Reserves schemes id key ds) {b : Buffer}
    (hes : b.operation.AgreesUnder schemes id key es) :
    (w.append b es).Reserves schemes id key ds :=
  h.setList ((h.listed b).append hes.filter)

theorem Reserves.upserts (h : w.Reserves schemes id key ds)
    (hes : ∀ e ∈ es, e.id = id → e.key = key) :
    (w.setRows (es.foldl .upsert w.rows)).Reserves schemes id key ds := by
  refine { h with stored := fun k hk => ?_ }
  rcases Store.Rows.exists_of_keyAt?_foldl_upsert hk with ⟨e, he, hid, rfl⟩ | hk
  · exact Or.inl (hes e he hid)
  · exact h.stored k hk

theorem Reserves.deletes (h : w.Reserves schemes id key ds) (ids : List EntryId) :
    (w.setRows (w.rows.deleteAll ids).2).Reserves schemes id key ds := by
  refine { h with stored := fun k hk => ?_ }
  change (w.rows.deleteAll ids).2.keyAt? id = some k at hk
  rw [Store.Rows.keyAt?_deleteAll] at hk
  split at hk
  · cases hk
  · exact h.stored k hk

/-! #### Duties -/

/-- An applied change leaves an identifier reserved if it agrees. -/
theorem Reserves.apply (h : w.Reserves schemes id key ds)
    (ho : o.AgreesUnder schemes id key es) :
    (w.apply path o es).Reserves schemes id key ds := by
  cases o with
  | insert => exact h.append (b := .inbound) ho
  | update =>
    have hrekeyed (p : Entry → Bool) :
        ∀ e ∈ (es.filter p).map (Holdings.rekey w.keys), e.id = id → e.key = key := by
      intro e he hid
      obtain ⟨e', he', rfl⟩ := List.mem_map.1 he
      exact ho w.keys h.scheme e' (List.mem_filter.1 he').1 hid
    have hstaying : (w.setRows ((w.staying path es).foldl .upsert w.rows)).Reserves
        schemes id key ds := h.upserts (hrekeyed _)
    have hrows := hstaying.deletes ((w.leaving path es).map (·.id))
    simp only [View.apply]
    split
    · exact hrows
    · exact hrows.queue fun _ _ => hrekeyed _
  | delete => exact h.deletes _

theorem Reserves.merge (h : w.Reserves schemes id key ds) : w.merge.Reserves schemes id key ds := by
  have hempty : (w.setList .inbound []).Reserves schemes id key ds :=
    h.setList Operation.agreesUnder_nil
  exact hempty.upserts (h.listed .inbound w.keys h.scheme)

/-- The duties that come of a duty ask for nothing else. -/
theorem Reserves.agrees_of_fulfils (h : w.Reserves schemes id key (d :: ds))
    (hf : w.Fulfils d ds' w') : ∀ d' ∈ ds', d'.Agrees schemes id key := by
  have hd := h.duties d (List.mem_cons_self ..)
  cases hf with
  | root => exact List.forall_mem_singleton.2 hd
  | split | splitOther =>
    refine Duty.agrees_split ?_ fun _ hp => hp
    exact hd
  | replica => exact List.forall_mem_singleton.2 hd
  | @apply task path b shared w =>
    refine List.forall_mem_singleton.2 ?_
    cases shared with
    | true => exact hd
    | false => trivial
  | retry =>
    intro d' hd'
    obtain ⟨o, -, rfl⟩ := List.mem_map.1 hd'
    trivial
  | @resend parent o w _ => exact List.forall_mem_singleton.2 (h.listed (.outbound o)).filter
  | nothing | drop | wait | resendNothing | merge => exact List.forall_mem_nil _

/-- **Whatever a node does leaves an identifier reserved.** -/
theorem Reserves.fulfils (h : w.Reserves schemes id key (d :: ds)) (hf : w.Fulfils d ds' w') :
    w'.Reserves schemes id key (ds' ++ ds) := by
  have hduties : ∀ d' ∈ ds' ++ ds, d'.Agrees schemes id key := by
    intro d' hd'
    rcases List.mem_append.1 hd' with hd' | hd'
    · exact h.agrees_of_fulfils hf d' hd'
    · exact h.duties d' (List.mem_cons_of_mem _ hd')
  have hw : w.Reserves schemes id key (ds' ++ ds) := { h with duties := hduties }
  cases hf with
  | @apply task path b shared w => exact hw.apply (h.duties _ (List.mem_cons_self ..))
  | resend => exact hw.setList Operation.agreesUnder_nil
  | merge => exact hw.merge
  | _ => exact hw

/-! #### What comes to a node -/

/-- A report on a message puts by only what the message asked for. -/
theorem Reserves.settle (h : w.Reserves schemes id key ds) {m : Carried} {rest : Multiset Carried}
    (hm : w.flying = m ::ₘ rest) (delivered : Bool) :
    (View.settle { w with flying := rest } m.operation m.entries delivered).Reserves
      schemes id key ds := by
  have hrest : ({ w with flying := rest } : View).Reserves schemes id key ds :=
    { h with flying := fun m' hm' => h.flying m' (hm ▸ Multiset.mem_cons_of_mem hm') }
  cases delivered with
  | true => exact hrest
  | false =>
    exact hrest.append (b := .outbound m.operation)
      (h.flying m (hm ▸ Multiset.mem_cons_self m rest))

/-- Only entries whose stored keys are not owned are handed off. -/
theorem Reserves.redistribute (h : w.Reserves schemes id key ds) (hw : w.rows.Linked) :
    w.redistribute.Reserves schemes id key ds := by
  simp only [View.redistribute]
  split
  · exact h
  · refine (h.deletes _).queue fun _ _ e he hid => ?_
    obtain ⟨hkey, hforeign⟩ := hw.keyAt?_of_mem_foreignTo (List.mem_filter.1 he).1
    rw [hid] at hkey
    refine (h.stored e.key hkey).resolve_right fun ho => ?_
    rw [owns_eq_isCompatibleWith, hforeign] at ho
    exact absurd ho (by decide)

theorem Reserves.propagate (h : w.Reserves schemes id key ds)
    (ho : o.AgreesUnder schemes id key es) (propagate : Bool) :
    (w.propagate o es propagate).Reserves schemes id key ds := by
  cases propagate with
  | true => exact h.queue ho
  | false => exact h

/-- The keys that updated entries are stored with do not matter. -/
theorem agreesUnder_underStoredKey (w : View)
    (ho : Operation.update.AgreesUnder schemes id key es) :
    Operation.update.AgreesUnder schemes id key (es.map w.underStoredKey) := by
  intro keys hkeys e he hid
  obtain ⟨e', he', rfl⟩ := List.mem_map.1 he
  rw [rekey_underStoredKey]
  exact ho keys hkeys e' he' ((id_underStoredKey w e').symm.trans hid)

theorem Reserves.change (h : w.Reserves schemes id key ds)
    (ho : o.AgreesUnder schemes id key es) (propagate : Bool) :
    (w.change es propagate o).Reserves schemes id key ds := by
  by_cases hnil : es = []
  · cases o <;> simp only [View.change, View.insert, View.update, View.delete, if_pos hnil] <;>
      exact h
  · cases o <;> simp only [View.change, View.insert, View.update, View.delete, if_neg hnil]
    · exact (h.deletes _).propagate ho propagate
    · exact (h.upserts (ho w.keys h.scheme)).propagate ho propagate
    · have hstored := agreesUnder_underStoredKey w ho
      exact (h.apply hstored.filter).queue hstored

end View

/-! ### All nodes -/

/-- What is left to do, with the batches that it stands for. -/
def Worker.duties (w : Worker) : List Duty :=
  w.agenda.map (·.duty w.node)

/-- Whether the change that a post asks for agrees with a key of an identifier. -/
def Post.Agrees {ι : Type} (schemes : Set KeyScheme) (id : EntryId) (key : Key) (p : Post ι) :
    Prop :=
  ∀ parcel, p.envelope.unwrap = .ok parcel →
    parcel.header.operation.AgreesUnder schemes id key parcel.content.arriving

namespace Mesh

variable {ι : Type} {s : Mesh ι} {i : ι}

/-- Whether the change that a move asks for, if it asks for any, agrees with a key of an
identifier. -/
def Move.Agrees (schemes : Set KeyScheme) (id : EntryId) (key : Key) : Move ι → Prop
  | submit _ r => ∀ es ∈ r.entries?, r.operation.AgreesUnder schemes id key es
  | change _ o es _ => o.AgreesUnder schemes id key es
  | begin _ | work _ | arrive _ _ | tell _ _ | handOff _ | wait _ _ => True

/-- Whatever was asked for in a mesh, and not made yet, agrees with a key of an identifier. -/
structure Reserves (schemes : Set KeyScheme) (id : EntryId) (key : Key) (s : Mesh ι) : Prop where
  views : ∀ i, (s.workers i).view.Reserves schemes id key (s.workers i).duties
  posts : ∀ p ∈ s.posts, p.Agrees schemes id key

/-- What a node posts asks for what the message in flight asks for. -/
theorem agrees_post {n : Node} {d : Dispatch} {content : Content}
    (h : (n.loaded d).operation.AgreesUnder schemes id key (n.loaded d).entries)
    (hc : content.arriving = (n.batch d.message.cargo.payload).arriving) (strategy : Strategy)
    (sender : PeerId) (accepted : Bool) :
    Post.Agrees schemes id key
      ⟨i, d, .wrap strategy sender ⟨d.message.header, content⟩, accepted⟩ := by
  intro parcel hparcel
  rw [Envelope.unwrap_wrap] at hparcel
  obtain rfl := Except.ok.inj hparcel
  rw [hc]
  exact Operation.AgreesUnder.arriving h

/-- Nodes that were just opened have been asked for nothing. -/
theorem reserves_opened {peers : ι → LocalPeer} {keys : ι → KeyScheme} {idlePolls : ι → Nat}
    {nodes : ι → Node}
    (h : ∀ i, Node.openAt (peers i) (keys i) (idlePolls i) .root .empty = .ok (nodes i))
    (id : EntryId) (key : Key) :
    Reserves (Set.range keys) id key ⟨fun i => ⟨nodes i, []⟩, []⟩ := by
  refine ⟨fun i => ?_, by simp⟩
  obtain ⟨n, hopen, -, hidle, -, hkeys, hrows⟩ :=
    Node.openAt_sound rfl Volume.vacant_empty (peers i) (keys i) (idlePolls i)
  obtain rfl : nodes i = n := Except.ok.inj ((h i).symm.trans hopen)
  change (nodes i).view.Reserves (Set.range keys) id key []
  refine ⟨⟨i, hkeys.symm⟩, ?_, List.forall_mem_nil _, ?_, fun b => ?_, fun k hk => ?_⟩
  · rw [hidle.queued]
    exact fun r hr => absurd hr (Multiset.notMem_zero r)
  · rw [hidle.flying]
    exact fun m hm => absurd hm (Multiset.notMem_zero m)
  · rw [hidle.list]
    exact Operation.agreesUnder_nil
  · rw [hrows] at hk
    cases hk

/-- The change that the next job of a node makes is one that was asked for. -/
theorem Reserves.agreesUnder_nextChange (h : s.Reserves schemes id key) {i : ι}
    (hc : nextChange (s.workers i) = some (o, es)) : o.AgreesUnder schemes id key es := by
  have hduties := (h.views i).duties
  rw [nextChange, Worker.chores] at hc
  rw [Worker.duties] at hduties
  cases ha : (s.workers i).agenda with
  | nil =>
    rw [ha] at hc
    cases hc
  | cons j js =>
    rw [ha] at hc hduties
    have hd := hduties _ (List.mem_cons_self ..)
    cases j with
    | apply task path x shared =>
      cases hc
      exact hd
    | _ => cases hc

/-- What is applied to a reserved identifier agrees with its key. -/
theorem Reserves.agrees (h : s.Reserves schemes id key) {t : Move ι}
    (ht : t.Agrees schemes id key) : s.Agrees id key t := by
  intro c hc
  have hscheme := (h.views c.1).scheme
  cases t with
  | work i =>
    obtain ⟨a, ha, rfl⟩ := Option.map_eq_some_iff.1 hc
    exact h.agreesUnder_nextChange ha _ hscheme
  | change i o es propagate =>
    cases hc
    exact ht _ hscheme
  | _ => cases hc

/-! ### Moves -/

variable [DecidableEq ι]

/-- What happens at one node leaves an identifier reserved if it does so there. -/
theorem Reserves.of_node (h : s.Reserves schemes id key) {w' : Worker} {posts' : List (Post ι)}
    (hw : w'.view.Reserves schemes id key w'.duties)
    (hp : ∀ p ∈ posts', p ∈ s.posts ∨ p.Agrees schemes id key) :
    Reserves schemes id key ⟨Function.update s.workers i w', posts'⟩ := by
  refine ⟨fun i' => ?_, fun p hmem => (hp p hmem).elim (h.posts p) fun hagrees => hagrees⟩
  change (Function.update s.workers i w' i').view.Reserves schemes id key
    (Function.update s.workers i w' i').duties
  by_cases hi : i' = i
  · subst hi
    rw [Function.update_self]
    exact hw
  · rw [Function.update_of_ne hi]
    exact h.views i'

/-- A step of a node that leaves its agenda alone. -/
theorem Reserves.of_yields (h : s.Reserves schemes id key) {v : View} {n' : Node}
    (hy : (s.workers i).node.Yields (handsOf (s.workers i).agenda) (handsOf (s.workers i).agenda)
      v n') (hv : v.Reserves schemes id key (s.workers i).duties) :
    (s.setNode i n').Reserves schemes id key := by
  refine h.of_node ?_ fun _ => Or.inl
  have hview : Worker.view ⟨n', (s.workers i).agenda⟩ = v := hy.view_eq
  have hduties : Worker.duties ⟨n', (s.workers i).agenda⟩ = (s.workers i).duties :=
    Node.map_duty_congr hy.kept_eq
  rw [hview, hduties]
  exact hv

theorem Reserves.begin (h : s.Reserves schemes id key) (i : ι) :
    (s.step (.begin i)).Reserves schemes id key := by
  simp only [Mesh.step]
  split
  · refine h.of_node ?_ fun _ => Or.inl
    refine { h.views i with
      queued := fun r hr => absurd hr (Multiset.notMem_zero r)
      duties := fun d hd => ?_ }
    obtain ⟨j, hj, rfl⟩ := List.mem_map.1 hd
    rcases List.mem_append.1 hj with hj | hj
    · obtain ⟨r, hr, rfl⟩ := List.mem_map.1 hj
      exact (h.views i).queued _ (Multiset.mem_coe.2 (List.mem_map_of_mem hr))
    · rcases List.mem_cons.1 hj with rfl | hj
      · trivial
      · rw [List.mem_singleton.1 hj]
        trivial
  · exact h

/-- What a node posts is what the dispatch asks for. -/
theorem Reserves.of_post (h : s.Reserves schemes id key) {n' : Node} {d : Dispatch} {js' : List Job}
    (hn : n'.Sound (handsOf js')) (hread : n'.volume.CanRead d.message.cargo.payload)
    (hd : (n'.loaded d).operation.AgreesUnder schemes id key (n'.loaded d).entries)
    (hw : n'.view.Reserves schemes id key (js'.map (·.duty n'))) :
    Reserves schemes id key ⟨Function.update s.workers i ⟨(post i d n' s.posts).1, js'⟩,
      (post i d n' s.posts).2⟩ := by
  obtain ⟨content, hpost, -, harriving⟩ := post_eq hn i hread s.posts
  rw [hpost]
  refine h.of_node hw fun p hp => ?_
  rcases List.mem_append.1 hp with hp | hp
  · exact Or.inl hp
  · rw [List.mem_singleton.1 hp]
    exact Or.inr (agrees_post hd harriving _ _ _)

theorem Reserves.work (h : s.Reserves schemes id key) (hs : s.Sound) (i : ι) :
    (s.step (.work i)).Reserves schemes id key := by
  cases ha : (s.workers i).agenda with
  | nil => simpa [Mesh.step, ha] using h
  | cons j js =>
    have hnode := (hs.workers i).node
    have hview := h.views i
    rw [ha] at hnode
    rw [Worker.duties, ha, List.map_cons] at hview
    obtain ⟨hd, hrest⟩ := List.forall_mem_cons.1 hview.duties
    have hview' : (s.workers i).view.Reserves schemes id key (js.map (·.duty (s.workers i).node)) :=
      { hview with duties := hrest }
    simp only [Mesh.step, ha]
    by_cases hj : j.Routes
    · rcases hj.eq_send_or_share with ⟨task, branch, x, rfl⟩ | ⟨task, path, x, rfl⟩
      · obtain ⟨d, n', hrun, -, hloaded, hread, -, hy⟩ := hnode.perform_send s.posts
        have hm : (n'.loaded d).operation.AgreesUnder schemes id key (n'.loaded d).entries :=
          hloaded ▸ hd
        rw [hrun]
        refine h.of_post hy.sound hread hm ?_
        rw [List.nil_append, hy.view_eq, Node.map_duty_congr hy.kept_eq]
        exact hview'.fly hm
      · obtain ⟨d, n', hrun, -, hloaded, hread, -, hy⟩ := hnode.perform_share s.posts
        have hm : (n'.loaded d).operation.AgreesUnder schemes id key (n'.loaded d).entries :=
          hloaded ▸ hd
        rw [hrun]
        refine h.of_post hy.sound hread hm ?_
        change n'.view.Reserves schemes id key ((Job.drop x :: js).map (·.duty n'))
        rw [hy.view_eq, Node.map_duty_congr hy.kept_eq]
        exact { hview' with duties := List.forall_mem_cons.2 ⟨trivial, hrest⟩ }
    · obtain ⟨js', n', hrun, hp⟩ := hnode.perform hj s.posts
      rw [hrun]
      refine h.of_node ?_ fun _ => Or.inl
      change n'.view.Reserves schemes id key ((js' ++ js).map (·.duty n'))
      rw [List.map_append, Node.map_duty_congr hp.kept_eq]
      exact hview.fulfils hp.fulfils

theorem Reserves.arrive (h : s.Reserves schemes id key) (hs : s.Sound) (k : Nat) (i : ι) :
    (s.step (.arrive k i)).Reserves schemes id key := by
  cases hp : s.posts[k]? with
  | none => simpa [Mesh.step, hp] using h
  | some p =>
    obtain ⟨n', r, parcel, hstep, hy, hparcel, ho, hentries, -⟩ := hs.exists_arrival hp i
    have hagrees := h.posts p (List.mem_of_getElem? hp)
    have hr : r.operation.AgreesUnder schemes id key r.entries := by
      rw [ho, hentries]
      exact hagrees parcel hparcel
    have hnode := h.of_yields hy ((h.views i).queue hr)
    rw [hstep]
    refine ⟨hnode.views, fun q hq => ?_⟩
    rcases List.mem_or_eq_of_mem_set hq with hq | rfl
    · exact h.posts q hq
    · exact hagrees

theorem Reserves.tell (h : s.Reserves schemes id key) (hs : s.Sound) (k : Nat) (delivered : Bool) :
    (s.step (.tell k delivered)).Reserves schemes id key := by
  simp only [Mesh.step]
  split
  · exact h
  · rename_i p _
    split
    · exact h
    · have hnode := (hs.workers p.sender).node
      rcases hnode.report p.dispatch.sender p.dispatch.message.header.id delivered with
        ⟨hsame, -⟩ | ⟨m, rest, hm, -, -, hy⟩
      · rw [hsame]
        exact h.of_yields (hnode.yields _) (h.views p.sender)
      · exact h.of_yields hy ((h.views p.sender).settle hm delivered)

/-- **An identifier that nobody else asks for stays reserved.** -/
theorem Reserves.step (h : s.Reserves schemes id key) (hs : s.Sound) {t : Move ι}
    (he : t.Encodable) (ht : t.Agrees schemes id key) :
    (s.step t).Reserves schemes id key := by
  cases t with
  | begin i => exact h.begin i
  | work i => exact h.work hs i
  | arrive k i => exact h.arrive hs k i
  | tell k delivered => exact h.tell hs k delivered
  | handOff i =>
    obtain ⟨k, n', hrun, hy⟩ := (hs.workers i).node.redistribute
    rw [Mesh.step, hrun]
    exact h.of_yields hy ((h.views i).redistribute (hs.workers i).linked)
  | submit i r =>
    obtain ⟨es, hes, -⟩ := he
    obtain ⟨b, n', message, hrun, hy⟩ := (hs.workers i).node.submitTo hes
    rw [Mesh.step, hrun]
    exact h.of_yields hy ((h.views i).queue (ht es hes))
  | change i o es propagate =>
    exact h.of_yields (yields_changed (hs.workers i).node es propagate o)
      ((h.views i).change ht propagate)
  | wait i milliseconds =>
    exact h.of_yields ((hs.workers i).node.wait milliseconds) (h.views i)

/-- **A run in which nobody else names an identifier does not disturb it.** -/
theorem Reserves.undisturbed (h : s.Reserves schemes id key) (hs : s.Sound) {moves : List (Move ι)}
    (he : ∀ t ∈ moves, t.Encodable) (ha : ∀ t ∈ moves, t.Agrees schemes id key) :
    Undisturbed id key moves s := by
  induction moves generalizing s with
  | nil => trivial
  | cons t moves ih =>
    obtain ⟨het, he⟩ := List.forall_mem_cons.1 he
    obtain ⟨hat, ha⟩ := List.forall_mem_cons.1 ha
    exact ⟨h.agrees hat, ih (h.step hs het hat) (hs.step het) he ha⟩

/-- What a node hands off is held for as long as nobody else names its identifier. -/
theorem Reserves.held (h : s.Reserves schemes id key) (hs : s.Sound) {t : Move ι}
    (hoff : Bears (s.handedOff t) id key) (ht : t.Agrees schemes id key) {moves : List (Move ι)}
    (he : ∀ t ∈ moves, t.Encodable) (ha : ∀ t ∈ moves, t.Agrees schemes id key) :
    ((s.step t).run moves).Held id key ∨ ((s.step t).run moves).Served id key := by
  have hte := encodable_of_handedOff hoff
  have hguarded := Guarded.of_handedOff hs hoff
  have hundisturbed := (h.step hs hte ht).undisturbed (hs.step hte) he ha
  exact (hguarded.run (hs.step hte) he hundisturbed).held

/-- **Among nodes that were just opened, a run disturbs an identifier only if somebody asks for
another change of it.** -/
theorem undisturbed_opened {peers : ι → LocalPeer} {keys : ι → KeyScheme} {idlePolls : ι → Nat}
    {nodes : ι → Node}
    (h : ∀ i, Node.openAt (peers i) (keys i) (idlePolls i) .root .empty = .ok (nodes i))
    {moves : List (Move ι)} (he : ∀ t ∈ moves, t.Encodable)
    (ha : ∀ t ∈ moves, t.Agrees (Set.range keys) id key) :
    Undisturbed id key moves ⟨fun i => ⟨nodes i, []⟩, []⟩ :=
  (reserves_opened h id key).undisturbed (sound_opened h) he ha

end Mesh

end TrieOverlay
