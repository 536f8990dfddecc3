import TrieOverlay.Proofs.Mesh.Steps

/-!
# No entry that was handed off is lost

When a node hands an entry off, because its path does not own the key of the entry or because an
update gave it such a key, the entry is guarded by some node from then on (`Mesh.Guarded.step`): by
the node that handed it off, until another node accepted the message, and by that node in its turn.
So it is always held somewhere (`Mesh.held_of_handedOff`).
-/

namespace TrieOverlay

namespace Chore

/-- The entries that a chore has to insert. -/
def inserts : Chore → List Entry
  | serve r => if r.operation = .insert then r.entries else []
  | send .insert es | apply .insert _ es => es
  | send _ _ | apply _ _ _ | idle | retry | resend _ | merge => []

end Chore

namespace Mesh

variable {ι : Type} {s : Mesh ι} {i : ι} {id : EntryId} {key : Key}

/-- Whether one of some entries has an identifier and a key. -/
def Names (es : List Entry) (id : EntryId) (key : Key) : Prop :=
  ∃ e ∈ es, e.id = id ∧ e.key = key

/-- An identifier is held under a key somewhere in a mesh. -/
inductive Held (s : Mesh ι) (id : EntryId) (key : Key) : Prop
  /-- In a request that waits. -/
  | queued {i : ι} {r : Errand} : r ∈ (s.workers i).view.queued → r.operation = .insert →
      Names r.entries id key → Held s id key
  /-- In a message in flight. -/
  | flying {i : ι} {m : Carried} : m ∈ (s.workers i).view.flying → m.operation = .insert →
      Names m.entries id key → Held s id key
  /-- In an outbound list. -/
  | outbound {i : ι} : Names ((s.workers i).view.list (.outbound .insert)) id key → Held s id key
  /-- In the inbound list of a node whose path owns the key. -/
  | inbound {i : ι} : (s.workers i).view.peer.path.owns key = true →
      Names ((s.workers i).view.list .inbound) id key → Held s id key
  /-- In the store of a node whose path owns the key. -/
  | stored {i : ι} : (s.workers i).view.peer.path.owns key = true →
      (s.workers i).view.rows.keyAt? id = some key → Held s id key

/-- A node in the middle of its cycle still has to insert an identifier under a key. -/
def Served (s : Mesh ι) (id : EntryId) (key : Key) : Prop :=
  ∃ i, ∃ c ∈ (s.workers i).chores, Names c.inserts id key

/-- Between two cycles of a node, the node serves nothing. -/
theorem not_served (h : ∀ i, (s.workers i).agenda = []) : ¬s.Served id key := by
  rintro ⟨i, c, hc, -⟩
  rw [Worker.chores, h i] at hc
  exact absurd hc List.not_mem_nil

/-- The entries that a move hands off: those that a node removes, because they do not belong to its
path, to have them inserted where they belong. -/
def handedOff (s : Mesh ι) : Move ι → List Entry
  | .handOff i => (s.workers i).view.rows.foreignTo (s.workers i).view.peer.path
  | .work i =>
    match (s.workers i).chores.head? with
    | some (.apply .update path es) => (s.workers i).view.moved path es
    | _ => []
  | .change i .update es _ =>
    (s.workers i).view.moved (s.workers i).view.peer.path ((s.workers i).view.updatedHere es)
  | .change _ _ _ _ | .begin _ | .arrive _ _ | .tell _ _ | .submit _ _ | .wait _ _ => []

/-- A job that hands entries off applies an update. -/
theorem exists_of_handedOff_work (h : Bears (s.handedOff (.work i)) id key) :
    ∃ task path x shared js, (s.workers i).agenda = .apply task path x shared :: js ∧
      task.operation = .update ∧
      Bears ((s.workers i).view.moved path ((s.workers i).node.entriesIn x)) id key := by
  cases ha : (s.workers i).agenda with
  | nil =>
    simp only [handedOff, Worker.chores, ha, List.map_nil, List.head?_nil] at h
    exact absurd h not_bears_nil
  | cons j js =>
    simp only [handedOff, Worker.chores, ha, List.map_cons, List.head?_cons] at h
    cases j with
    | apply task path x shared =>
      cases ho : task.operation with
      | update =>
        simp only [Job.chore, ho] at h
        exact ⟨task, path, x, shared, js, rfl, ho, h⟩
      | insert =>
        simp only [Job.chore, ho] at h
        exact absurd h not_bears_nil
      | delete =>
        simp only [Job.chore, ho] at h
        exact absurd h not_bears_nil
    | _ => exact absurd h not_bears_nil

/-- A submission hands nothing off, so what hands entries off can be written. -/
theorem encodable_of_handedOff {t : Move ι} (h : Bears (s.handedOff t) id key) : t.Encodable := by
  cases t <;> first | exact absurd h not_bears_nil | trivial

/-- Whether a move gives an identifier a key, if it applies anything to the identifier. -/
def Agrees (s : Mesh ι) (id : EntryId) (key : Key) (t : Move ι) : Prop :=
  ∀ c ∈ s.made? t, c.2.1.Agrees (s.workers c.1).view.keys id key c.2.2

instance (s : Mesh ι) (id : EntryId) (key : Key) (t : Move ι) : Decidable (s.Agrees id key t) :=
  inferInstanceAs (Decidable (∀ c ∈ s.made? t, _))

/-- Along a run, nothing is applied to an identifier that does not give it a key.  This is so when
nobody asks for anything else (`Mesh.Reserves.undisturbed`). -/
def Undisturbed [DecidableEq ι] (id : EntryId) (key : Key) : List (Move ι) → Mesh ι → Prop
  | [], _ => True
  | t :: moves, s => s.Agrees id key t ∧ Undisturbed id key moves (s.step t)

instance Undisturbed.decidable [DecidableEq ι] (id : EntryId) (key : Key) :
    (moves : List (Move ι)) → (s : Mesh ι) → Decidable (Undisturbed id key moves s)
  | [], _ => .isTrue trivial
  | t :: moves, s =>
    have := Undisturbed.decidable id key moves (s.step t)
    inferInstanceAs (Decidable (s.Agrees id key t ∧ Undisturbed id key moves (s.step t)))

/-- Some node guards an identifier under a key. -/
def Guarded (s : Mesh ι) (id : EntryId) (key : Key) : Prop :=
  ∃ i, (s.workers i).view.Guards id key (s.Taken i) (s.workers i).chores

/-- What is guarded is held, or is being served. -/
theorem Guarded.held (h : s.Guarded id key) : s.Held id key ∨ s.Served id key := by
  have hnames : ∀ {es : List Entry}, Bears es id key → Names es id key := by
    rintro es ⟨e, he, hid, hkey, -⟩
    exact ⟨e, he, hid, hkey⟩
  obtain ⟨i, hg⟩ := h
  cases hg with
  | queued hr hb => exact Or.inl (.queued hr hb.operation (hnames hb.bears))
  | serving hr hb =>
    refine Or.inr ⟨i, _, hr, ?_⟩
    rw [Chore.inserts, if_pos hb.operation]
    exact hnames hb.bears
  | sending hes hb _ => exact Or.inr ⟨i, _, hes, hnames hb⟩
  | applying hes hb _ => exact Or.inr ⟨i, _, hes, hnames hb⟩
  | flying hm ho hb _ _ => exact Or.inl (.flying hm ho (hnames hb))
  | outbound hb _ => exact Or.inl (.outbound (hnames hb))
  | stored hstores ho =>
    rcases Store.Rows.exists_of_keyAt?_foldl_upsert hstores with hnames | hkey
    · exact Or.inl (.inbound ho hnames)
    · exact Or.inl (.stored ho hkey)

/-! ### Guarded entries stay guarded -/

variable [DecidableEq ι]

/-- What happens at one node keeps an entry guarded. -/
theorem Guarded.of_turns (hg : s.Guarded id key) (h : s.Sound)
    {made : Option (Operation × List Entry)} {w' : Worker} {posts' : List (Post ι)}
    (ht : s.Turns i made w' posts')
    (ha : ∀ o es, made = some (o, es) → o.Agrees (s.workers i).view.keys id key es) :
    Guarded ⟨Function.update s.workers i w', posts'⟩ id key := by
  -- a new post is not accepted yet, so no more messages are taken than before
  have htaken : ∀ i' m, Taken ⟨Function.update s.workers i w', posts'⟩ i' m → s.Taken i' m := by
    rintro i' m ⟨p, hp, hsender, hconcerns, haccepted⟩
    rcases ht.posts p hp with hp | ⟨-, hnot, -⟩
    · exact ⟨p, hp, hsender, hconcerns, haccepted⟩
    · exact absurd (haccepted.symm.trans hnot) (by decide)
  obtain ⟨i', hg⟩ := hg
  have hguards : (Function.update s.workers i w' i').view.Guards id key (s.Taken i')
      (Function.update s.workers i w' i').chores := by
    by_cases hi : i' = i
    · subst hi
      rw [Function.update_self]
      exact ht.shifts.guards hg (h.workers i').isFor (h.workers i').linked
        (fun _ hm => hm.not_taken) ha
    · rw [Function.update_of_ne hi]
      exact hg
  rcases hguards.of_taken (Taken _ i') with hguards | ⟨m, -, -, -, hnot, hm⟩
  · exact ⟨i', hguards⟩
  · exact absurd (htaken i' m hm) hnot

/-- A message that arrives leaves its entries guarded, here if not where they were. -/
theorem Guarded.of_arrival (hg : s.Guarded id key) (h : s.Sound) (k : Nat) (i : ι) :
    (s.step (.arrive k i)).Guarded id key := by
  cases hp : s.posts[k]? with
  | none => simpa [step, hp] using hg
  | some p =>
    obtain ⟨n', r, parcel, hstep, hy, -, -, -, harrived⟩ := h.exists_arrival hp i
    have ht : s.Turns i none ⟨n', (s.workers i).agenda⟩ s.posts := turns_of_yields hy .queue
    rw [hstep]
    obtain ⟨i', hg⟩ := hg.of_turns h ht (by simp)
    rcases hg.of_taken (((s.setNode i n').accept k p).Taken i') with
      hg | ⟨m, hm, ho, hb, hnot, q, hq, rfl, hconcerns, haccepted⟩
    · exact ⟨i', hg⟩
    -- the message is taken only now, by the post that arrived: its entries wait here from now on
    · obtain rfl : q = { p with accepted := true } := by
        rcases List.mem_or_eq_of_mem_set hq with hq | rfl
        · exact absurd ⟨q, hq, rfl, hconcerns, haccepted⟩ hnot
        · rfl
      have hmem : m ∈ (s.workers p.sender).view.flying :=
        (ht.mem_flying hm).resolve_right fun hfresh =>
          hfresh p (List.mem_of_getElem? hp) rfl hconcerns
      obtain ⟨hop, horigin, hbears⟩ := harrived m hmem hconcerns
      refine ⟨i, .queued (r := r) ?_ ⟨hop.trans ho, hbears id key hb, Or.inr horigin⟩⟩
      change r ∈ (Function.update s.workers i ⟨n', (s.workers i).agenda⟩ i).view.queued
      rw [Function.update_self, show Worker.view ⟨n', (s.workers i).agenda⟩ = _ from hy.view_eq]
      exact Multiset.mem_cons_self _ (s.workers i).view.queued

/-- **What is guarded stays guarded.** -/
theorem Guarded.step (hg : s.Guarded id key) (h : s.Sound) {t : Move ι} (he : t.Encodable)
    (ha : s.Agrees id key t) : (s.step t).Guarded id key := by
  by_cases harrival : t.IsArrival
  · cases t with
    | arrive k i => exact hg.of_arrival h k i
    | _ => exact False.elim harrival
  · rcases h.exists_turns he harrival with hsame | ⟨i, made, w', posts', hstep, ht, hmade⟩
    · rwa [hsame]
    · rw [hstep]
      exact hg.of_turns h ht fun o es hc => ha (i, o, es) (hmade (o, es) hc)

theorem Guarded.run (hg : s.Guarded id key) (h : s.Sound) {moves : List (Move ι)}
    (he : ∀ t ∈ moves, t.Encodable) (hu : Undisturbed id key moves s) :
    (s.run moves).Guarded id key := by
  induction moves generalizing s with
  | nil => exact hg
  | cons t moves ih =>
    obtain ⟨ht, he⟩ := List.forall_mem_cons.1 he
    exact ih (hg.step h ht hu.1) (h.step ht) he hu.2

/-! ### What is handed off is guarded -/

theorem guarded_update {w' : Worker} {v : View} {posts' : List (Post ι)} (hv : w'.view = v)
    (hg : ∀ taken cs, v.Guards id key taken cs) :
    Guarded ⟨Function.update s.workers i w', posts'⟩ id key := by
  refine ⟨i, ?_⟩
  change View.Guards id key _ _ (Function.update s.workers i w' i).view
  rw [Function.update_self, hv]
  exact hg _ _

/-- What a node hands off is guarded by that node. -/
theorem Guarded.of_handedOff (h : s.Sound) {t : Move ι} (ht : Bears (s.handedOff t) id key) :
    (s.step t).Guarded id key := by
  cases t with
  | handOff i =>
    obtain ⟨k, n', hrun, hy⟩ := (h.workers i).node.redistribute
    rw [Mesh.step, hrun]
    exact guarded_update hy.view_eq fun _ _ => View.guards_redistribute (h.workers i).linked ht
  | change i o es propagate =>
    cases o with
    | update =>
      exact guarded_update (yields_changed (h.workers i).node es propagate .update).view_eq
        fun _ _ => View.guards_change_update ht
    | insert => exact absurd ht not_bears_nil
    | delete => exact absurd ht not_bears_nil
  | work i =>
    obtain ⟨task, path, x, shared, js, ha, ho, hb⟩ := exists_of_handedOff_work ht
    have hx : (s.workers i).node.Sound (x :: handsOf js) := by
      have hnode := (h.workers i).node
      rw [ha] at hnode
      exact hnode
    have hpath : path = (s.workers i).view.peer.path := by
      refine (h.workers i).isFor (.apply task.operation path ((s.workers i).node.entriesIn x)) ?_
      rw [Worker.chores, ha]
      exact List.mem_cons_self
    subst hpath
    simp only [Mesh.step, ha]
    refine guarded_update (hx.applyPayload (s.workers i).view.peer.path task.operation).view_eq
      fun _ _ => ?_
    rw [ho]
    exact View.guards_apply_update hb
  | _ => exact absurd ht not_bears_nil

/-- **No entry that was handed off is lost.**  After a node handed an entry off, and whatever
happens then in the mesh, the entry waits in a request, is in a message in flight, in an outbound
list, or in the inbound list or the store of a node whose path owns its key, or else a node in the
middle of its cycle is about to send it or to deliver it.  This holds for as long as nothing that is
applied to the identifier gives it another key or removes it. -/
theorem held_of_handedOff (h : s.Sound) {t : Move ι} (ht : Bears (s.handedOff t) id key)
    {moves : List (Move ι)} (he : ∀ t ∈ moves, t.Encodable)
    (hu : Undisturbed id key moves (s.step t)) :
    let s' := (s.step t).run moves
    (s'.Held id key ∨ s'.Served id key) ∧ ((∀ i, (s'.workers i).agenda = []) → s'.Held id key) := by
  have hstep := h.step (encodable_of_handedOff ht)
  have hheld := ((Guarded.of_handedOff h ht).run hstep he hu).held
  exact ⟨hheld, fun hidle => hheld.resolve_right (not_served hidle)⟩

/-! ### Two nodes -/

/-- Two nodes that were just opened, one at each path of one bit. -/
def two : Except StorageError (Mesh Bool) := do
  let n ← Node.openAt (Sample.peer ⟨[false]⟩) (.ofBits 8) 0 .root .empty
  let m ← Node.openAt (Sample.peer ⟨[true]⟩) (.ofBits 8) 0 .root .empty
  return ⟨fun i => ⟨cond i m n, []⟩, []⟩

theorem exists_two_eq : ∃ s, two = .ok s ∧ s.Sound := by
  obtain ⟨n, hn, -⟩ := Node.openAt_sound rfl Volume.vacant_empty (Sample.peer ⟨[false]⟩)
    (.ofBits 8) 0
  obtain ⟨m, hm, -⟩ := Node.openAt_sound rfl Volume.vacant_empty (Sample.peer ⟨[true]⟩)
    (.ofBits 8) 0
  have hopen : ∀ i, Node.openAt (Sample.peer ⟨[i]⟩) (.ofBits 8) 0 .root .empty =
      .ok (cond i m n) := by
    intro i
    cases i with
    | false => exact hn
    | true => exact hm
  refine ⟨⟨fun i => ⟨cond i m n, []⟩, []⟩, ?_, sound_opened hopen⟩
  rw [two, hn, hm]
  rfl

/-- An entry that a node hands off comes to the node where it belongs. -/
theorem held_of_handedOff_of_two :
    let e := Sample.entry "a" ⟨[true]⟩
    let moves : List (Move Bool) := [.begin false, .work false, .work false, .arrive 0 true,
      .tell 0 true, .begin true, .work true, .work true]
    ∃ s : Mesh Bool, s.Sound ∧ Bears (s.handedOff (.handOff false)) e.id e.key ∧
      let s' := (s.step (.handOff false)).run moves
      ((s'.Held e.id e.key ∨ s'.Served e.id e.key) ∧
          ((∀ i, (s'.workers i).agenda = []) → s'.Held e.id e.key)) ∧
        (s'.workers true).view.list .inbound = [e] := by
  intro e moves
  obtain ⟨start, hstart, hsound⟩ := exists_two_eq
  have hrun : (two.toOption.all fun start =>
      let s := start.step (.change false .insert [e] false)
      let s' := s.step (.handOff false)
      decide (Bears (s.handedOff (.handOff false)) e.id e.key ∧
        Undisturbed e.id e.key moves s' ∧ ((s'.run moves).workers true).view.list .inbound = [e]))
      = true := by
    decide +kernel
  rw [hstart] at hrun
  obtain ⟨hoff, hundisturbed, hinbound⟩ := of_decide_eq_true hrun
  have hs : (start.step (.change false .insert [e] false)).Sound := hsound.step trivial
  exact ⟨_, hs, hoff, held_of_handedOff hs hoff (by simp [moves, Move.Encodable]) hundisturbed,
    hinbound⟩

end Mesh

end TrieOverlay
