import TrieOverlay.Proofs.Mesh.Basic
import TrieOverlay.Proofs.Mesh.Shift
import TrieOverlay.Proofs.Node.Opening
import TrieOverlay.Proofs.Node.Runs

/-!
# What a move does to a mesh

A mesh is *sound* if its nodes are and every post has what the message in flight has that it belongs
to.  A move other than an arrival changes one node and may add a post (`Mesh.Turns`); every move
leaves a sound mesh (`Mesh.Sound.step`).
-/

namespace TrieOverlay

namespace Worker

/-- The node without its files. -/
def view (w : Worker) : View :=
  w.node.view

/-- What is left to do, with the entries that it stands for. -/
def chores (w : Worker) : List Chore :=
  w.agenda.map (·.chore w.node)

/-- A node that is sound in the middle of its cycle. -/
structure Sound (w : Worker) : Prop where
  node : w.node.Sound (handsOf w.agenda)
  isFor : ∀ c ∈ w.chores, c.IsFor w.view.peer.path
  linked : w.view.rows.Linked

end Worker

namespace Post

variable {ι : Type}

/-- Whether a message in flight is the one that was posted. -/
def Concerns (p : Post ι) (m : Carried) : Prop :=
  m.sender = p.dispatch.sender ∧ m.id = p.dispatch.message.header.id

/-- A post has what the message in flight at its sender has. -/
structure Sound (p : Post ι) (n : Node) : Prop where
  known : ∃ k < n.serial, p.dispatch.message.header.id = .ofSerial k
  shows : ∃ (strategy : Strategy) (sender : PeerId) (content : Content),
    p.envelope = .wrap strategy sender ⟨p.dispatch.message.header, content⟩ ∧ content.IsPlain ∧
    ∀ m ∈ n.view.flying, p.Concerns m →
      strategy = .greedy ∧ p.dispatch.message.header.operation = m.operation ∧
        ∀ id key, Bears m.entries id key → Bears content.arriving id key

variable {p : Post ι} {n n' : Node}

theorem Sound.mono (h : p.Sound n) (hserial : n.serial ≤ n'.serial)
    (hflying : ∀ m ∈ n'.view.flying, m ∈ n.view.flying ∨ ¬p.Concerns m) : p.Sound n' := by
  obtain ⟨k, hk, hid⟩ := h.known
  obtain ⟨strategy, sender, content, he, hplain, hshows⟩ := h.shows
  refine ⟨⟨k, hk.trans_le hserial, hid⟩, strategy, sender, content, he, hplain, fun m hm hp => ?_⟩
  rcases hflying m hm with hm | hnot
  · exact hshows m hm hp
  · exact absurd hp hnot

end Post

namespace Mesh

variable {ι : Type} {s : Mesh ι} {i : ι} {made : Option (Operation × List Entry)} {w' : Worker}
  {posts' : List (Post ι)}

/-- Whether no message that a node sent is a message in flight. -/
def Fresh (s : Mesh ι) (i : ι) (m : Carried) : Prop :=
  ∀ p ∈ s.posts, p.sender = i → ¬p.Concerns m

/-- Whether somebody accepted a message in flight at a node. -/
def Taken (s : Mesh ι) (i : ι) (m : Carried) : Prop :=
  ∃ p ∈ s.posts, p.sender = i ∧ p.Concerns m ∧ p.accepted = true

/-- The nodes of a mesh are sound, and its posts are what was sent. -/
structure Sound (s : Mesh ι) : Prop where
  workers : ∀ i, (s.workers i).Sound
  posts : ∀ p ∈ s.posts, p.Sound (s.workers p.sender).node

/-- What a move makes of a node and of the posts, and the change that is made there. -/
structure Turns (s : Mesh ι) (i : ι) (made : Option (Operation × List Entry)) (w' : Worker)
    (posts' : List (Post ι)) : Prop where
  node : w'.node.Sound (handsOf w'.agenda)
  shifts : View.Shifts (s.Fresh i) (s.Taken i) made (s.workers i).chores (s.workers i).view
    w'.chores w'.view
  serial_le : (s.workers i).node.serial ≤ w'.node.serial
  posts : ∀ p ∈ posts', p ∈ s.posts ∨ (p.sender = i ∧ p.accepted = false ∧ p.Sound w'.node)

theorem Fresh.not_taken {m : Carried} (h : s.Fresh i m) : ¬s.Taken i m := by
  rintro ⟨p, hp, hsender, hconcerns, -⟩
  exact h p hp hsender hconcerns

/-- A name that a node did not make up before was not posted. -/
theorem Sound.fresh (h : s.Sound) {m : Carried}
    (hm : m.id = .ofSerial (s.workers i).node.serial) : s.Fresh i m := by
  rintro p hp rfl ⟨-, hid⟩
  obtain ⟨k, hk, hname⟩ := (h.posts p hp).known
  exact Nat.ne_of_lt hk (Ident.ofSerial_injective (hname.symm.trans (hid.symm.trans hm)))

/-- Only messages that nobody has seen come to those in flight. -/
theorem Turns.mem_flying [DecidableEq ι] (ht : s.Turns i made w' posts') {i' : ι} {m : Carried}
    (hm : m ∈ (Function.update s.workers i w' i').view.flying) :
    m ∈ (s.workers i').view.flying ∨ s.Fresh i' m := by
  by_cases hi : i' = i
  · subst hi
    rw [Function.update_self] at hm
    exact ht.shifts.mem_flying hm
  · rw [Function.update_of_ne hi] at hm
    exact Or.inl hm

/-- What happens at one node leaves a sound mesh. -/
theorem Sound.of_turns [DecidableEq ι] (h : s.Sound) (ht : s.Turns i made w' posts') :
    Sound ⟨Function.update s.workers i w', posts'⟩ := by
  have hold := h.workers i
  -- what takes off at `i` has a name that is in no post, so the posts that there were stay sound
  have hmono : ∀ p ∈ s.posts, p.Sound (Function.update s.workers i w' p.sender).node := by
    intro p hp
    refine (h.posts p hp).mono ?_ fun m hm =>
      (ht.mem_flying hm).imp_right fun hfresh => hfresh p hp rfl
    rw [Function.update_apply]
    split
    · rename_i hi
      exact hi ▸ ht.serial_le
    · exact Nat.le_refl _
  refine ⟨fun i' => ?_, fun p hp => ?_⟩
  · change (Function.update s.workers i w' i').Sound
    rw [Function.update_apply]
    split
    · exact ⟨ht.node, ht.shifts.isFor hold.isFor, ht.shifts.linked hold.linked⟩
    · exact h.workers i'
  · rcases ht.posts p hp with hp | ⟨rfl, -, hsound⟩
    · exact hmono p hp
    · change p.Sound (Function.update s.workers p.sender w' p.sender).node
      rwa [Function.update_self]

/-! ### Moves at one node -/

/-- A step of a node that leaves its agenda alone. -/
theorem turns_of_yields {v : View} {n' : Node}
    (hy : (s.workers i).node.Yields (handsOf (s.workers i).agenda) (handsOf (s.workers i).agenda)
      v n')
    (hs : View.Shifts (s.Fresh i) (s.Taken i) made (s.workers i).chores (s.workers i).view
      (s.workers i).chores v) :
    s.Turns i made ⟨n', (s.workers i).agenda⟩ s.posts := by
  have hview : Worker.view ⟨n', (s.workers i).agenda⟩ = v := hy.view_eq
  have hchores : Worker.chores ⟨n', (s.workers i).agenda⟩ = (s.workers i).chores :=
    Node.map_chore_congr hy.kept_eq
  refine ⟨hy.sound, ?_, hy.serial_le, fun _ => Or.inl⟩
  rw [hview, hchores]
  exact hs

theorem Sound.turns_begin (h : s.Sound) (hnil : (s.workers i).agenda = []) :
    s.Turns i none ⟨{ (s.workers i).node with queues := .empty },
      (s.workers i).node.queues.inOrder.map .serve ++ [.retry, .merge]⟩ s.posts := by
  have hnode := (h.workers i).node
  rw [hnil] at hnode
  refine ⟨hnode.startCycle, ?_, Nat.le_refl _, fun _ => Or.inl⟩
  rw [Worker.chores, Worker.chores, hnil, List.map_append, List.map_map]
  have hrs : (s.workers i).view.queued =
      ((s.workers i).node.queues.inOrder.map (s.workers i).node.errand : List Errand) := rfl
  have hbegin : View.Shifts (s.Fresh i) (s.Taken i) none [] _ _ _ := .begin hrs
  rw [List.map_map] at hbegin
  exact hbegin

/-- What a node hands to its router is posted. -/
theorem post_eq {n : Node} {hands : List Payload} (h : n.Sound hands) (i : ι) {d : Dispatch}
    (hd : n.volume.CanRead d.message.cargo.payload) (posts : List (Post ι)) :
    ∃ content : Content, post i d n posts = (n, posts ++
        [⟨i, d, .wrap d.target.strategy n.peer.info.id ⟨d.message.header, content⟩, false⟩]) ∧
      content.IsPlain ∧ content.arriving = (n.batch d.message.cargo.payload).arriving := by
  obtain ⟨content, hrun, hplain, harriving⟩ :=
    h.run_ofMessage hd d.target.strategy n.peer.info.id
  refine ⟨content, ?_, hplain, harriving⟩
  rw [post, hrun]

/-- A message in flight has a name that its node made up. -/
theorem id_of_mem_flying {n : Node} {hands : List Payload} (h : n.Sound hands) {m : Carried}
    (hm : m ∈ n.view.flying) : ∃ k < n.serial, m.id = .ofSerial k := by
  obtain ⟨f, hf, rfl⟩ := List.mem_map.1 (Multiset.mem_coe.1 hm)
  exact h.named f hf

theorem Sound.turns_send (h : s.Sound) {task : Task} {branch : Key} {x : Payload} {js : List Job}
    (ha : (s.workers i).agenda = .send task branch x :: js) :
    ∃ n' posts', Node.perform (post i) (.send task branch x) ((s.workers i).node, s.posts) =
        ([], n', posts') ∧
      s.Turns i none ⟨n', js⟩ posts' := by
  have hnode := (h.workers i).node
  rw [ha] at hnode
  obtain ⟨d, n', hrun, htarget, hloaded, hread, hserial, hy⟩ := hnode.perform_send s.posts
  obtain ⟨content, hpost, hplain, harriving⟩ := post_eq hy.sound i hread s.posts
  have hfresh : s.Fresh i (n'.loaded d) := h.fresh (by rw [hloaded])
  refine ⟨n', _, hrun.trans (congrArg _ hpost), hy.sound, ?_, hserial.le, fun p hp => ?_⟩
  · have hview : Worker.view ⟨n', js⟩ = (s.workers i).view.fly (n'.loaded d) := hy.view_eq
    have hchores : Worker.chores ⟨n', js⟩ = js.map (·.chore (s.workers i).node) :=
      Node.map_chore_congr hy.kept_eq
    have hsend : (s.workers i).chores = .send (n'.loaded d).operation (n'.loaded d).entries ::
        js.map (·.chore (s.workers i).node) := by
      rw [Worker.chores, ha, hloaded]
      rfl
    rw [hview, hchores, hsend]
    exact .fly hfresh
  · rcases List.mem_append.1 hp with hp | hp
    · exact Or.inl hp
    · rw [List.mem_singleton] at hp
      subst hp
      have hid : d.message.header.id = .ofSerial (s.workers i).node.serial :=
        congrArg Carried.id hloaded
      refine Or.inr ⟨rfl, rfl, ⟨_, hserial, hid⟩, _, _, content, rfl, hplain, fun m hm hp => ?_⟩
      rw [hy.view_eq] at hm
      change m ∈ n'.loaded d ::ₘ (s.workers i).node.view.flying at hm
      rcases Multiset.mem_cons.1 hm with rfl | hm
      · refine ⟨by rw [htarget]; rfl, rfl, fun id key hb => ?_⟩
        rw [harriving]
        exact Bears.arriving hb
      -- the other messages in flight have older names
      · obtain ⟨k, hk, hname⟩ := id_of_mem_flying hnode hm
        have := Ident.ofSerial_injective (hname.symm.trans (hp.2.trans hid))
        exact absurd this (Nat.ne_of_lt hk)

theorem Sound.turns_share (h : s.Sound) {task : Task} {path : Key} {x : Payload} {js : List Job}
    (ha : (s.workers i).agenda = .share task path x :: js) :
    ∃ n' posts', Node.perform (post i) (.share task path x) ((s.workers i).node, s.posts) =
        ([.drop x], n', posts') ∧
      s.Turns i none ⟨n', .drop x :: js⟩ posts' := by
  have hnode := (h.workers i).node
  rw [ha] at hnode
  obtain ⟨d, n', hrun, -, hloaded, hread, hserial, hy⟩ := hnode.perform_share s.posts
  obtain ⟨content, hpost, hplain, -⟩ := post_eq hy.sound i hread s.posts
  refine ⟨n', _, hrun.trans (congrArg _ hpost), hy.sound, ?_, hserial.le, fun p hp => ?_⟩
  · have hview : Worker.view ⟨n', .drop x :: js⟩ = (s.workers i).view := hy.view_eq
    have hchores : Worker.chores ⟨n', .drop x :: js⟩ = (s.workers i).chores := by
      rw [Worker.chores, Worker.chores, ha]
      exact Node.map_chore_congr hy.kept_eq
    rw [hview, hchores]
    exact .stay
  · rcases List.mem_append.1 hp with hp | hp
    · exact Or.inl hp
    · rw [List.mem_singleton] at hp
      subst hp
      have hid : d.message.header.id = .ofSerial (s.workers i).node.serial :=
        congrArg Carried.id hloaded
      refine Or.inr ⟨rfl, rfl, ⟨_, hserial, hid⟩, _, _, content, rfl, hplain, fun m hm hp => ?_⟩
      rw [hy.view_eq] at hm
      -- a message to the replicas is not in flight, and those that are have older names
      obtain ⟨k, hk, hname⟩ := id_of_mem_flying hnode hm
      have := Ident.ofSerial_injective (hname.symm.trans (hp.2.trans hid))
      exact absurd this (Nat.ne_of_lt hk)

/-- The change that the next job of a node makes. -/
def nextChange (w : Worker) : Option (Operation × List Entry) :=
  w.chores.head?.bind Chore.change?

theorem Sound.turns_work (h : s.Sound) {j : Job} {js : List Job}
    (ha : (s.workers i).agenda = j :: js) :
    ∃ js' n' posts', Node.perform (post i) j ((s.workers i).node, s.posts) = (js', n', posts') ∧
      s.Turns i (nextChange (s.workers i)) ⟨n', js' ++ js⟩ posts' := by
  have hchange : nextChange (s.workers i) = (j.chore (s.workers i).node).change? := by
    rw [nextChange, Worker.chores, ha]
    rfl
  rw [hchange]
  -- only a job that routes adds a post
  by_cases hj : j.Routes
  · rcases hj.eq_send_or_share with ⟨task, branch, x, rfl⟩ | ⟨task, path, x, rfl⟩
    · obtain ⟨n', posts', hrun, ht⟩ := h.turns_send ha
      exact ⟨_, n', posts', hrun, ht⟩
    · obtain ⟨n', posts', hrun, ht⟩ := h.turns_share ha
      exact ⟨_, n', posts', hrun, ht⟩
  · have hnode := (h.workers i).node
    rw [ha] at hnode
    obtain ⟨js', n', hrun, hp⟩ := hnode.perform hj s.posts
    refine ⟨js', n', s.posts, hrun, hp.sound, ?_, hp.serial_le, fun _ => Or.inl⟩
    have hchores : Worker.chores ⟨n', js' ++ js⟩ =
        js'.map (·.chore n') ++ js.map (·.chore (s.workers i).node) := by
      rw [Worker.chores, List.map_append, hp.rest_eq]
    rw [hchores, Worker.chores, ha, List.map_cons]
    exact .does hp.does

namespace Move

/-- Whether what a move submits can be read and written. -/
def Encodable : Move ι → Prop
  | submit _ r => r.Encodable
  | begin _ | work _ | arrive _ _ | tell _ _ | handOff _ | change _ _ _ _ | wait _ _ => True

/-- Whether a move is that a message arrives. -/
def IsArrival : Move ι → Prop
  | arrive _ _ => True
  | begin _ | work _ | tell _ _ | handOff _ | submit _ _ | change _ _ _ _ | wait _ _ => False

end Move

/-- The change that a move makes, and the node where it makes it. -/
def made? (s : Mesh ι) : Move ι → Option (ι × Operation × List Entry)
  | .work i => (nextChange (s.workers i)).map (i, ·)
  | .change i o es _ => some (i, o, es)
  | .begin _ | .arrive _ _ | .tell _ _ | .handOff _ | .submit _ _ | .wait _ _ => none

/-- What the application changes at a node. -/
theorem yields_changed {n : Node} {hands : List Payload} (h : n.Sound hands) (es : List Entry)
    (propagate : Bool) (o : Operation) :
    n.Yields hands hands (n.view.change es propagate o) (changed n es propagate o) := by
  cases o with
  | insert => exact h.insert es propagate
  | update => exact h.update es
  | delete => exact h.delete es propagate

/-- A report that the sender of a post gets. -/
theorem Sound.turns_tell (h : s.Sound) {p : Post ι} (hp : p ∈ s.posts) {delivered : Bool}
    (hd : delivered = true → p.accepted = true) :
    s.Turns p.sender none ⟨(s.workers p.sender).node.report p.dispatch.sender
      p.dispatch.message.header.id delivered, (s.workers p.sender).agenda⟩ s.posts := by
  rcases (h.workers p.sender).node.report p.dispatch.sender p.dispatch.message.header.id delivered
    with ⟨hsame, -⟩ | ⟨m, rest, hm, hsender, hid, hy⟩
  · rw [hsame]
    exact turns_of_yields ((h.workers p.sender).node.yields _) .stay
  · exact turns_of_yields hy (.settle hm fun ht => ⟨p, hp, rfl, ⟨hsender, hid⟩, hd ht⟩)

/-- A move other than an arrival is something that happens at one node, if it is anything. -/
theorem Sound.exists_turns [DecidableEq ι] (h : s.Sound) {t : Move ι} (he : t.Encodable)
    (hna : ¬t.IsArrival) :
    s.step t = s ∨ ∃ i made w' posts', s.step t = ⟨Function.update s.workers i w', posts'⟩ ∧
      s.Turns i made w' posts' ∧ ∀ c ∈ made, s.made? t = some (i, c) := by
  cases t with
  | begin i =>
    by_cases hnil : (s.workers i).agenda = []
    · exact Or.inr ⟨i, none, _, _, by simp [step, hnil], h.turns_begin hnil, by simp⟩
    · exact Or.inl (by simp [step, hnil])
  | work i =>
    cases ha : (s.workers i).agenda with
    | nil => exact Or.inl (by simp [step, ha])
    | cons j js =>
      obtain ⟨js', n', posts', hrun, ht⟩ := h.turns_work ha
      refine Or.inr ⟨i, _, _, posts', by simp only [step, ha, hrun], ht, fun c hc => ?_⟩
      rw [made?, hc]
      rfl
  | arrive k i => exact absurd trivial hna
  | tell k delivered =>
    cases hp : s.posts[k]? with
    | none => exact Or.inl (by simp [step, hp])
    | some p =>
      by_cases hd : delivered && !p.accepted
      · exact Or.inl (by simp only [step, hp, if_pos hd])
      · have ht := h.turns_tell (List.mem_of_getElem? hp) (show delivered = true → _ from
          fun ht => by simpa [ht] using hd)
        exact Or.inr ⟨p.sender, none, _, _, by simp only [step, hp, if_neg hd, setNode], ht,
          by simp⟩
  | handOff i =>
    obtain ⟨k, n', hrun, hy⟩ := (h.workers i).node.redistribute
    exact Or.inr ⟨i, none, _, _, by rw [step, hrun, setNode], turns_of_yields hy .redistribute,
      by simp⟩
  | submit i r =>
    obtain ⟨es, hes, -⟩ := he
    obtain ⟨b, n', message, hrun, hy⟩ := (h.workers i).node.submitTo hes
    exact Or.inr ⟨i, none, _, _, by rw [step, hrun, setNode], turns_of_yields hy .queue, by simp⟩
  | change i o es propagate =>
    refine Or.inr ⟨i, _, _, _, by rw [step, setNode], turns_of_yields
      (yields_changed (h.workers i).node es propagate o) .change, fun c hc => ?_⟩
    rw [made?, ← Option.mem_some.1 hc]
  | wait i milliseconds =>
    have hy := (h.workers i).node.wait milliseconds
    exact Or.inr ⟨i, none, _, _, by rw [step, setNode], turns_of_yields hy .stay, by simp⟩

/-! ### Arrivals -/

/-- A message is marked as accepted. -/
def accept (s : Mesh ι) (k : Nat) (p : Post ι) : Mesh ι :=
  { s with posts := s.posts.set k { p with accepted := true } }

/-- A message that arrives is accepted, and what was posted becomes a request of the node. -/
theorem Sound.exists_arrival [DecidableEq ι] (h : s.Sound) {k : Nat} {p : Post ι}
    (hp : s.posts[k]? = some p) (i : ι) :
    ∃ n' r parcel, s.step (.arrive k i) = (s.setNode i n').accept k p ∧
      (s.workers i).node.Yields (handsOf (s.workers i).agenda) (handsOf (s.workers i).agenda)
        ((s.workers i).view.queue r) n' ∧
      p.envelope.unwrap = .ok parcel ∧ r.operation = parcel.header.operation ∧
      r.entries = parcel.content.arriving ∧
      ∀ m ∈ (s.workers p.sender).view.flying, p.Concerns m → r.operation = m.operation ∧
        (∃ message parent, r.origin = .peer message parent false) ∧
        ∀ id key, Bears m.entries id key → Bears r.entries id key := by
  obtain ⟨strategy, sender, content, he, hplain, hshows⟩ :=
    (h.posts p (List.mem_of_getElem? hp)).shows
  obtain ⟨inFile, n', hrun, hy⟩ := (h.workers i).node.receive strategy sender
    p.dispatch.message.header hplain
  refine ⟨n', _, ⟨p.dispatch.message.header, content⟩, ?_, hy, ?_, rfl, rfl,
    fun m hm hconcerns => ?_⟩
  · rw [← he] at hrun
    simp only [step, hp, hrun, Bool.or_true]
    rfl
  · rw [he, Envelope.unwrap_wrap]
  · obtain ⟨rfl, ho, hbears⟩ := hshows m hm hconcerns
    exact ⟨ho, ⟨_, _, rfl⟩, hbears⟩

theorem Sound.accept (h : s.Sound) {k : Nat} {p : Post ι} (hp : s.posts[k]? = some p) :
    (s.accept k p).Sound := by
  refine ⟨h.workers, fun q hq => ?_⟩
  rcases List.mem_or_eq_of_mem_set hq with hq | rfl
  · exact h.posts q hq
  · obtain ⟨hknown, hshows⟩ := h.posts p (List.mem_of_getElem? hp)
    exact ⟨hknown, hshows⟩

/-- Every move leaves a sound mesh. -/
theorem Sound.step [DecidableEq ι] (h : s.Sound) {t : Move ι} (he : t.Encodable) :
    (s.step t).Sound := by
  by_cases ha : t.IsArrival
  · cases t with
    | arrive k i =>
      cases hp : s.posts[k]? with
      | none => simpa [Mesh.step, hp] using h
      | some p =>
        obtain ⟨n', r, parcel, hstep, hy, -⟩ := h.exists_arrival hp i
        rw [hstep]
        exact (h.of_turns (turns_of_yields hy .queue)).accept hp
    | _ => exact absurd ha id
  · rcases h.exists_turns he ha with hsame | ⟨i, made, w', posts', hstep, ht, -⟩
    · rwa [hsame]
    · rw [hstep]
      exact h.of_turns ht

theorem Sound.run [DecidableEq ι] (h : s.Sound) {moves : List (Move ι)}
    (he : ∀ t ∈ moves, t.Encodable) : (s.run moves).Sound := by
  induction moves generalizing s with
  | nil => exact h
  | cons t moves ih =>
    obtain ⟨ht, he⟩ := List.forall_mem_cons.1 he
    exact ih (h.step ht) he

/-! ### Opened nodes -/

/-- Nodes that were just opened make a sound mesh. -/
theorem sound_opened {peers : ι → LocalPeer} {keys : ι → KeyScheme} {idlePolls : ι → Nat}
    {nodes : ι → Node}
    (h : ∀ i, Node.openAt (peers i) (keys i) (idlePolls i) .root .empty = .ok (nodes i)) :
    Sound ⟨fun i => ⟨nodes i, []⟩, []⟩ := by
  refine ⟨fun i => ?_, by simp⟩
  obtain ⟨n, hopen, hsound, -, -, -, hrows⟩ :=
    Node.openAt_sound rfl Volume.vacant_empty (peers i) (keys i) (idlePolls i)
  obtain rfl : nodes i = n := Except.ok.inj ((h i).symm.trans hopen)
  refine ⟨hsound, by simp [Worker.chores], ?_⟩
  change (nodes i).view.rows.Linked
  rw [hrows]
  exact Store.Rows.linked_empty

end Mesh

end TrieOverlay
