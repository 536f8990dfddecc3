import TrieOverlay.Proofs.Node.Jobs

/-!
# What steps leave alone

Most of what a node does concerns its files, what it holds, the messages in flight and the names
that it makes up, and leaves everything else what it is, the queues among them
(`Node.SameFrame`).  Owned entries that are applied may raise a request; the time and the time of
the last retry stay the same even so (`Node.SameClock`).  All this holds whatever calls fail.
-/

namespace TrieOverlay.Node

/-- Everything but the files, the holdings, the messages in flight and the number of names is the
same. -/
structure SameFrame (n n' : Node) : Prop where
  peer : n'.peer = n.peer
  keys : n'.keys = n.keys
  queues : n'.queues = n.queues
  isPaused : n'.isPaused = n.isPaused
  clock : n'.clock = n.clock
  idlePoll : n'.idlePoll = n.idlePoll
  lastRetry : n'.lastRetry = n.lastRetry

namespace SameFrame

variable {n n' n'' : Node} {α : Type}

@[simp] theorem refl (n : Node) : n.SameFrame n :=
  ⟨rfl, rfl, rfl, rfl, rfl, rfl, rfl⟩

theorem trans (h : n.SameFrame n') (h' : n'.SameFrame n'') : n.SameFrame n'' :=
  ⟨h'.peer.trans h.peer, h'.keys.trans h.keys, h'.queues.trans h.queues,
    h'.isPaused.trans h.isPaused, h'.clock.trans h.clock, h'.idlePoll.trans h.idlePoll,
    h'.lastRetry.trans h.lastRetry⟩

/-! ### Computations -/

theorem tryOnDisk {act : TryDisk α} {r : Except StorageError α} (h : n.tryOnDisk act = (r, n')) :
    n.SameFrame n' := by
  obtain rfl := (congrArg Prod.snd h).symm
  constructor <;> rfl

theorem ask {act : Holdings → Disk (α × Holdings)} {a : α} (h : n.ask act = (a, n')) :
    n.SameFrame n' := by
  obtain rfl := (congrArg Prod.snd h).symm
  constructor <;> rfl

theorem tryAsk {act : Holdings → TryDisk (α × Holdings)} {r : Except StorageError α}
    (h : n.tryAsk act = (r, n')) : n.SameFrame n' := by
  rw [Node.tryAsk] at h
  rcases hrun : n.tryOnDisk (act n.holdings) with ⟨_ | ⟨a, holdings⟩, n₁⟩ <;> rw [hrun] at h
  · obtain ⟨-, rfl⟩ := Prod.mk.inj h
    exact tryOnDisk hrun
  · obtain ⟨-, rfl⟩ := Prod.mk.inj h
    exact (tryOnDisk hrun).trans (by constructor <;> rfl)

theorem tryAsk_snd (n : Node) (act : Holdings → TryDisk (α × Holdings)) :
    n.SameFrame (n.tryAsk act).2 :=
  tryAsk rfl

/-! ### Steps of a cycle -/

theorem releasePayload (n : Node) (x : Payload) : n.SameFrame (n.releasePayload x) := by
  cases x <;> constructor <;> rfl

theorem takeOff (n : Node) (id : MessageId) (task : Task) (x : Payload) :
    n.SameFrame (n.takeOff id task x) := by
  cases x <;> constructor <;> rfl

theorem split {path : Key} {x : Payload} {parts} (h : n.split path x = (parts, n')) :
    n.SameFrame n' := by
  cases x with
  | entries batch =>
    obtain ⟨-, rfl⟩ := Prod.mk.inj h
    exact refl n
  | file f =>
    rw [Node.split] at h
    rcases hrun : n.tryOnDisk (Bulk.splitByLevel path f n.holdings.scratch) with ⟨_ | _, n₁⟩ <;>
      rw [hrun] at h <;> obtain ⟨-, rfl⟩ := Prod.mk.inj h <;> exact tryOnDisk hrun

theorem retryDue {due : Bool} (h : n.retryDue = (due, n')) : n.SameFrame n' := by
  simp only [Node.retryDue] at h
  split at h
  · obtain ⟨-, rfl⟩ := Prod.mk.inj h
    exact refl n
  · exact ask h

theorem merge (n : Node) : n.SameFrame n.merge := by
  rw [Node.merge]
  rcases hrun : n.ask (·.hasInbound) with ⟨_ | _, n₁⟩
  · exact ask hrun
  · exact (ask hrun).trans (tryAsk_snd n₁ _)

/-! ### Reports -/

theorem requeue (n : Node) (o : Operation) (es : List Entry) : n.SameFrame (n.requeue o es) :=
  tryAsk_snd n _

theorem takeBack (n : Node) (o : Operation) (x : Payload) : n.SameFrame (n.takeBack o x) := by
  cases x with
  | entries batch => exact requeue n o batch
  | file f =>
    rw [Node.takeBack]
    rcases hrun : n.tryOnDisk f.entries with ⟨_ | es, n₁⟩
    · exact tryOnDisk hrun
    · exact (tryOnDisk hrun).trans (requeue n₁ o es)

theorem land {sender : Engine} {id : MessageId} {found} (h : n.land sender id = (found, n')) :
    n.SameFrame n' := by
  cases sender <;> obtain ⟨-, rfl⟩ := Prod.mk.inj h <;> constructor <;> rfl

theorem report (n : Node) (sender : Engine) (id : MessageId) (delivered : Bool) :
    n.SameFrame (n.report sender id delivered) := by
  rw [Node.report]
  rcases hrun : n.land sender id with ⟨_ | ⟨o, x⟩, n₁⟩
  · exact land hrun
  · refine (land hrun).trans (trans ?_ (releasePayload _ x))
    cases delivered
    · exact takeBack n₁ o x
    · exact refl n₁

end SameFrame

/-! ### Serving -/

section Serving

variable {ω : Type} {router : Router ω}

theorem splitJobs_frame (task : Task) (x : Payload) (owned : Payload → Job) (s : Node × ω) :
    s.1.SameFrame (splitJobs task x owned s).2.1 ∧ (splitJobs task x owned s).2.2 = s.2 := by
  rw [splitJobs]
  rcases hrun : s.1.split s.1.peer.path x with ⟨_ | _, n'⟩
  · exact ⟨SameFrame.split hrun, rfl⟩
  · exact ⟨SameFrame.split hrun, rfl⟩

/-- The jobs of a split payload are to send parts of it, and what is to be done with the owned
part. -/
theorem mem_splitJobs {task : Task} {x : Payload} {owned : Payload → Job} {s : Node × ω} {j : Job}
    (h : j ∈ (splitJobs task x owned s).1) :
    (∃ branch y, j = .send task branch y) ∨ ∃ y, j = owned y := by
  rw [splitJobs] at h
  split at h
  · cases h
  · rcases List.mem_append.1 h with h | h
    · obtain ⟨⟨level, i⟩, -, hj⟩ := List.mem_filterMap.1 h
      cases level with
      | none => cases hj
      | some y =>
        cases hb : s.1.peer.path.branchAt? i with
        | none => simp [hb] at hj
        | some branch => exact .inl ⟨branch, y, by simpa [hb, eq_comm] using hj⟩
    · obtain ⟨y, -, rfl⟩ := List.mem_map.1 h
      exact .inr ⟨y, rfl⟩

/-- A request is cut into jobs before anything else is done about it. -/
theorem perform_serve_frame (r : Request) (s : Node × ω) :
    s.1.SameFrame (perform router (.serve r) s).2.1 ∧
      (perform router (.serve r) s).2.2 = s.2 := by
  rw [perform]
  cases r.origin with
  | here =>
    dsimp only
    split
    · exact ⟨SameFrame.refl _, rfl⟩
    · split
      · exact splitJobs_frame ..
      · exact ⟨SameFrame.refl _, rfl⟩
  | peer message parent viaReplica =>
    dsimp only
    split
    · exact ⟨SameFrame.refl _, rfl⟩
    · exact splitJobs_frame ..

end Serving

/-! ### Applying -/

/-- The time, and what there is to know about the next retry, are the same. -/
structure SameClock (n n' : Node) : Prop where
  clock : n'.clock = n.clock
  idlePoll : n'.idlePoll = n.idlePoll
  lastRetry : n'.lastRetry = n.lastRetry

variable {n n' n'' : Node}

theorem SameFrame.sameClock (h : n.SameFrame n') : n.SameClock n' :=
  ⟨h.clock, h.idlePoll, h.lastRetry⟩

theorem SameClock.refl (n : Node) : n.SameClock n :=
  ⟨rfl, rfl, rfl⟩

theorem SameClock.trans (h : n.SameClock n') (h' : n'.SameClock n'') : n.SameClock n'' :=
  ⟨h'.clock.trans h.clock, h'.idlePoll.trans h.idlePoll, h'.lastRetry.trans h.lastRetry⟩

theorem sameClock_applyOwned (n : Node) (path : Key) (o : Operation) (es : List Entry) :
    n.SameClock (n.applyOwned path o es) := by
  unfold applyOwned
  split
  · exact SameClock.refl n
  · cases o with
    | insert => exact (SameFrame.tryAsk_snd n _).sameClock
    | update =>
      dsimp only
      split <;> constructor <;> rfl
    | delete => constructor <;> rfl

theorem sameClock_applyPayload (n : Node) (path : Key) (o : Operation) (x : Payload) :
    n.SameClock (n.applyPayload path o x) := by
  cases x with
  | entries batch => exact sameClock_applyOwned n path o batch
  | file f =>
    rw [applyPayload, applyFile]
    rcases hrun : n.tryOnDisk f.entries with ⟨_ | es, n₁⟩
    · exact (SameFrame.tryOnDisk hrun).sameClock
    · exact (SameFrame.tryOnDisk hrun).sameClock.trans (sameClock_applyOwned n₁ path o es)

end TrieOverlay.Node
