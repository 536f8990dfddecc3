import TrieOverlay.Proofs.Node.Jobs
import TrieOverlay.Proofs.Node.Steps

/-!
# What can be seen of a job

A *duty* is a job with the batch that its payload stands for in place of the payload: the entries
in their order, and whether they are in a file.  `View.Fulfils` says what doing a duty makes of the
view of a node, and which duties come of it: a request is split into the parts of its batch, level
by level, each with the branch that it goes to, and then the owned part.

`Node.Sound.fulfils`: every job that does not call the router does its duty.
-/

namespace TrieOverlay

/-! ### Batches and their parts -/

/-- A batch of entries, and whether it is in a file. -/
structure Batch where
  /-- The entries. -/
  entries : List Entry
  /-- Whether they are in a file. -/
  inFile : Bool

namespace Batch

/-- What is left of some entries of a batch when the batch is split: a file of them has only those
that can be written. -/
def kept (b : Batch) (es : List Entry) : List Entry :=
  if b.inFile then es.filter fun e => Bulk.Line.isEncodable e else es

/-- The part of a batch that has some of its entries, if there are any. -/
def part (b : Batch) (es : List Entry) : Option Batch :=
  if es = [] then none else some ⟨b.kept es, b.inFile⟩

/-- The part of a batch at a level of a path. -/
def partAt (b : Batch) (path : Key) (level : Nat) : Option Batch :=
  b.part (atLevel path level b.entries)

/-- The part of a batch that a path owns. -/
def owned (b : Batch) (path : Key) : Option Batch :=
  b.part (ownedBy path b.entries)

variable {b p : Batch} {es : List Entry} {path : Key} {e : Entry}

theorem kept_subset (b : Batch) (es : List Entry) : b.kept es ⊆ es := by
  rw [kept]
  split
  · exact fun x hx => (List.mem_filter.1 hx).1
  · exact List.Subset.refl _

theorem part_eq_some (h : b.part es = some p) : es ≠ [] ∧ p = ⟨b.kept es, b.inFile⟩ := by
  rw [part] at h
  split at h
  · cases h
  · exact ⟨‹_›, (Option.some.inj h).symm⟩

theorem part_subset (h : b.part es = some p) : p.entries ⊆ es := by
  obtain ⟨-, rfl⟩ := part_eq_some h
  exact b.kept_subset es

/-- The entries of the part at a level are at that level. -/
theorem levelOf_of_mem_partAt {level : Nat} (h : b.partAt path level = some p)
    (he : e ∈ p.entries) : path.levelOf e.key = level := by
  simpa using (List.mem_filter.1 (part_subset h he)).2

theorem part_elim (b : Batch) (es : List Entry) : (b.part es).elim [] entries = b.kept es := by
  rw [part]
  split
  · subst es
    rw [kept, List.filter_nil, ite_self]
    rfl
  · rfl

theorem kept_filter (b : Batch) (q : Entry → Bool) (es : List Entry) :
    b.kept (es.filter q) = (b.kept es).filter q := by
  rw [kept, kept]
  split
  · exact List.filter_comm ..
  · rfl

end Batch

/-- The entries of a request, and whether they are in a file. -/
def Errand.batch (r : Errand) : Batch :=
  ⟨r.entries, r.inFile⟩

/-- What all messages of a request have in common. -/
def Errand.task (parent : RequestId) (r : Errand) : Task :=
  ⟨r.operation, parent, r.origin == .here⟩

/-- The batch that a payload stands for. -/
def Node.batch (n : Node) (x : Payload) : Batch :=
  ⟨n.entriesIn x, x.isFile⟩

/-! ### Duties -/

/-- A job with the batch that it stands for. -/
inductive Duty where
  /-- Serve a request; the parent of its messages is given. -/
  | serve (parent : RequestId) (errand : Errand)
  /-- Send a batch toward a subtree. -/
  | send (task : Task) (branch : Key) (batch : Batch)
  /-- Apply an owned batch, and share it with the replicas if that is to be done. -/
  | apply (task : Task) (path : Key) (batch : Batch) (shared : Bool)
  /-- Send a batch to the replicas. -/
  | share (task : Task) (path : Key) (batch : Batch)
  /-- Release a payload. -/
  | drop
  /-- Send the outbound lists again, if that is due. -/
  | retry
  /-- Send the outbound list of an operation again. -/
  | resend (operation : Operation)
  /-- Merge the inbound list. -/
  | merge

/-- A job with the batch that its payload stands for. -/
def Job.duty (n : Node) : Job → Duty
  | serve r => .serve r.parent (n.errand r)
  | send task branch x => .send task branch (n.batch x)
  | apply task path x shared => .apply task path (n.batch x) shared
  | share task path x => .share task path (n.batch x)
  | drop _ => .drop
  | retry => .retry
  | resend o => .resend o
  | merge => .merge

/-- Whether a job calls the router. -/
def Job.Routes : Job → Prop
  | send _ _ _ | share _ _ _ => True
  | serve _ | apply _ _ _ _ | drop _ | retry | resend _ | merge => False

theorem Job.Routes.eq_send_or_share {j : Job} (h : j.Routes) :
    (∃ task branch x, j = .send task branch x) ∨ ∃ task path x, j = .share task path x := by
  cases j with
  | send task branch x => exact Or.inl ⟨task, branch, x, rfl⟩
  | share task path x => exact Or.inr ⟨task, path, x, rfl⟩
  | _ => exact False.elim h

/-- What a cargo is a payload of. -/
def Cargo.payload : Cargo → Payload
  | .entries batch => .entries batch
  | .file p => .file ⟨p⟩

@[simp] theorem Payload.payload_cargo (x : Payload) : x.cargo.payload = x := by
  cases x <;> rfl

namespace Duty

/-- The duties of sending the parts of a batch at the levels of a path. -/
def sends (task : Task) (path : Key) (b : Batch) : List Duty :=
  (List.range path.length).filterMap fun i =>
    match b.partAt path i, path.branchAt? i with
    | some p, some branch => some (.send task branch p)
    | _, _ => none

theorem mem_sends {task : Task} {path : Key} {b : Batch} {d : Duty} (h : d ∈ sends task path b) :
    ∃ i branch p, i < path.length ∧ path.branchAt? i = some branch ∧ b.partAt path i = some p ∧
      d = .send task branch p := by
  obtain ⟨i, hi, hd⟩ := List.mem_filterMap.1 h
  cases hp : b.partAt path i with
  | none => simp [hp] at hd
  | some p =>
    cases hb : path.branchAt? i with
    | none => simp [hp, hb] at hd
    | some branch =>
      simp only [hp, hb, Option.some.injEq] at hd
      exact ⟨i, branch, p, List.mem_range.1 hi, hb, hp, hd.symm⟩

end Duty

namespace View

/-- What a duty that does not call the router makes of a view, and the duties that come of it. -/
inductive Fulfils : Duty → View → List Duty → View → Prop
  | nothing {parent : RequestId} {r : Errand} {w : View} :
      r.origin = .here → r.entries = [] → r.inFile = false → Fulfils (.serve parent r) w [] w
  | root {parent : RequestId} {r : Errand} {w : View} :
      r.origin = .here → w.peer.isSuperPeer = false → (r.inFile = false → r.entries ≠ []) →
      Fulfils (.serve parent r) w [.send (r.task parent) .root r.batch] w
  | split {parent : RequestId} {r : Errand} {w : View} :
      r.origin = .here → w.peer.isSuperPeer = true →
      Fulfils (.serve parent r) w
        (Duty.sends (r.task parent) w.peer.path r.batch ++
          (r.batch.owned w.peer.path).toList.map (.share (r.task parent) w.peer.path)) w
  | splitOther {parent : RequestId} {r : Errand} {w : View} {message : MessageId}
      {sender : RequestId} :
      r.origin = .peer message sender false →
      Fulfils (.serve parent r) w
        (Duty.sends (r.task parent) w.peer.path r.batch ++
          (r.batch.owned w.peer.path).toList.map (.apply (r.task parent) w.peer.path · true)) w
  | replica {parent : RequestId} {r : Errand} {w : View} {message : MessageId}
      {sender : RequestId} :
      r.origin = .peer message sender true →
      Fulfils (.serve parent r) w [.apply (r.task parent) w.peer.path r.batch false] w
  | apply {task : Task} {path : Key} {b : Batch} {shared : Bool} {w : View} :
      Fulfils (.apply task path b shared) w [if shared then .share task path b else .drop]
        (w.apply path task.operation b.entries)
  | drop {w : View} : Fulfils .drop w [] w
  | wait {w : View} : Fulfils .retry w [] w
  | retry {w : View} : Fulfils .retry w (Operation.all.map .resend) w
  | resendNothing {o : Operation} {w : View} : w.list (.outbound o) = [] →
      Fulfils (.resend o) w [] w
  | resend {parent : RequestId} {o : Operation} {w : View} : w.list (.outbound o) ≠ [] →
      Fulfils (.resend o) w
        [.serve parent
          ⟨o, .here, (w.list (.outbound o)).filter fun e => Bulk.Line.isEncodable e, true⟩]
        (w.setList (.outbound o) [])
  | merge {w : View} : Fulfils .merge w [] w.merge

end View

/-! ### Sending the levels -/

namespace Job

theorem exists_branchAt? {path : Key} {level : Nat} (h : level < path.length) :
    ∃ branch, path.branchAt? level = some branch := by
  rw [Key.branchAt?, Key.bit?, List.getElem?_eq_getElem h]
  exact ⟨_, rfl⟩

/-- The payloads of the levels are what is sent, in order. -/
theorem map_sends {task : Task} {path : Key} {levels : List (Option Payload)}
    (hl : levels.length ≤ path.length) :
    (sends task path levels).map payload? = (levels.filterMap id).map some := by
  have hsends : sends task path levels = levels.zipIdx.filterMap fun l =>
      l.1.bind fun x => (path.branchAt? l.2).map (send task · x) :=
    List.filterMap_congr fun l _ => by
      cases hx : l.1 <;> cases hb : path.branchAt? l.2 <;> simp [hx, hb]
  -- the levels are numbered from 0 on; the induction needs them numbered from anywhere on
  suffices hfrom : ∀ (levels : List (Option Payload)) (k : Nat), k + levels.length ≤ path.length →
      ((levels.zipIdx k).filterMap fun l =>
        l.1.bind fun x => (path.branchAt? l.2).map (send task · x)).map payload? =
          (levels.filterMap id).map some from
    hsends ▸ hfrom levels 0 (by omega)
  intro levels
  induction levels with
  | nil => intro k _; rfl
  | cons level levels ih =>
    intro k hk
    rw [List.length_cons] at hk
    have hrest := ih (k + 1) (by omega)
    rw [List.zipIdx_cons]
    cases level with
    | none =>
      rw [List.filterMap_cons_none rfl, List.filterMap_cons_none (by rfl)]
      exact hrest
    | some x =>
      obtain ⟨branch, hbranch⟩ := exists_branchAt? (show k < path.length by omega)
      rw [List.filterMap_cons_some (b := .send task branch x) (by simp [hbranch]),
        List.filterMap_cons_some (by rfl), List.map_cons, List.map_cons, hrest]
      rfl

theorem zipIdx_map_range {α : Type} (f : Nat → α) (k : Nat) :
    ((List.range k).map f).zipIdx = (List.range k).map fun i => (f i, i) := by
  refine List.ext_getElem? fun i => ?_
  by_cases hi : i < k
  · simp [List.getElem?_range hi]
  · rw [List.getElem?_eq_none (by simp; omega), List.getElem?_eq_none (by simp; omega)]

/-- The levels of a split payload are sent as the parts of its batch. -/
theorem map_duty_sends {n : Node} {task : Task} {path : Key} {levels : List (Option Payload)}
    {b : Batch}
    (h : levels.map (·.map n.batch) = (List.range path.length).map (b.partAt path)) :
    (sends task path levels).map (·.duty n) = Duty.sends task path b := by
  let g : Option Batch × Nat → Option Duty := fun (level, i) =>
    match level, path.branchAt? i with
    | some p, some branch => some (.send task branch p)
    | _, _ => none
  have hsends : (sends task path levels).map (·.duty n) =
      (levels.map (·.map n.batch)).zipIdx.filterMap g := by
    rw [sends, List.map_filterMap, List.zipIdx_map, List.filterMap_map]
    refine List.filterMap_congr fun ⟨level, i⟩ _ => ?_
    simp only [Function.comp, Prod.map, g, id]
    cases level <;> cases path.branchAt? i <;> rfl
  rw [hsends, h, zipIdx_map_range, List.filterMap_map]
  rfl

end Job

theorem handsOf_append (js ks : List Job) : handsOf (js ++ ks) = handsOf js ++ handsOf ks :=
  List.filterMap_append

theorem handsOf_sends {task : Task} {path : Key} {levels : List (Option Payload)}
    (hl : levels.length ≤ path.length) :
    handsOf (Job.sends task path levels) = levels.filterMap id := by
  have hfilter : handsOf (Job.sends task path levels) =
      ((Job.sends task path levels).map Job.payload?).filterMap id := by
    rw [List.filterMap_map]
    rfl
  rw [hfilter, Job.map_sends hl]
  simp

theorem handsOf_map_owned {owned : Payload → Job} (howned : ∀ x, (owned x).payload? = some x)
    (own : Option Payload) : handsOf (own.toList.map owned) = own.toList := by
  cases own with
  | none => rfl
  | some x =>
    rw [Option.toList_some, List.map_singleton, handsOf, List.filterMap_cons_some (howned x)]
    rfl

/-- When a cycle begins, the payloads of the requests that waited are in hand. -/
theorem handsOf_start (rs : List Request) :
    handsOf (rs.map .serve ++ [.retry, .merge]) = rs.map (·.payload) := by
  have hserve : (Job.payload? ∘ Job.serve) = fun r => some r.payload := rfl
  rw [handsOf_append, handsOf, List.filterMap_map, hserve, List.filterMap_eq_map']
  exact List.append_nil _

namespace Node

variable {ω : Type} {router : Router ω} {n n' : Node} {hands : List Payload} {x : Payload}
  {j : Job} {js : List Job} {w : ω}

/-! ### Splitting -/

theorem map_batch_payloadOf (n : Node) (batch es : List Entry) :
    (payloadOf es).map n.batch = (n.batch (.entries batch)).part es := by
  cases es <;> rfl

/-- The file that was made for a level stands for the part at the level. -/
theorem map_batch_of_isSplit {f : ScratchFile} {path : Key} {es : List Entry} {v : Volume}
    {files : List (Option ScratchFile)} (h : Bulk.IsSplit path es n.volume v files) {i : Nat}
    {file : Option ScratchFile} (hi : files[i]? = some file) :
    (file.map Payload.file).map ({ n with volume := v } : Node).batch =
      (n.batch (.file f)).part (atLevel path i es) := by
  have hlevel := h.level i file hi
  cases file with
  | none => rw [show atLevel path i es = [] from hlevel]; rfl
  | some g =>
    obtain ⟨hne, -, hentries⟩ := hlevel
    rw [Batch.part, if_neg hne]
    exact congrArg (fun es => some (Batch.mk es true)) hentries.entriesAt_eq

/-- A payload in hand is split into the parts of its batch, which are in hand then. -/
theorem Sound.split_parts (h : n.Sound (x :: hands)) (path : Key) :
    ∃ levels owned n', n.split path x = (some (levels, owned), n') ∧
      n.Yields hands (levels.filterMap id ++ (owned.toList ++ hands)) n.view n' ∧
      levels.map (·.map n'.batch) = (List.range path.length).map ((n.batch x).partAt path) ∧
      owned.map n'.batch = (n.batch x).owned path := by
  cases x with
  | entries batch =>
    obtain ⟨hrun, hsound⟩ := h.split_entries path
    refine ⟨_, _, n, hrun, ⟨hsound, rfl, fun _ _ => rfl, Nat.le_refl _⟩, ?_,
      n.map_batch_payloadOf batch _⟩
    rw [List.map_map]
    exact List.map_congr_left fun i _ => n.map_batch_payloadOf batch _
  | file f =>
    have hread := h.inventory.canRead _ (List.mem_cons_self ..)
    obtain ⟨files, v, hrun, hl, hsplit⟩ :=
      Bulk.run_splitByLevel h.inventory.ready hread.hasEntries path
    obtain ⟨levels, owned, rfl, hlength⟩ := exists_levels_and_owned hsplit.length_eq
    have hhands : ((levels ++ [owned]).filterMap id).map Payload.file ++ hands =
        (levels.map fun g => g.map Payload.file).filterMap id ++
          ((owned.map Payload.file).toList ++ hands) := by
      cases owned <;> simp [List.map_filterMap, List.filterMap_map]
    have hy := h.replaceFile hl hsplit.nodup hsplit.fresh
    rw [hhands] at hy
    refine ⟨_, _, _, ?_, hy, ?_, ?_⟩
    · rw [Node.split, tryOnDisk_ok hrun]
      simp
    · refine List.ext_getElem? fun i => ?_
      by_cases hi : i < path.length
      · have hlevel : levels[i]? = some levels[i] := List.getElem?_eq_getElem (hlength ▸ hi)
        have hfile : (levels ++ [owned])[i]? = some levels[i] := by
          rw [List.getElem?_append_left (hlength ▸ hi), hlevel]
        rw [List.map_map, List.getElem?_map, hlevel, List.getElem?_map, List.getElem?_range hi]
        exact congrArg some (map_batch_of_isSplit hsplit hfile)
      · rw [List.getElem?_eq_none (by simp; omega), List.getElem?_eq_none (by simp; omega)]
    · refine map_batch_of_isSplit (i := path.length) hsplit ?_
      rw [← hlength, List.getElem?_concat_length]

/-! ### Doing a job -/

/-- Duties are the same when the payloads in hand stand for the same entries. -/
theorem map_duty_congr (h : ∀ x ∈ handsOf js, n'.entriesIn x = n.entriesIn x) :
    js.map (·.duty n') = js.map (·.duty n) := by
  refine List.map_congr_left fun j hj => ?_
  have hx : ∀ x, j.payload? = some x → n'.entriesIn x = n.entriesIn x := fun x hx =>
    h x (List.mem_filterMap.2 ⟨j, hj, hx⟩)
  cases j with
  | serve r => simp only [Job.duty, errand, hx r.payload rfl]
  | send task branch x => simp only [Job.duty, batch, hx x rfl]
  | apply task path x shared => simp only [Job.duty, batch, hx x rfl]
  | share task path x => simp only [Job.duty, batch, hx x rfl]
  | drop x => rfl
  | retry => rfl
  | resend o => rfl
  | merge => rfl

/-- What doing a job without the router comes to. -/
structure Performs (n : Node) (j : Job) (js js' : List Job) (n' : Node) : Prop where
  sound : n'.Sound (handsOf (js' ++ js))
  fulfils : n.view.Fulfils (j.duty n) (js'.map (·.duty n')) n'.view
  kept_eq : ∀ x ∈ handsOf js, n'.entriesIn x = n.entriesIn x
  serial_le : n.serial ≤ n'.serial

theorem performs_of_yields {js' : List Job} {v : View}
    (h : n.Yields (handsOf js) (handsOf (js' ++ js)) v n')
    (hf : n.view.Fulfils (j.duty n) (js'.map (·.duty n')) v) : n.Performs j js js' n' :=
  ⟨h.sound, h.view_eq ▸ hf, h.kept_eq, h.serial_le⟩

/-- What splitting the payload of a request comes to. -/
theorem Sound.splitJobs {r : Request} (h : n.Sound (r.payload :: handsOf js)) (task : Task)
    (w : ω) (owned : Payload → Job) (ownedDuty : Batch → Duty)
    (howned : ∀ x, (owned x).payload? = some x)
    (hduty : ∀ n x, (owned x).duty n = ownedDuty (n.batch x)) :
    ∃ js' n', Node.splitJobs task r.payload owned (n, w) = (js', n', w) ∧
      n.Yields (handsOf js) (handsOf (js' ++ js)) n.view n' ∧
      js'.map (·.duty n') = Duty.sends task n.peer.path (n.errand r).batch ++
        ((n.errand r).batch.owned n.peer.path).toList.map ownedDuty := by
  obtain ⟨levels, own, n', hrun, hy, hlevels, hown⟩ := h.split_parts n.peer.path
  have hl : levels.length ≤ n.peer.path.length := by
    simpa using Nat.le_of_eq (congrArg List.length hlevels)
  refine ⟨Job.sends task n.peer.path levels ++ own.toList.map owned, n', ?_, ?_, ?_⟩
  · simp only [Node.splitJobs, hrun]
  · rw [handsOf_append, handsOf_append, handsOf_sends hl, List.append_assoc,
      handsOf_map_owned howned]
    exact hy
  · rw [List.map_append, Job.map_duty_sends hlevels]
    congr 1
    rw [show (n.errand r).batch = n.batch r.payload from rfl, ← hown]
    cases own with
    | none => rfl
    | some x => exact congrArg (· :: []) (hduty n' x)

/-- Serving a request does its duty. -/
theorem Sound.perform_serve {r : Request} (h : n.Sound (handsOf (.serve r :: js))) (w : ω) :
    ∃ js' n', Node.perform router (.serve r) (n, w) = (js', n', w) ∧
      n.Performs (.serve r) js js' n' := by
  have hr : n.Sound (r.payload :: handsOf js) := h
  let task : Task := ⟨r.operation, r.parent, r.isLocal⟩
  cases ho : r.origin with
  | here =>
    by_cases hnil : r.payload = .entries []
    · refine ⟨[], n, by simp only [Node.perform, ho, if_pos hnil],
        performs_of_yields (hr.of_cons.yields _) (.nothing ho ?_ ?_)⟩
      · simp only [errand, hnil]
        rfl
      · simp only [errand, hnil]
        rfl
    · by_cases hs : n.peer.isSuperPeer = true
      · obtain ⟨js', n', hrun, hy, hmap⟩ := hr.splitJobs task w (.share task n.peer.path)
          (.share task n.peer.path) (fun _ => rfl) fun _ _ => rfl
        refine ⟨js', n', by simpa only [Node.perform, ho, if_neg hnil, if_pos hs] using hrun,
          performs_of_yields hy ?_⟩
        rw [hmap]
        exact .split ho hs
      · have hs' : n.view.peer.isSuperPeer = false := (Bool.not_eq_true _).mp hs
        have hne : (n.errand r).inFile = false → (n.errand r).entries ≠ [] := by
          rw [errand]
          cases hx : r.payload with
          | entries batch => exact fun _ hbatch => hnil (hx.trans (congrArg _ hbatch))
          | file f => exact fun hfile => Bool.noConfusion hfile
        exact ⟨[.send task .root r.payload], n,
          by simp only [Node.perform, ho, if_neg hnil, if_neg hs]; rfl,
          performs_of_yields (hr.yields _) (.root (r := n.errand r) ho hs' hne)⟩
  | peer message parent viaReplica =>
    cases viaReplica with
    | true =>
      exact ⟨[.apply task n.peer.path r.payload false], n,
        by simp only [Node.perform, ho, if_true]; rfl,
        performs_of_yields (hr.yields _) (.replica (r := n.errand r) ho)⟩
    | false =>
      obtain ⟨js', n', hrun, hy, hmap⟩ := hr.splitJobs task w (.apply task n.peer.path · true)
        (.apply task n.peer.path · true) (fun _ => rfl) fun _ _ => rfl
      refine ⟨js', n', ?_, performs_of_yields hy ?_⟩
      · simp only [Node.perform, ho]
        exact hrun
      · rw [hmap]
        exact .splitOther (r := n.errand r) ho

/-- Sending an outbound list again takes it in hand. -/
theorem Sound.perform_resend {o : Operation} (h : n.Sound (handsOf js)) (w : ω) :
    ∃ js' n', Node.perform router (.resend o) (n, w) = (js', n', w) ∧
      n.Performs (.resend o) js js' n' := by
  by_cases hnil : n.view.list (.outbound o) = []
  · obtain ⟨n', hrun, hy⟩ := h.takeOutbound_nil hnil
    exact ⟨[], n', by simp only [Node.perform, hrun], performs_of_yields hy (.resendNothing hnil)⟩
  · obtain ⟨f, n', hrun, hy, hentries⟩ := h.takeOutbound hnil
    have hy' := hy.trans (hy.sound.tick (handsOf js))
    refine ⟨[.serve ⟨.ofSerial n'.serial, o, .file f, .here⟩], { n' with serial := n'.serial + 1 },
      by simp only [Node.perform, hrun]; rfl, performs_of_yields hy' ?_⟩
    rw [List.map_singleton, Job.duty, errand]
    rw [show ({ n' with serial := n'.serial + 1 } : Node).entriesIn (.file f) = _ from hentries,
      hy.view_eq]
    exact .resend hnil

/-- Every job that does not call the router does its duty. -/
theorem Sound.perform (h : n.Sound (handsOf (j :: js))) (hj : ¬j.Routes) (w : ω) :
    ∃ js' n', Node.perform router j (n, w) = (js', n', w) ∧ n.Performs j js js' n' := by
  cases j with
  | serve r => exact h.perform_serve w
  | send task branch x => exact absurd trivial hj
  | share task path x => exact absurd trivial hj
  | apply task path x shared =>
    have hx : n.Sound (x :: handsOf js) := h
    have hy := hx.applyPayload path task.operation
    have hbatch : (n.applyPayload path task.operation x).batch x = n.batch x := by
      rw [batch, batch, hy.kept_eq x (List.mem_cons_self ..)]
    refine ⟨[if shared then .share task path x else .drop x], _, rfl, ?_⟩
    cases shared with
    | true =>
      refine performs_of_yields (hy.mono (List.subset_cons_self ..)) ?_
      change n.view.Fulfils _ [.share task path ((n.applyPayload path task.operation x).batch x)] _
      rw [hbatch]
      exact .apply
    | false => exact performs_of_yields (hy.mono (List.subset_cons_self ..)) .apply
  | drop x =>
    have hx : n.Sound (x :: handsOf js) := h
    exact ⟨[], _, rfl, performs_of_yields hx.releasePayload .drop⟩
  | retry =>
    have hjs : n.Sound (handsOf js) := h
    obtain ⟨n', hrun, hy⟩ := hjs.retryDue
    cases hdue : n.isRetryDue with
    | false =>
      rw [hdue] at hrun
      exact ⟨[], n', by simp only [Node.perform, hrun], performs_of_yields hy .wait⟩
    | true =>
      rw [hdue] at hrun
      -- the jobs that come of it have nothing in hand yet
      have hy' : n.Yields (handsOf js) (handsOf (Operation.all.map .resend ++ js)) n.view
          { n' with lastRetry := some n'.clock } :=
        ⟨⟨hy.sound.inventory, hy.sound.named⟩, hy.view_eq, hy.kept_eq, hy.serial_le⟩
      exact ⟨Operation.all.map .resend, _, by simp only [Node.perform, hrun],
        performs_of_yields hy' .retry⟩
  | resend o =>
    have hjs : n.Sound (handsOf js) := h
    exact hjs.perform_resend w
  | merge =>
    have hjs : n.Sound (handsOf js) := h
    exact ⟨[], _, rfl, performs_of_yields hjs.merge .merge⟩

/-! ### Jobs that call the router -/

/-- A dispatch as a message in flight. -/
def loaded (n : Node) (d : Dispatch) : Carried :=
  ⟨d.sender, d.message.header.id, d.message.header.operation, n.entriesIn d.message.cargo.payload⟩

/-- The message of a payload, under the next name of the node. -/
def dispatch (n : Node) (task : Task) (target : Target) (branch : Key) (x : Payload) : Dispatch :=
  ⟨⟨⟨.ofSerial n.serial, branch, task.operation, task.parent⟩, x.cargo⟩, target, x.engine⟩

/-- The message of a payload has its entries, as long as the payload stands for them. -/
theorem loaded_dispatch (hx : n'.entriesIn x = n.entriesIn x) (task : Task) (target : Target)
    (branch : Key) : n'.loaded (n.dispatch task target branch x) =
      ⟨x.engine, .ofSerial n.serial, task.operation, n.entriesIn x⟩ := by
  rw [loaded, dispatch, Payload.payload_cargo, hx]

/-- The message of a payload that is sent is in flight before the router sees it. -/
theorem Sound.send (h : n.Sound (x :: hands)) (router : Router ω) (task : Task) (branch : Key)
    (w : ω) :
    ∃ n', Node.send router task branch x (n, w) =
        router (n.dispatch task (.toward branch) branch x) n' w ∧
      n'.volume.CanRead x ∧ n'.entriesIn x = n.entriesIn x ∧ n.serial < n'.serial ∧
      n.Yields hands hands
        (n.view.fly ⟨x.engine, .ofSerial n.serial, task.operation, n.entriesIn x⟩) n' := by
  have hy := h.launch task (Nat.lt_succ_self _) (x :: hands)
  have hread : n.volume.CanRead x := h.inventory.canRead x (List.mem_cons_self ..)
  refine ⟨_, rfl, ?_, hy.kept_eq x (List.mem_cons_self ..), ?_,
    hy.mono (List.subset_cons_self ..)⟩
  · cases x <;> exact hread
  · cases x <;> exact Nat.lt_succ_self n.serial

/-- A payload that is shared stays in hand. -/
theorem Sound.broadcast (h : n.Sound (x :: hands)) (router : Router ω) (task : Task) (path : Key)
    (w : ω) :
    ∃ n', Node.broadcast router task path x (n, w) =
        router (n.dispatch task .replicas path x) n' w ∧
      n'.volume.CanRead x ∧ n.serial < n'.serial ∧
      n.Yields (x :: hands) (x :: hands) n.view n' :=
  ⟨_, rfl, h.inventory.canRead x (List.mem_cons_self ..), Nat.lt_succ_self n.serial, h.tick _⟩

/-- When a payload is sent, its message is in flight before the router sees it. -/
theorem Sound.perform_send {task : Task} {branch : Key} {x : Payload}
    (h : n.Sound (handsOf (.send task branch x :: js))) (w : ω) :
    ∃ d n', Node.perform router (.send task branch x) (n, w) = ([], router d n' w) ∧
      d.target = .toward branch ∧
      n'.loaded d = ⟨x.engine, .ofSerial n.serial, task.operation, n.entriesIn x⟩ ∧
      n'.volume.CanRead d.message.cargo.payload ∧ n.serial < n'.serial ∧
      n.Yields (handsOf js) (handsOf js) (n.view.fly (n'.loaded d)) n' := by
  have hx : n.Sound (x :: handsOf js) := h
  obtain ⟨n', hrun, hread, hentries, hserial, hy⟩ := hx.send router task branch w
  have hloaded := loaded_dispatch hentries task (.toward branch) branch
  refine ⟨_, n', congrArg _ hrun, rfl, hloaded, ?_, hserial, hloaded ▸ hy⟩
  rwa [dispatch, Payload.payload_cargo]

/-- When a payload is shared, it stays in hand. -/
theorem Sound.perform_share {task : Task} {path : Key} {x : Payload}
    (h : n.Sound (handsOf (.share task path x :: js))) (w : ω) :
    ∃ d n', Node.perform router (.share task path x) (n, w) = ([.drop x], router d n' w) ∧
      d.target = .replicas ∧
      n'.loaded d = ⟨x.engine, .ofSerial n.serial, task.operation, n.entriesIn x⟩ ∧
      n'.volume.CanRead d.message.cargo.payload ∧ n.serial < n'.serial ∧
      n.Yields (handsOf (.drop x :: js)) (handsOf (.drop x :: js)) n.view n' := by
  have hx : n.Sound (x :: handsOf js) := h
  obtain ⟨n', hrun, hread, hserial, hy⟩ := hx.broadcast router task path w
  have hloaded := loaded_dispatch (hy.kept_eq x (List.mem_cons_self ..)) task .replicas path
  refine ⟨_, n', congrArg _ hrun, rfl, hloaded, ?_, hserial, hy⟩
  rwa [dispatch, Payload.payload_cargo]

end Node

end TrieOverlay
