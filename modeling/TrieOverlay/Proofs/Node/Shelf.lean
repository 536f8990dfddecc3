import TrieOverlay.Proofs.Bulk.Shelf
import TrieOverlay.Proofs.Node.Duties
import TrieOverlay.Proofs.Node.Opening

/-!
# The scratch files of a node during a cycle

On a volume on which any call may fail, a node is *tidy* (`Node.Tidy`) if the files in its scratch
directory are those of the requests that wait, of the messages in flight and of the payloads in
hand, each once.  Every job of a cycle leaves the node tidy with what is in hand then
(`Node.Tidy.perform`), and so does the cycle (`Node.Tidy.cycle`), if that is so for the router.
-/

namespace TrieOverlay

variable {dir : Path} {held : List ScratchFile}

/-! ### Payloads and their files -/

/-- The file of a payload, if it is one. -/
def Payload.file? : Payload → Option ScratchFile
  | .entries _ => none
  | .file f => some f

/-- The files among some payloads. -/
def filesOf (xs : List Payload) : List ScratchFile :=
  xs.filterMap Payload.file?

@[simp] theorem filesOf_append (xs ys : List Payload) :
    filesOf (xs ++ ys) = filesOf xs ++ filesOf ys :=
  List.filterMap_append

@[simp] theorem filesOf_entries_cons (batch : List Entry) (xs : List Payload) :
    filesOf (.entries batch :: xs) = filesOf xs :=
  List.filterMap_cons_none rfl

@[simp] theorem filesOf_file_cons (f : ScratchFile) (xs : List Payload) :
    filesOf (.file f :: xs) = f :: filesOf xs :=
  List.filterMap_cons_some rfl

theorem filesOf_filterMap_file (files : List (Option ScratchFile)) :
    filesOf ((files.map fun f => f.map .file).filterMap id) = files.filterMap id := by
  rw [filesOf, List.filterMap_filterMap, List.filterMap_map]
  refine List.filterMap_congr fun f _ => ?_
  cases f <;> rfl

theorem filesOf_perm {xs ys : List Payload} (h : xs.Perm ys) : (filesOf xs).Perm (filesOf ys) :=
  h.filterMap _

/-! ### Holdings -/

namespace Holdings

variable {g g' : Holdings} {v v' : Volume} {b : Buffer} {l : BulkList}

/-- The scratch directory and the lists of a peer are where they belong in a directory, and the
files in the scratch directory are those that somebody holds. -/
structure InOrder (dir : Path) (held : List ScratchFile) (g : Holdings) (v : Volume) : Prop where
  scratch : g.scratch = dir.child scratchName
  list : ∀ b, (g.list b).path = dir.child (Node.nameOf b)
  shelf : v.Shelf (dir.child scratchName) held

namespace InOrder

/-- No list is in the scratch directory. -/
theorem outside (h : g.InOrder dir held v) (b : Buffer) :
    (g.list b).path.isChildOf (dir.child scratchName) = false := by
  rw [h.list]
  exact Path.not_isChildOf_child dir _ _

theorem of_shelf (h : g.InOrder dir held v) {held' : List ScratchFile}
    (hv : v'.Shelf (dir.child scratchName) held') : g.InOrder dir held' v' :=
  ⟨h.scratch, h.list, hv⟩

/-- Changes of the store leave the files where they are. -/
theorem of_list_eq (h : g.InOrder dir held v) (hlist : g'.list = g.list)
    (hscratch : g'.scratch = g.scratch) : g'.InOrder dir held v :=
  ⟨hscratch.trans h.scratch, fun b => by rw [hlist]; exact h.list b, h.shelf⟩

theorem setList (h : g.InOrder dir held v) (hl : l.path = (g.list b).path) :
    (g.setList b l).InOrder dir held v := by
  refine ⟨(scratch_setList ..).trans h.scratch, fun b' => ?_, h.shelf⟩
  rw [list_setList, Volume.Inventory.path_update hl]
  exact h.list b'

theorem append (h : g.InOrder dir held v) (b : Buffer) (entries : List Entry) :
    (do let (k, l) ← (g.list b).tryAdd entries
        return (k, g.setList b l) : TryDisk (Nat × Holdings)).Ends v
      (fun r v' => r.2.InOrder dir held v') fun _ v' => v'.Shelf (dir.child scratchName) held := by
  refine (BulkList.ends_tryAdd h.shelf.tree (g.list b) entries).bind_imp
    (fun _ _ hw => h.shelf.elsewhere hw (h.outside b)) ?_
  rintro r v₁ ⟨rfl, hw, -⟩
  exact TryDisk.ends_pure
    ((h.setList (l := (g.list b).renewed) rfl).of_shelf (h.shelf.elsewhere hw (h.outside b)))

theorem counted (h : g.InOrder dir held v) (b : Buffer) :
    (do let (k, l) ← (g.list b).count
        return (k, g.setList b l) : Disk (Nat × Holdings)).Ends v
      fun r v' => r.2.InOrder dir held v' := by
  refine (BulkList.ends_count h.shelf.tree (g.list b)).bind ?_
  rintro ⟨k, l⟩ v₁ ⟨hw, hpath, -⟩
  exact Disk.ends_pure ((h.setList hpath).of_shelf (h.shelf.untouched hw))

theorem outboundCount (h : g.InOrder dir held v) :
    g.outboundCount.Ends v fun r v' => r.2.InOrder dir held v' := by
  refine (h.counted (.outbound .delete)).bind fun r₁ v₁ h₁ => ?_
  refine (h₁.counted (.outbound .insert)).bind fun r₂ v₂ h₂ => ?_
  refine (h₂.counted (.outbound .update)).bind fun r₃ v₃ h₃ => ?_
  exact Disk.ends_pure h₃

theorem hasInbound (h : g.InOrder dir held v) :
    g.hasInbound.Ends v fun r v' => r.2.InOrder dir held v' := by
  have hcounted : (g.list .inbound).count.Ends v fun r v' =>
      (g.setList .inbound r.2).InOrder dir held v' := h.counted .inbound
  rw [Holdings.hasInbound, BulkList.isEmpty]
  simp only [bind_assoc, pure_bind]
  exact hcounted.bind fun r v₁ h₁ => Disk.ends_pure h₁

theorem hasOutboundAmong (h : g.InOrder dir held v) (os : List Operation) :
    (g.hasOutboundAmong os).Ends v fun r v' => r.2.InOrder dir held v' := by
  induction os generalizing g v with
  | nil => exact Disk.ends_pure h
  | cons o os ih =>
    refine Disk.Ends.bind (h.counted (.outbound o)) ?_
    rintro ⟨k, g₁⟩ v₁ h₁
    dsimp only
    split
    · exact ih h₁
    · exact Disk.ends_pure h₁

theorem mergeInbound (h : g.InOrder dir held v) :
    g.mergeInbound.Ends v (fun r v' => r.2.InOrder dir held v')
      fun _ v' => v'.Shelf (dir.child scratchName) held := by
  refine (BulkList.ends_takeAll h.shelf.tree g.inbound).bind_imp
    (fun _ _ hw => h.shelf.untouched hw) ?_
  rintro r v₁ ⟨es, -, rfl, hw, -⟩
  have hlist : (g.setList .inbound g.inbound.renewed).InOrder dir held v₁ :=
    (h.setList (b := .inbound) (l := g.inbound.renewed) rfl).of_shelf
      (h.shelf.elsewhere hw (h.outside .inbound))
  dsimp only
  split
  · exact TryDisk.ends_pure hlist
  · exact TryDisk.ends_pure (hlist.of_list_eq (Node.list_add _ _) rfl)

/-- The entries of an outbound list go into a new file, which is in the hands of the caller. -/
theorem takeOutbound (h : g.InOrder dir held v) (o : Operation) :
    (g.takeOutbound o).Ends v (fun r v' => r.2.InOrder dir (r.1.toList ++ held) v')
      fun _ v' => v'.Shelf (dir.child scratchName) held := by
  rw [Holdings.takeOutbound, h.scratch]
  refine (BulkList.shelf_takeInto h.shelf _ (h.outside (.outbound o))).bind ?_
  rintro ⟨file, l⟩ v₁ ⟨hpath, hshelf⟩
  exact TryDisk.ends_pure ((h.setList (b := .outbound o) hpath).of_shelf hshelf)

end InOrder

end Holdings

namespace Node

variable {α : Type} {n : Node} {hands hands' : List Payload} {x : Payload} {v : Volume}
  {g : Holdings}

/-! ### Computations that may fail -/

section Ends

variable {P : α → Volume → Prop} {Q : StorageError → Volume → Prop}
  {R : α × Holdings → Volume → Prop}

@[elab_as_elim]
theorem onDisk_ends {act : Disk α} {motive : α × Node → Prop} (h : act.Ends n.volume P)
    (hend : ∀ a v, P a v → motive (a, { n with volume := v })) : motive (n.onDisk act) :=
  hend _ _ h

@[elab_as_elim]
theorem tryOnDisk_ends {act : TryDisk α} {motive : Except StorageError α × Node → Prop}
    (h : act.Ends n.volume P Q) (hok : ∀ a v, P a v → motive (.ok a, { n with volume := v }))
    (herror : ∀ e v, Q e v → motive (.error e, { n with volume := v })) :
    motive (n.tryOnDisk act) := by
  rw [tryOnDisk]
  refine onDisk_ends h fun r v hr => ?_
  cases r with
  | ok a => exact hok a v hr
  | error e => exact herror e v hr

@[elab_as_elim]
theorem ask_ends {act : Holdings → Disk (α × Holdings)} {motive : α × Node → Prop}
    (h : (act n.holdings).Ends n.volume R)
    (hend : ∀ a g v, R (a, g) v → motive (a, { n with holdings := g, volume := v })) :
    motive (n.ask act) :=
  hend _ _ _ h

@[elab_as_elim]
theorem tryAsk_ends {act : Holdings → TryDisk (α × Holdings)}
    {motive : Except StorageError α × Node → Prop} (h : (act n.holdings).Ends n.volume R Q)
    (hok : ∀ a g v, R (a, g) v → motive (.ok a, { n with holdings := g, volume := v }))
    (herror : ∀ e v, Q e v → motive (.error e, { n with volume := v })) :
    motive (n.tryAsk act) := by
  rw [tryAsk]
  exact tryOnDisk_ends h (fun r v hr => hok r.1 r.2 v hr) herror

end Ends

/-! ### Tidy nodes -/

/-- The files in the scratch directory of a node are those of the payloads in hand, of the requests
that wait and of the messages in flight, whose names were made up by the node. -/
structure Tidy (dir : Path) (hands : List Payload) (n : Node) : Prop where
  order : n.holdings.InOrder dir (filesOf (hands ++ n.payloads)) n.volume
  named : ∀ f ∈ n.flights, ∃ k < n.serial, f.id = .ofSerial k

namespace Tidy

theorem shelf (h : n.Tidy dir hands) :
    n.volume.Shelf (dir.child Holdings.scratchName) (filesOf (hands ++ n.payloads)) :=
  h.order.shelf

theorem of_order (h : n.Tidy dir hands) (hg : g.InOrder dir (filesOf (hands' ++ n.payloads)) v) :
    ({ n with holdings := g, volume := v } : Node).Tidy dir hands' :=
  ⟨hg, h.named⟩

theorem of_volume (h : n.Tidy dir hands)
    (hv : v.Shelf (dir.child Holdings.scratchName) (filesOf (hands' ++ n.payloads))) :
    ({ n with volume := v } : Node).Tidy dir hands' :=
  h.of_order (h.order.of_shelf hv)

theorem of_writes (h : n.Tidy dir hands) (hw : Volume.Writes [] n.volume v) :
    ({ n with volume := v } : Node).Tidy dir hands :=
  h.of_volume (h.shelf.untouched hw)

/-- Payloads that are no files come and go. -/
theorem of_filesOf_eq (h : n.Tidy dir hands) (hfiles : filesOf hands' = filesOf hands) :
    n.Tidy dir hands' := by
  refine ⟨?_, h.named⟩
  rw [filesOf_append, hfiles, ← filesOf_append]
  exact h.order

/-- Payloads move between hands, requests and messages. -/
theorem of_perm {n' : Node} (h : n.Tidy dir hands) (hsame : n.SameFiles n')
    (hperm : (hands ++ n.payloads).Perm (hands' ++ n'.payloads))
    (hnamed : ∀ f ∈ n'.flights, ∃ k < n'.serial, f.id = .ofSerial k) : n'.Tidy dir hands' := by
  refine ⟨?_, hnamed⟩
  rw [hsame.holdings, hsame.volume]
  exact h.order.of_shelf (h.shelf.perm (filesOf_perm hperm))

theorem tryAsk {act : Holdings → TryDisk (α × Holdings)} (h : n.Tidy dir hands)
    (hact : (act n.holdings).Ends n.volume
      (fun r v => r.2.InOrder dir (filesOf (hands ++ n.payloads)) v)
      fun _ v => v.Shelf (dir.child Holdings.scratchName) (filesOf (hands ++ n.payloads))) :
    (n.tryAsk act).2.Tidy dir hands :=
  tryAsk_ends hact (fun _ _ _ hg => h.of_order hg) fun _ _ hv => h.of_volume hv

theorem ask {act : Holdings → Disk (α × Holdings)} (h : n.Tidy dir hands)
    (hact : (act n.holdings).Ends n.volume
      fun r v => r.2.InOrder dir (filesOf (hands ++ n.payloads)) v) :
    (n.ask act).2.Tidy dir hands :=
  ask_ends hact fun _ _ _ hg => h.of_order hg

/-! ### Requests and applied payloads -/

theorem tick (h : n.Tidy dir hands) :
    ({ n with serial := n.serial + 1 } : Node).Tidy dir hands := by
  refine ⟨h.order, fun f hf => ?_⟩
  obtain ⟨k, hk, hname⟩ := h.named f hf
  exact ⟨k, Nat.lt_succ_of_lt hk, hname⟩

/-- A payload in hand becomes a request that waits. -/
theorem push {r : Request} (h : n.Tidy dir (r.payload :: hands)) : (n.push r).Tidy dir hands := by
  refine h.of_perm ⟨rfl, rfl, rfl, rfl⟩ ?_ h.named
  have hpayloads : (n.push r).payloads.Perm (r.payload :: n.payloads) := by
    rw [payloads, payloads, ← List.cons_append, ← List.map_cons]
    exact ((inOrder_push_perm n.queues r).map _).append_right _
  exact (List.perm_middle.symm.trans (hpayloads.symm.append_left hands))

theorem submit (h : n.Tidy dir (x :: hands)) (o : Operation) : (n.submit o x).Tidy dir hands :=
  h.tick.push (r := ⟨.ofSerial n.serial, o, x, .here⟩)

theorem submitFrom (h : n.Tidy dir (x :: hands)) (o : Operation) (message : MessageId)
    (parent : RequestId) (viaReplica : Bool) :
    (n.submitFrom o x message parent viaReplica).Tidy dir hands :=
  h.tick.push (r := ⟨.ofSerial n.serial, o, x, .peer message parent viaReplica⟩)

theorem entries_cons (h : n.Tidy dir hands) (batch : List Entry) :
    n.Tidy dir (.entries batch :: hands) :=
  h.of_filesOf_eq rfl

theorem requeue (h : n.Tidy dir hands) (o : Operation) (entries : List Entry) :
    (n.requeue o entries).Tidy dir hands :=
  h.tryAsk (h.order.append (.outbound o) entries)

theorem remove (h : n.Tidy dir hands) (entries : List Entry) :
    ({ n with holdings := (n.holdings.remove entries).2 } : Node).Tidy dir hands :=
  h.of_order (h.order.of_list_eq (list_remove _ _) rfl)

theorem applyUpdate (h : n.Tidy dir hands) (path : Key) (entries : List Entry) :
    ({ n with holdings := (n.holdings.applyUpdate path n.keys entries).2 } : Node).Tidy dir
      hands := by
  obtain ⟨-, hlist, hscratch, -⟩ := applyUpdate_eq n.holdings path n.view rfl entries
  exact h.of_order (h.order.of_list_eq hlist hscratch)

theorem applyOwned (h : n.Tidy dir hands) (path : Key) (o : Operation) (entries : List Entry) :
    (n.applyOwned path o entries).Tidy dir hands := by
  unfold Node.applyOwned
  split
  · exact h
  · cases o with
    | insert => exact h.tryAsk (h.order.append .inbound entries)
    | update =>
      have hupdate := h.applyUpdate path entries
      dsimp only
      split
      · exact hupdate
      · exact (hupdate.entries_cons _).submit .insert
    | delete => exact h.remove entries

/-- A file in hand is read; what it holds is used if it can be read. -/
theorem readFile (h : n.Tidy dir hands) (f : ScratchFile) {use : List Entry → Node → Node}
    (huse : ∀ es n, n.Tidy dir hands → (use es n).Tidy dir hands) :
    (match n.tryOnDisk f.entries with
      | (.ok entries, n) => use entries n
      | (.error _, n) => n).Tidy dir hands := by
  refine tryOnDisk_ends (Bulk.ends_readEntries h.shelf.tree f.path) (fun es v hw => ?_)
    fun e v hw => h.of_writes hw
  exact huse es _ (h.of_writes hw.1)

theorem applyPayload (h : n.Tidy dir hands) (path : Key) (o : Operation) (x : Payload) :
    (n.applyPayload path o x).Tidy dir hands := by
  cases x with
  | entries batch => exact h.applyOwned path o batch
  | file f => exact h.readFile f fun es _ hn => hn.applyOwned path o es

theorem takeBack (h : n.Tidy dir hands) (o : Operation) (x : Payload) :
    (n.takeBack o x).Tidy dir hands := by
  cases x with
  | entries batch => exact h.requeue o batch
  | file f => exact h.readFile f fun es _ hn => hn.requeue o es

/-- The end of a payload in hand. -/
theorem releasePayload (h : n.Tidy dir (x :: hands)) : (n.releasePayload x).Tidy dir hands := by
  cases x with
  | entries batch => exact h.of_filesOf_eq rfl
  | file f =>
    rw [Node.releasePayload]
    exact onDisk_ends (ScratchFile.shelf_release h.shelf) fun _ _ hv => h.of_volume hv

/-! ### Messages -/

/-- A payload in hand takes off under a new name. -/
theorem takeOff (h : n.Tidy dir (x :: hands)) (task : Task) :
    (({ n with serial := n.serial + 1 } : Node).takeOff (.ofSerial n.serial) task x).Tidy dir
      hands := by
  obtain ⟨hsame, hqueues, hserial⟩ :=
    ({ n with serial := n.serial + 1 } : Node).takeOff_same (.ofSerial n.serial) task x
  refine h.tick.of_perm hsame ?_ ?_
  · have hperm := payloads_perm (n := n) hqueues (flights_takeOff_perm h.named task x _)
    exact List.perm_middle.symm.trans (hperm.symm.append_left hands)
  · rw [hserial]
    exact named_takeOff h.named task x (Nat.lt_succ_self _)

/-- The payload of a message that was reported on is in hand, until it is settled. -/
theorem report (h : n.Tidy dir hands) (sender : Engine) (id : MessageId) (delivered : Bool) :
    (n.report sender id delivered).Tidy dir hands := by
  by_cases hm : ∃ m ∈ n.flights, m.sender = sender ∧ m.id = id
  · obtain ⟨m, hm, rfl, rfl⟩ := hm
    obtain ⟨n₁, hland, hsame, hqueues, hserial, hperm⟩ := land_flying hm
    have hland₁ : n₁.Tidy dir (m.payload :: hands) := by
      refine h.of_perm hsame ?_ fun f hf => ?_
      · exact ((payloads_perm hqueues.symm hperm).append_left hands).trans List.perm_middle
      · rw [hserial]
        exact h.named f (hperm.mem_iff.2 (List.mem_cons_of_mem _ hf))
    rw [Node.report, hland]
    cases delivered with
    | true => exact hland₁.releasePayload
    | false => exact (hland₁.takeBack m.operation m.payload).releasePayload
  · have hnot : ∀ f ∈ n.flights, ¬(f.sender = sender ∧ f.id = id) := fun f hf hc =>
      hm ⟨f, hf, hc⟩
    rw [Node.report, land_of_not_flying hnot]
    exact h

/-! ### Splitting -/

/-- The parts of a payload are in hand instead of it; nothing is if a file could not be split. -/
theorem split (h : n.Tidy dir (x :: hands)) (path : Key) :
    match n.split path x with
    | (some (levels, owned), n') => levels.length = path.length ∧
        n'.Tidy dir (levels.filterMap id ++ (owned.toList ++ hands))
    | (none, n') => n'.Tidy dir hands := by
  cases x with
  | entries batch =>
    have hparts : ∀ batches : List (List Entry), filesOf ((batches.map payloadOf).filterMap id) =
        [] := by
      intro batches
      refine List.filterMap_eq_nil_iff.2 fun y hy => ?_
      obtain ⟨part, hpart, hy⟩ := List.mem_filterMap.1 hy
      obtain ⟨es, -, rfl⟩ := List.mem_map.1 hpart
      have hpath := path?_of_mem_payloadOf hy
      cases y with
      | entries batch => rfl
      | file f => cases hpath
    have howned : ∀ es : List Entry, filesOf (payloadOf es).toList = [] := by
      intro es
      have := hparts [es]
      cases hpart : payloadOf es <;> simpa [hpart] using this
    refine ⟨by simp, h.of_filesOf_eq ?_⟩
    rw [filesOf_append, filesOf_append, hparts, howned]
    rfl
  | file f =>
    simp only [Node.split, h.order.scratch]
    refine tryOnDisk_ends (Bulk.shelf_splitByLevel h.shelf path) (fun files v hv => ?_)
      fun e v hv => h.of_volume hv
    obtain ⟨hlength, hshelf⟩ := hv
    obtain ⟨levels, owned, rfl, hlevels⟩ := exists_levels_and_owned hlength
    have howned : filesOf (owned.map Payload.file).toList = [owned].filterMap id := by
      cases owned <;> rfl
    simp only [List.map_append, List.map_cons, List.map_nil, List.dropLast_concat,
      List.getLastD_concat]
    refine ⟨(List.length_map _).trans hlevels, h.of_volume ?_⟩
    rw [List.filterMap_append] at hshelf
    rw [List.append_assoc, List.append_assoc, filesOf_append, filesOf_append,
      filesOf_filterMap_file, howned, ← List.append_assoc]
    exact hshelf

end Tidy

/-! ### Jobs -/

section Jobs

variable {ω : Type} {router : Router ω} {js : List Job} {j : Job} {s : Node × ω}

/-- A router leaves every node tidy that is tidy. -/
def RouterTidy (dir : Path) (router : Router ω) : Prop :=
  ∀ d n w hands, n.Tidy dir hands → (router d n w).1.Tidy dir hands

namespace Tidy

theorem send (hrouter : RouterTidy dir router) (h : s.1.Tidy dir (x :: hands)) (task : Task)
    (branch : Key) : (send router task branch x s).1.Tidy dir hands :=
  hrouter _ _ _ _ (h.takeOff task)

theorem broadcast (hrouter : RouterTidy dir router) (h : s.1.Tidy dir hands) (task : Task)
    (path : Key) (x : Payload) : (broadcast router task path x s).1.Tidy dir hands :=
  hrouter _ _ _ _ h.tick

theorem splitJobs (h : s.1.Tidy dir (x :: handsOf js)) (task : Task) {owned : Payload → Job}
    (howned : ∀ x, (owned x).payload? = some x) :
    (splitJobs task x owned s).2.1.Tidy dir (handsOf ((splitJobs task x owned s).1 ++ js)) := by
  have hsplit := h.split s.1.peer.path
  rw [Node.splitJobs]
  rcases hparts : s.1.split s.1.peer.path x with ⟨_ | ⟨levels, own⟩, n⟩
  · rw [hparts] at hsplit
    exact hsplit
  · rw [hparts] at hsplit
    obtain ⟨hlength, htidy⟩ := hsplit
    dsimp only
    rw [handsOf_append, handsOf_append, handsOf_sends (Nat.le_of_eq hlength),
      handsOf_map_owned howned, List.append_assoc]
    exact htidy

theorem retryDue (h : n.Tidy dir hands) : n.retryDue.2.Tidy dir hands := by
  rw [Node.retryDue]
  split
  · exact h
  · exact h.ask (h.order.hasOutboundAmong Operation.all)

theorem hasInbound (h : n.Tidy dir hands) : (n.ask (·.hasInbound)).2.Tidy dir hands :=
  h.ask h.order.hasInbound

theorem merge (h : n.Tidy dir hands) : n.merge.Tidy dir hands := by
  have hasked := h.hasInbound
  rw [Node.merge]
  rcases hask : n.ask (·.hasInbound) with ⟨_ | _, n₁⟩
  · rw [hask] at hasked
    exact hasked
  · rw [hask] at hasked
    exact hasked.tryAsk hasked.order.mergeInbound

/-- Serving a request takes its payload on. -/
theorem perform_serve {r : Request} (h : s.1.Tidy dir (r.payload :: handsOf js)) :
    (perform router (.serve r) s).2.1.Tidy dir
      (handsOf ((perform router (.serve r) s).1 ++ js)) := by
  cases ho : r.origin with
  | here =>
    simp only [perform, ho]
    split
    · rename_i hnil
      rw [hnil] at h
      exact h.of_filesOf_eq rfl
    · split
      · exact h.splitJobs _ fun _ => rfl
      · exact h
  | peer message parent viaReplica =>
    simp only [perform, ho]
    split
    · exact h
    · exact h.splitJobs _ fun _ => rfl

/-- The entries of an outbound list are taken in hand, if there are any. -/
theorem perform_resend {o : Operation} (h : s.1.Tidy dir (handsOf js)) :
    (perform router (.resend o) s).2.1.Tidy dir
      (handsOf ((perform router (.resend o) s).1 ++ js)) := by
  simp only [Node.perform]
  refine tryAsk_ends (h.order.takeOutbound o) (fun file g v hg => ?_) fun e v hv => h.of_volume hv
  cases file with
  | none => exact h.of_order hg
  | some f =>
    have hfile : ({ s.1 with holdings := g, volume := v } : Node).Tidy dir
        (.file f :: handsOf js) := h.of_order hg
    exact hfile.tick

/-- A job leaves a tidy node, with what is in hand after it. -/
theorem perform (hrouter : RouterTidy dir router) (h : s.1.Tidy dir (handsOf (j :: js))) :
    (perform router j s).2.1.Tidy dir (handsOf ((perform router j s).1 ++ js)) := by
  cases j with
  | serve r => exact perform_serve h
  | send task branch x => exact send hrouter h task branch
  | apply task path x shared =>
    have happly : (s.1.applyPayload path task.operation x).Tidy dir (x :: handsOf js) :=
      h.applyPayload path task.operation x
    cases shared <;> exact happly
  | share task path x =>
    have hx : s.1.Tidy dir (x :: handsOf js) := h
    exact broadcast hrouter hx task path x
  | drop x => exact h.releasePayload
  | retry =>
    have hdue : s.1.retryDue.2.Tidy dir (handsOf js) := h.retryDue
    simp only [Node.perform]
    rcases hretry : s.1.retryDue with ⟨_ | _, n⟩
    · rw [hretry] at hdue
      exact hdue
    · rw [hretry] at hdue
      exact ⟨hdue.order, hdue.named⟩
  | resend o => exact perform_resend h
  | merge => exact merge h

/-- A cycle leaves a tidy node. -/
theorem cycle (hrouter : RouterTidy dir router) (h : s.1.Tidy dir []) :
    (cycle router s).1.Tidy dir [] := by
  refine cycle_induction (I := fun js s => s.1.Tidy dir (handsOf js))
    (fun j js s hs => perform hrouter hs) ?_
  rw [handsOf_start]
  exact ⟨h.order, h.named⟩

end Tidy

end Jobs

end Node

end TrieOverlay
