import TrieOverlay.Proofs.Node.Inputs
import TrieOverlay.Proofs.Node.Shelf

/-!
# Scratch files neither leak nor go away early

A node on a volume on which any call may fail, from the moment it is opened: whatever happens to it
(`Node.Happening`), also while its router is at work, and in whatever order (`Node.Script.run`),
between two steps the files in its scratch directory are those of the requests that wait and of the
messages in flight, each of them once (`Node.scratch_files_accounted`).  Removing files is the one
thing that must not fail: the removal of a directory of an earlier run when the node is opened
(`Volume.discard` never does).
-/

namespace TrieOverlay

/-! ### Opening -/

namespace Holdings

variable {v : Volume} {dir : Path}

/-- One of the lists is opened beside the scratch directory. -/
theorem ends_openList (hv : v.Shelf (dir.child scratchName) []) (b : Buffer) :
    (BulkList.openAt (dir.child (Node.nameOf b))).Ends v
      (fun l v' => l.path = dir.child (Node.nameOf b) ∧ v'.Shelf (dir.child scratchName) [])
      fun _ _ => True := by
  refine (BulkList.ends_openAt hv.tree _).imp ?_ fun _ _ _ => trivial
  rintro l v' ⟨rfl, hw, -⟩
  exact ⟨rfl, hv.elsewhere hw (Path.not_isChildOf_child dir _ _)⟩

/-- The lists are opened when nothing is in the scratch directory. -/
theorem ends_openLists (hv : v.Shelf (dir.child scratchName) []) :
    (do
      Volume.createDirectories (dir.child scratchName)
      let inbound ← BulkList.openAt (dir.child inboundName)
      let outboundDelete ← BulkList.openAt (dir.child (outboundName .delete))
      let outboundInsert ← BulkList.openAt (dir.child (outboundName .insert))
      let outboundUpdate ← BulkList.openAt (dir.child (outboundName .update))
      return { store := .named "canonical", inbound, outboundDelete, outboundInsert, outboundUpdate
               scratch := dir.child scratchName, listeners := .empty, journal := [] } :
      TryDisk Holdings).Ends v (fun g v' => g.InOrder dir [] v') fun _ _ => True := by
  refine (hv.tree.ends_createDirectories _).bind_imp (fun _ _ _ => trivial) fun _ v₁ hw₁ => ?_
  refine (ends_openList (hv.untouched hw₁) .inbound).bind fun l₁ v₂ ⟨hp₁, h₂⟩ => ?_
  refine (ends_openList h₂ (.outbound .delete)).bind fun l₂ v₃ ⟨hp₂, h₃⟩ => ?_
  refine (ends_openList h₃ (.outbound .insert)).bind fun l₃ v₄ ⟨hp₃, h₄⟩ => ?_
  refine (ends_openList h₄ (.outbound .update)).bind fun l₄ v₅ ⟨hp₄, h₅⟩ => ?_
  refine TryDisk.ends_pure ⟨rfl, fun b => ?_, h₅⟩
  rcases b with _ | o
  · exact hp₁
  · cases o
    · exact hp₂
    · exact hp₃
    · exact hp₄

/-- Nothing is in the scratch directory of a peer that starts. -/
theorem ends_openAt (ht : v.IsTree)
    (hremove : v.exists? (dir.child scratchName) = true → v.nextFault.1 = .pass) :
    (openAt dir).Ends v (fun g v' => g.InOrder dir [] v') fun _ _ => True := by
  have hempty : ∀ {v' : Volume}, v'.IsTree →
      (∀ q : Path, q.isChildOf (dir.child scratchName) = true → v'.bytes? q = none) →
      v'.Shelf (dir.child scratchName) [] := by
    intro v' htree hgone
    refine ⟨htree, fun f hf => ?_, by simp, List.nodup_nil⟩
    simp [hgone f.path hf]
  refine TryDisk.Ends.bind_get ?_
  cases hexists : v.exists? (dir.child scratchName) with
  | true =>
    have hremoved := (ht.ends_removeTree (hremove hexists) (dir.child scratchName)).tryCatch
      (Q := fun _ _ => True) (f := fun _ => pure ()) fun e v₁ h₁ => TryDisk.ends_pure h₁
    exact hremoved.bind fun _ v₁ ⟨htree, hgone⟩ => ends_openLists (hempty htree hgone)
  | false =>
    refine ends_openLists (hempty ht fun q hq => Volume.bytes?_of_not_directory (fun hd => ?_) hq)
    rw [Volume.exists?, hd] at hexists
    cases hexists

end Holdings

namespace Node

variable {α : Type} {n : Node} {dir : Path} {hands : List Payload}

theorem openAt_tidy {v : Volume} (ht : v.IsTree)
    (hremove : v.exists? (dir.child Holdings.scratchName) = true → v.nextFault.1 = .pass)
    {peer : LocalPeer} {keys : KeyScheme} {idlePoll : Nat}
    (hopen : openAt peer keys idlePoll dir v = .ok n) : n.Tidy dir [] := by
  have hends := Holdings.ends_openAt ht hremove
  rw [openAt] at hopen
  rcases hrun : (Holdings.openAt dir).run v with ⟨_ | g, v'⟩
  · rw [hrun] at hopen
    cases hopen
  · rw [hrun] at hopen
    cases hopen
    have hflights : ∀ n : Node, n.entryFlights = .empty → n.fileFlights = .empty →
        n.flights = [] := by
      intro n hentries hfiles
      simp [flights, hentries, hfiles, InFlight.toList, InFlight.empty]
    refine ⟨?_, fun f hf => ?_⟩
    · rw [payloads, hflights _ rfl rfl]
      exact hends.of_ok hrun
    · rw [hflights _ rfl rfl] at hf
      cases hf

/-! ### What happens to a node -/

/-- What can happen to a node at any moment, also while its router is at work. -/
inductive Happening where
  /-- A command is carried out, unless it takes a router. -/
  | command (command : Command)
  /-- A message of another peer arrives. -/
  | message (envelope : Envelope)
  /-- The outcome of a message is reported. -/
  | report (sender : Engine) (id : MessageId) (delivered : Bool)
  /-- Time passes. -/
  | wait (milliseconds : Nat)

/-- A node after something happened to it. -/
def undergo (n : Node) : Happening → Node
  | .command c => (Command.runAlone n c).2
  | .message e => (n.receive e).2
  | .report sender id delivered => n.report sender id delivered
  | .wait milliseconds => n.wait milliseconds

namespace Tidy

/-- Changes that leave the files, the requests and the messages what they are. -/
theorem of_holdings {g : Holdings} (h : n.Tidy dir hands) (hlist : g.list = n.holdings.list)
    (hscratch : g.scratch = n.holdings.scratch) :
    ({ n with holdings := g } : Node).Tidy dir hands :=
  h.of_order (h.order.of_list_eq hlist hscratch)

theorem payloadOf (h : n.Tidy dir hands) (r : Submission) :
    (Command.payloadOf r n.holdings.scratch).Ends n.volume
      (fun x v => v.Shelf (dir.child Holdings.scratchName) (filesOf (x :: hands ++ n.payloads)))
      fun _ v => v.Shelf (dir.child Holdings.scratchName) (filesOf (hands ++ n.payloads)) := by
  rw [Command.payloadOf, h.order.scratch]
  split
  · exact (Bulk.Draft.shelf_createIn h.shelf r.draft).bind fun f v hv => TryDisk.ends_pure hv
  · exact TryDisk.ends_pure h.shelf

/-- A submission becomes a request, with a new file if it is to be in a file, or fails. -/
theorem submitTo (h : n.Tidy dir hands) (r : Submission) :
    (Command.submitTo r n).2.Tidy dir hands := by
  rw [Command.submitTo]
  refine tryOnDisk_ends (h.payloadOf r) (fun x v hv => ?_) fun e v hv => h.of_volume hv
  have hx : ({ n with volume := v } : Node).Tidy dir (x :: hands) := h.of_volume hv
  cases r.remote with
  | none => exact hx.submit r.operation
  | some remote => exact hx.tick.submitFrom r.operation _ remote.1 remote.2

theorem receive (h : n.Tidy dir hands) (e : Envelope) : (n.receive e).2.Tidy dir hands := by
  rw [Node.receive]
  cases e.unwrap with
  | error err => exact h
  | ok parcel =>
    dsimp only
    cases parcel.content with
    | entries batch => exact (h.entries_cons batch).submitFrom _ _ _ _
    | lines lines =>
      simp only [payloadOfContent, h.order.scratch]
      refine tryOnDisk_ends (ScratchFile.shelf_ofLines h.shelf lines) (fun f v hv => ?_)
        fun err v hv => h.of_volume hv
      have hfile : ({ n with volume := v } : Node).Tidy dir (.file f :: hands) := h.of_volume hv
      exact hfile.submitFrom _ _ _ _

theorem stage {v : Volume} {scratch : Path} {held : List ScratchFile} (h : v.Shelf scratch held)
    (entries : List Entry) :
    (Node.stage scratch entries).Ends v (fun r v' => v'.Shelf scratch (r.2.file :: held))
      fun _ v' => v'.Shelf scratch held :=
  (Transfer.shelf_createIn h).bind fun _ _ ⟨hpath, h₁⟩ =>
    ScratchFile.shelf_orRelease (Transfer.shelf_stage hpath h₁ entries)

/-- The entries that are handed off are in a new file. -/
theorem redistribute (h : n.Tidy dir hands) : n.redistribute.2.Tidy dir hands := by
  rw [Node.redistribute, h.order.scratch]
  dsimp only
  split
  · exact h
  · refine tryOnDisk_ends (stage h.shelf _) (fun r v hv => ?_) fun e v hv => h.of_volume hv
    have hfile : ({ n with volume := v } : Node).Tidy dir (.file r.2.file :: hands) :=
      h.of_volume hv
    exact (hfile.remove _).submit .insert

theorem propagate (h : n.Tidy dir hands) (o : Operation) (entries : List Entry)
    (propagate : Bool) :
    (if propagate then n.submit o (.entries entries) else n).Tidy dir hands := by
  split
  · exact (h.entries_cons entries).submit o
  · exact h

theorem insert (h : n.Tidy dir hands) (entries : List Entry) (propagate : Bool) :
    (n.insert entries propagate).Tidy dir hands := by
  rw [Node.insert]
  split
  · exact h
  · exact (h.of_holdings (list_add n.holdings entries) rfl).propagate .insert entries propagate

theorem delete (h : n.Tidy dir hands) (entries : List Entry) (propagate : Bool) :
    (n.delete entries propagate).Tidy dir hands := by
  rw [Node.delete]
  split
  · exact h
  · exact (h.remove entries).propagate .delete entries propagate

theorem update (h : n.Tidy dir hands) (entries : List Entry) :
    (n.update entries).Tidy dir hands := by
  rw [Node.update]
  split
  · exact h
  · dsimp only
    have hupdate := fun here => ((h.applyUpdate n.peer.path here).entries_cons
      (entries.map n.underStoredKey)).submit .update
    split
    · exact hupdate _
    · exact ((hupdate _).entries_cons _).submit .insert

theorem stats (h : n.Tidy dir hands) : n.stats.2.Tidy dir hands := by
  have hstored : n.storedCount.2.Tidy dir hands := h.of_holdings rfl rfl
  have hinbound : (n.storedCount.2.ask (·.inboundCount)).2.Tidy dir hands :=
    hstored.ask (hstored.order.counted .inbound)
  exact hinbound.ask hinbound.order.outboundCount

theorem hasWork (h : n.Tidy dir hands) : n.hasWork.2.Tidy dir hands := by
  rw [Node.hasWork]
  split
  · exact h
  · split
    · exact h
    · have hdue := h.retryDue
      rcases hretry : n.retryDue with ⟨_ | _, n₁⟩
      · rw [hretry] at hdue
        exact hdue.hasInbound
      · rw [hretry] at hdue
        exact hdue

theorem resultOf_snd {f : α → Command.Result} (r : Except StorageError α × Node) :
    (Command.resultOf f r).2 = r.2 := by
  rcases r with ⟨_ | _, _⟩ <;> rfl

/-- Whatever an operator asks of a tidy node, unless it takes a router, leaves it tidy. -/
theorem runAlone (h : n.Tidy dir hands) (c : Command) :
    (Command.runAlone n c).2.Tidy dir hands := by
  cases c with
  | listen type listener => exact h.of_holdings rfl rfl
  | create type payload => exact h.tick
  | insert entries propagate => exact h.insert entries propagate
  | update entries => exact h.update entries
  | delete entries propagate => exact h.delete entries propagate
  | redistribute =>
    have hhand := h.redistribute
    simp only [Command.runAlone]
    rcases hrun : n.redistribute with ⟨_ | _, n₁⟩ <;> rw [hrun] at hhand <;> exact hhand
  | stats => exact h.stats
  | setPath path => exact ⟨h.order, h.named⟩
  | submit request =>
    rw [Command.runAlone, resultOf_snd]
    exact h.submitTo request
  | pause => exact ⟨h.order, h.named⟩
  | resume => exact ⟨h.order, h.named⟩
  | hasWork => exact h.hasWork
  | appendInbound entries =>
    rw [Command.runAlone, resultOf_snd]
    exact h.tryAsk (h.order.append .inbound entries)
  | appendOutbound operation entries =>
    rw [Command.runAlone, resultOf_snd]
    exact h.tryAsk (h.order.append (.outbound operation) entries)
  | outbound operation =>
    have hread : (n.onDisk (n.holdings.outboundEntries operation)).2.Tidy dir hands :=
      onDisk_ends (BulkList.ends_get h.shelf.tree _ none) fun _ v hw => h.of_writes hw.1
    exact hread
  | get _ | query _ | dump | queues | cycle | work => exact h

theorem undergo (h : n.Tidy dir hands) (x : Happening) : (n.undergo x).Tidy dir hands := by
  cases x with
  | command c => exact h.runAlone c
  | message e => exact h.receive e
  | report sender id delivered => exact h.report sender id delivered
  | wait milliseconds => exact ⟨h.order, h.named⟩

end Tidy

/-! ### Runs -/

/-- The scratch files of the requests that wait and of the messages in flight. -/
def scratchFiles (n : Node) : List ScratchFile :=
  n.queues.inOrder.filterMap (·.payload.file?) ++ n.fileFlights.toList.map (·.2.payload)

/-- The files in a directory are the scratch files of the requests that wait and of the messages in
flight, and none of these is held twice. -/
structure AccountsFor (dir : Path) (n : Node) : Prop where
  distinct : n.scratchFiles.Nodup
  files : ∀ f : ScratchFile, (f.path.isChildOf dir ∧ ∃ bytes, n.volume.HasFile f.path bytes) ↔
    f ∈ n.scratchFiles

theorem filesOf_payloads (n : Node) : filesOf n.payloads = n.scratchFiles := by
  have hqueued : filesOf (n.queues.inOrder.map (·.payload)) =
      n.queues.inOrder.filterMap (·.payload.file?) := List.filterMap_map
  have hflying : filesOf (n.flights.map (·.payload)) =
      n.fileFlights.toList.map (·.2.payload) := by
    simp only [filesOf, flights, List.map_append, List.map_map, List.filterMap_append,
      List.filterMap_map, Function.comp_def, Payload.file?]
    simp
  rw [payloads, filesOf_append, hqueued, hflying, scratchFiles]

theorem Tidy.accountsFor (h : n.Tidy dir []) :
    n.AccountsFor (dir.child Holdings.scratchName) := by
  have hshelf : n.volume.Shelf (dir.child Holdings.scratchName) n.scratchFiles := by
    rw [← filesOf_payloads]
    exact h.shelf
  refine ⟨hshelf.nodup, fun f => ?_⟩
  have hpresent : (∃ bytes, n.volume.HasFile f.path bytes) ↔
      (n.volume.bytes? f.path).isSome = true := by
    simp only [← Volume.bytes?_eq_some_iff, Option.isSome_iff_exists]
  rw [hpresent]
  constructor
  · rintro ⟨hchild, hsome⟩
    exact (hshelf.files f hchild).1 hsome
  · intro hf
    exact ⟨hshelf.isChildOf hf, hshelf.isSome hf⟩

/-- What happens to a node while a dispatch is with its router. -/
abbrev Script (ω : Type) := Dispatch → Node → ω → List Happening × ω

/-- A step of a run: something happens to the node, or it runs one cycle, or cycles for as long as
there is something to do. -/
inductive Script.Step where
  | happen (x : Happening)
  | cycle
  | work (limit : Nat)

namespace Script

variable {ω : Type} {script : Script ω} {s : Node × ω}

/-- The router that goes by a script. -/
def router (script : Script ω) : Router ω := fun d n w =>
  let (xs, w) := script d n w
  (xs.foldl undergo n, w)

/-- One step of a run. -/
def step (script : Script ω) (s : Node × ω) : Step → Node × ω
  | .happen x => (s.1.undergo x, s.2)
  | .cycle => Node.cycle script.router s
  | .work limit => Node.work script.router limit s

/-- A run. -/
def run (script : Script ω) (steps : List Step) (s : Node × ω) : Node × ω :=
  steps.foldl script.step s

theorem tidy_router (script : Script ω) (dir : Path) : RouterTidy dir script.router := by
  intro d n w hands h
  have hfold : ∀ (xs : List Happening) n, n.Tidy dir hands →
      (xs.foldl undergo n).Tidy dir hands := by
    intro xs
    induction xs with
    | nil => exact fun n h => h
    | cons x xs ih => exact fun n h => ih _ (h.undergo x)
  exact hfold _ n h

theorem tidy_work (limit : Nat) (h : s.1.Tidy dir []) :
    (Node.work script.router limit s).1.Tidy dir [] := by
  induction limit generalizing s with
  | zero => exact h
  | succ limit ih =>
    have hbusy := h.hasWork
    rw [Node.work]
    rcases hwork : s.1.hasWork with ⟨_ | _, n⟩
    · rw [hwork] at hbusy
      exact hbusy
    · rw [hwork] at hbusy
      exact ih (Tidy.cycle (script.tidy_router dir) hbusy)

theorem tidy_step (h : s.1.Tidy dir []) (t : Step) : (script.step s t).1.Tidy dir [] := by
  cases t with
  | happen x => exact h.undergo x
  | cycle => exact Tidy.cycle (script.tidy_router dir) h
  | work limit => exact tidy_work limit h

theorem tidy_run (h : s.1.Tidy dir []) (steps : List Step) :
    (script.run steps s).1.Tidy dir [] := by
  induction steps generalizing s with
  | nil => exact h
  | cons t steps ih => exact ih (tidy_step h t)

end Script

/-- **No scratch file leaks and none goes away early.**  Whatever happens to a node that was opened
in a directory, and whatever calls fail, but for the removal of the scratch directory of an earlier
run: after every step the files in its scratch directory are those of the requests that wait and of
the messages in flight, each of them once. -/
theorem scratch_files_accounted {ω : Type} {v : Volume} (ht : v.IsTree)
    (hremove : v.exists? (dir.child Holdings.scratchName) = true → v.nextFault.1 = .pass)
    {peer : LocalPeer} {keys : KeyScheme} {idlePoll : Nat}
    (hopen : openAt peer keys idlePoll dir v = .ok n) (script : Script ω)
    (steps : List Script.Step) (w : ω) :
    (script.run steps (n, w)).1.AccountsFor (dir.child Holdings.scratchName) :=
  (Script.tidy_run (openAt_tidy ht hremove hopen) steps).accountsFor

/-- On a volume with a file of an earlier run a write is torn: the first of three submissions fails.
Of the second a level is in flight after the cycle, the third waits. -/
theorem scratch_files_accounted_of_refusals :
    let scratch := Path.root.child Holdings.scratchName
    let v : Volume :=
      { (Volume.empty.put scratch .directory).putFile (scratch.child "old.csv") [] with
        schedule := List.replicate 13 .pass ++ [.tear 3] }
    let inFile : Submission :=
      ⟨.insert, ⟨some [Sample.entry "a" ⟨[true]⟩, Sample.entry "b" ⟨[false]⟩], none, none⟩, true,
        none⟩
    let submit : Script.Step := .happen (.command (.submit inFile))
    let script : Script Unit := fun _ _ w => ([], w)
    let steps := [submit, submit, .cycle, submit]
    ∃ n, openAt (Sample.peer ⟨[true]⟩) (.ofBits 8) 0 .root v = .ok n ∧
      (script.run steps (n, ())).1.AccountsFor scratch ∧
      (script.run steps (n, ())).1.scratchFiles.map (·.path) =
        [scratch.child (ScratchFile.nameOf 4), scratch.child (ScratchFile.nameOf 2)] := by
  intro scratch v inFile submit script steps
  have hdir : (Volume.empty.put scratch .directory).IsTree :=
    (Volume.isTree_empty.writes_of_createDirectoriesCall (p := scratch)
      (r := ((), Volume.empty.put scratch .directory)) rfl).tree
  have htree : v.IsTree :=
    ((hdir.putFile (p := scratch.child "old.csv") (by decide) (by decide) []).writes_schedule
      _ []).tree
  have hfiles : (openAt (Sample.peer ⟨[true]⟩) (.ofBits 8) 0 .root v).toOption.map (fun n =>
      (script.run steps (n, ())).1.scratchFiles.map (·.path)) =
        some [scratch.child (ScratchFile.nameOf 4), scratch.child (ScratchFile.nameOf 2)] := by
    decide +kernel
  cases hopen : openAt (Sample.peer ⟨[true]⟩) (.ofBits 8) 0 .root v with
  | error e =>
    rw [hopen] at hfiles
    cases hfiles
  | ok n =>
    rw [hopen] at hfiles
    exact ⟨n, rfl, scratch_files_accounted htree (fun _ => rfl) hopen script steps (),
      Option.some.inj hfiles⟩

end Node

end TrieOverlay
