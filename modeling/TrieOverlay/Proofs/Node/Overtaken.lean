import TrieOverlay.Proofs.Node.HandingOff
import TrieOverlay.Proofs.Node.Revision
import TrieOverlay.Proofs.Store.Replay

/-!
# What a hand-off loses while the store changes

`Node.redistribute` looks for the entries that its path does not own, writes them to a file, removes
them by their identifiers, and submits the file.  Between these steps others may change the store.
`HandOff.advance` is one step of the hand-off, `HandOff.run` any course of it in which changes come
in between, and the course without any is `Node.redistribute` (`HandOff.run_alone`).

The entries were copied at the first step and are removed at the third, where an identifier may name
another version by now.  So the file has what was removed exactly if no identifier that was found
has got another version before the removal (`HandOff.carries_removed_iff`).
-/

namespace TrieOverlay

/-! ### What is found after a change -/

/-- An entry keeps its address if its peer is not named. -/
theorem Entry.readdressed_of_ne {e : Entry} {es : List Entry}
    (h : ∀ a ∈ es, a.peer.id ≠ e.peer.id) : e.readdressed es = e := by
  have hnone : lastAddress? es e.peer.id = none := by
    rw [lastAddress?, Option.map_eq_none_iff, List.find?_eq_none]
    simpa using h
  rw [readdressed, hnone]
  rfl

namespace Store.Rows

variable {s s' : Store.Rows} {m : Ledger} {es : List Entry} {id : EntryId}

/-- Entries that are put leave the others where they are; the addresses of their peers change. -/
theorem Keeps.find?_foldl_put (hs : s.Keeps m) (hs' : s'.Keeps (es.foldl .put m))
    (hid : id ∉ es.map (·.id)) : s'.find? id = (s.find? id).map (·.readdressed es) := by
  have hlast : BulkList.lastWithId? es id = none := by
    rw [← Option.not_isSome_iff_eq_none, BulkList.isSome_lastWithId?]
    simpa using hid
  rw [hs'.find?, Ledger.getElem?_foldl_put, hlast, Option.none_or, hs.find?, Option.map_map]
  exact congrArg (Option.map · _) (funext fun a => Ledger.shown_foldl_put m es a)

theorem Keeps.find?_foldl_erase (hs : s.Keeps m)
    (hs' : s'.Keeps (es.foldl (fun m e => m.erase e.id) m)) (id : EntryId) :
    s'.find? id = if id ∈ es.map (·.id) then none else s.find? id := by
  rw [hs'.find?, Ledger.getElem?_foldl_erase, Ledger.shown_foldl_erase, hs.find?,
    BulkList.isSome_lastWithId?]
  by_cases hid : id ∈ es.map (·.id) <;> simp [hid]

end Store.Rows

/-! ### The steps of a hand-off -/

/-- How far a hand-off has come. -/
inductive HandOff.Stage where
  /-- It has yet to look for entries that do not belong here. -/
  | called
  /-- It has found these. -/
  | found (foreign : List Entry)
  /-- It has a file with those that can be written, so many. -/
  | staged (foreign : List Entry) (count : Nat) (file : ScratchFile)
  /-- It has removed them from the store that was there before. -/
  | removed (foreign : List Entry) (before : Store) (count : Nat) (file : ScratchFile)
  /-- It has submitted the file. -/
  | submitted (foreign : List Entry) (before : Store) (count : Nat) (file : ScratchFile)
  /-- It has ended without a removal, because nothing was found or a call failed. -/
  | kept (result : Except StorageError Nat)

/-- A node that hands off entries. -/
structure HandOff where
  /-- The node. -/
  node : Node
  /-- How far it has come. -/
  stage : HandOff.Stage

namespace HandOff

/-- The result of a hand-off that is over. -/
def Stage.result? : Stage → Option (Except StorageError Nat)
  | called | found _ | staged .. | removed .. => none
  | submitted _ _ count _ => some (.ok count)
  | kept result => some result

/-- A hand-off that has yet to do anything. -/
def start (n : Node) : HandOff := ⟨n, .called⟩

/-- The next step of a hand-off. -/
def advance (s : HandOff) : HandOff :=
  match s.stage with
  | .called =>
    let foreign := s.node.holdings.store.foreignTo s.node.peer.path
    if foreign.isEmpty then ⟨s.node, .kept (.ok 0)⟩ else ⟨s.node, .found foreign⟩
  | .found foreign =>
    match s.node.tryOnDisk (Node.stage s.node.holdings.scratch foreign) with
    | (.error e, n) => ⟨n, .kept (.error e)⟩
    | (.ok (count, transfer), n) => ⟨n, .staged foreign count transfer.file⟩
  | .staged foreign count file =>
    ⟨{ s.node with holdings := (s.node.holdings.remove foreign).2 },
      .removed foreign s.node.holdings.store count file⟩
  | .removed foreign before count file =>
    ⟨s.node.submit .insert (.file file), .submitted foreign before count file⟩
  | .submitted .. | .kept _ => s

/-- What happens during a hand-off. -/
inductive Move where
  /-- The hand-off takes its next step. -/
  | advance
  /-- Entries are put into the store, updated there or removed from it. -/
  | change (kind : Change) (entries : List Entry)

/-- The hand-off afterwards. -/
def move (s : HandOff) : Move → HandOff
  | .advance => s.advance
  | .change kind es => { s with node.holdings := s.node.holdings.change kind es }

/-- The hand-off after several moves. -/
def run (s : HandOff) (moves : List Move) : HandOff :=
  moves.foldl move s

/-- A hand-off that nothing comes between is `Node.redistribute`. -/
theorem run_alone (n : Node) :
    ((start n).run (List.replicate 4 .advance)).node = n.redistribute.2 ∧
      ((start n).run (List.replicate 4 .advance)).stage.result? = some n.redistribute.1 := by
  change (advance (advance (advance (advance (start n))))).node = _ ∧
    (advance (advance (advance (advance (start n))))).stage.result? = _
  rw [Node.redistribute]
  cases hforeign : (n.holdings.store.foreignTo n.peer.path).isEmpty with
  | true => simp [start, advance, hforeign, Stage.result?]
  | false =>
    rcases hstage : n.tryOnDisk (Node.stage n.holdings.scratch
      (n.holdings.store.foreignTo n.peer.path)) with ⟨e | ⟨count, transfer⟩, n'⟩
    · simp [start, advance, hforeign, hstage, Stage.result?]
    · simp [start, advance, hforeign, hstage, Stage.result?]

/-! ### What holds at every stage -/

/-- Whether these are entries with different identifiers that do not belong to a path. -/
structure Foreign (path : Key) (foreign : List Entry) : Prop where
  outside : ∀ e ∈ foreign, e.key.isCompatibleWith path = false
  nodup : (foreign.map (·.id)).Nodup

/-- Whether a new file has those of the entries that can be written, and no other file has been
touched since the hand-off started. -/
structure Written (n : Node) (v : Volume) (foreign : List Entry) (count : Nat)
    (file : ScratchFile) : Prop where
  adds : v.Adds n.holdings.scratch n.volume.serial n.volume.bytes? [file]
  count : count = (foreign.filter fun e => Bulk.Line.isEncodable e).length
  entries : v.HasEntries file.path (foreign.filter fun e => Bulk.Line.isEncodable e)

/-- What a stage says of a node whose hand-off started from `n`. -/
def Stage.Holds (n now : Node) : Stage → Prop
  | called => now.volume = n.volume ∧ now.queues = n.queues ∧ now.serial = n.serial
  | found foreign => now.volume = n.volume ∧ now.queues = n.queues ∧ now.serial = n.serial ∧
      Foreign n.peer.path foreign
  | staged foreign count file => now.queues = n.queues ∧ now.serial = n.serial ∧
      Foreign n.peer.path foreign ∧ Written n now.volume foreign count file
  | removed foreign before count file => now.queues = n.queues ∧ now.serial = n.serial ∧
      Foreign n.peer.path foreign ∧ Written n now.volume foreign count file ∧
      ∃ m, before.state.Keeps m
  | submitted foreign before count file =>
      now.queues = n.queues.push ⟨.ofSerial n.serial, .insert, .file file, .here⟩ ∧
      Foreign n.peer.path foreign ∧ Written n now.volume foreign count file ∧
      ∃ m, before.state.Keeps m
  | kept _ => now.queues = n.queues ∧ now.volume.bytes? = n.volume.bytes?

/-- What holds at any moment of a hand-off that started from `n`. -/
structure Sound (n : Node) (s : HandOff) : Prop where
  peer : s.node.peer = n.peer
  scratch : s.node.holdings.scratch = n.holdings.scratch
  keeps : ∃ m, s.node.holdings.store.state.Keeps m
  stage : s.stage.Holds n s.node

variable {n : Node} {s : HandOff} {m : Ledger} {foreign : List Entry}

theorem sound_start (hm : n.holdings.store.state.Keeps m) : (start n).Sound n :=
  ⟨rfl, rfl, ⟨m, hm⟩, rfl, rfl, rfl⟩

theorem foreign_foreignTo {store : Store} (hm : store.state.Keeps m) (path : Key) :
    Foreign path (store.foreignTo path) := by
  rw [Store.foreignTo, Store.Rows.foreignTo_eq]
  refine ⟨fun e he => ?_, hm.nodup_ids.sublist (List.filter_sublist.map _)⟩
  simpa [owns_eq_isCompatibleWith] using (List.mem_filter.1 he).2

theorem Sound.advance (h : s.Sound n) (ht : n.volume.IsTree)
    (hfree : ∀ k, n.volume.serial ≤ k →
      n.volume.bytes? (n.holdings.scratch.child (ScratchFile.nameOf k)) = none) :
    s.advance.Sound n := by
  obtain ⟨node, stage⟩ := s
  obtain ⟨hpeer, hscratch, ⟨m, hm⟩, hstage⟩ := h
  cases stage with
  | called =>
    obtain ⟨hvolume, hqueues, hserial⟩ := hstage
    rw [HandOff.advance]
    dsimp only
    split
    · exact ⟨hpeer, hscratch, ⟨m, hm⟩, hqueues, congrArg Volume.bytes? hvolume⟩
    · exact ⟨hpeer, hscratch, ⟨m, hm⟩, hvolume, hqueues, hserial,
        congrArg LocalPeer.path hpeer ▸ foreign_foreignTo hm _⟩
  | found foreign =>
    obtain ⟨hvolume, hqueues, hserial, hforeign⟩ := hstage
    have hends := Node.adds_stage (.start ht hfree) foreign
    change node.holdings.scratch = n.holdings.scratch at hscratch
    change node.volume = n.volume at hvolume
    rw [HandOff.advance]
    simp only [Node.tryOnDisk, Node.onDisk, hscratch, hvolume]
    rcases hrun : (Node.stage n.holdings.scratch foreign).run.run n.volume with ⟨e | ⟨k, t⟩, v⟩
    · have hadds : v.Adds _ _ _ [] := Disk.Ends.of_run hends hrun
      exact ⟨hpeer, hscratch, ⟨m, hm⟩, hqueues, funext fun p => hadds.others p (by simp)⟩
    · obtain ⟨hadds, hcount, hentries⟩ := hends.of_ok hrun
      exact ⟨hpeer, hscratch, ⟨m, hm⟩, hqueues, hserial, hforeign, hadds, hcount, hentries⟩
  | staged foreign count file =>
    obtain ⟨hqueues, hserial, hforeign, hwritten⟩ := hstage
    exact ⟨hpeer, hscratch, ⟨_, (hm.deletes foreign).2⟩, hqueues, hserial, hforeign, hwritten,
      m, hm⟩
  | removed foreign before count file =>
    obtain ⟨hqueues, hserial, hforeign, hwritten, hbefore⟩ := hstage
    refine ⟨hpeer, hscratch, ⟨m, hm⟩, ?_, hforeign, hwritten, hbefore⟩
    change (node.submit .insert (.file file)).queues = _
    rw [← hqueues, ← hserial]
    rfl
  | submitted foreign before count file => exact ⟨hpeer, hscratch, ⟨m, hm⟩, hstage⟩
  | kept result => exact ⟨hpeer, hscratch, ⟨m, hm⟩, hstage⟩

/-- A change of the store is not seen at any stage. -/
theorem Sound.change (h : s.Sound n) (kind : Change) (es : List Entry) :
    (s.move (.change kind es)).Sound n := by
  obtain ⟨m, hm⟩ := h.keeps
  have hscratch : (s.node.holdings.change kind es).scratch = s.node.holdings.scratch := by
    cases kind <;> rfl
  have hstage := h.stage
  refine ⟨h.peer, hscratch.trans h.scratch, ⟨_, Holdings.keeps_change hm kind es .silent⟩, ?_⟩
  change s.stage.Holds n _
  cases hs : s.stage <;> rw [hs] at hstage <;> exact hstage

theorem Sound.run (h : s.Sound n) (ht : n.volume.IsTree)
    (hfree : ∀ k, n.volume.serial ≤ k →
      n.volume.bytes? (n.holdings.scratch.child (ScratchFile.nameOf k)) = none)
    (moves : List Move) : (s.run moves).Sound n := by
  induction moves generalizing s with
  | nil => exact h
  | cons move moves ih =>
    cases move with
    | advance => exact ih (h.advance ht hfree)
    | change kind es => exact ih (h.change kind es)

/-! ### What is removed and what is carried -/

/-- A removal takes what is stored under the identifiers that it is given. -/
theorem lost_remove {before : Store} (hm : before.state.Keeps m) (es : List Entry) :
    before.lost (before.remove es).2 = before.state.matching es :=
  Store.lost_eq hm rfl

/-- What is removed are entries that were found, as they were found, exactly if what is stored under
the identifier of each of them is this one or nothing. -/
theorem lost_remove_iff {before : Store} (hm : before.state.Keeps m)
    (hids : (foreign.map (·.id)).Nodup) (p : Entry → Prop) :
    (∀ e ∈ before.lost (before.remove foreign).2, e ∈ foreign ∧ p e) ↔
      ∀ e ∈ foreign, before.find? e.id = none ∨ before.find? e.id = some e ∧ p e := by
  rw [lost_remove hm]
  constructor
  · intro hgone e he
    cases hfind : before.find? e.id with
    | none => exact .inl rfl
    | some e' =>
      have hid : e'.id = e.id := by
        rw [Store.find?, hm.find?] at hfind
        obtain ⟨a, ha, rfl⟩ := Option.map_eq_some_iff.1 hfind
        exact hm.named _ a ha
      have hstored : e' ∈ before.state.entries := by
        rw [hm.mem_entries_iff_find?, hid]
        exact hfind
      obtain ⟨he', hp⟩ :=
        hgone e' (Store.Rows.mem_matching.2 ⟨hstored, hid ▸ List.mem_map_of_mem he⟩)
      obtain rfl := List.inj_on_of_nodup_map hids he' he hid
      exact .inr ⟨rfl, hp⟩
  · intro hfound e he
    obtain ⟨hstored, hid⟩ := Store.Rows.mem_matching.1 he
    obtain ⟨e', he', hid⟩ := List.mem_map.1 hid
    have hfind : before.find? e'.id = some e := hid ▸ hm.mem_entries_iff_find?.1 hstored
    rcases hfound e' he' with hnone | ⟨hsome, hp⟩
    · rw [hfind] at hnone
      cases hnone
    · obtain rfl := Option.some.inj (hfind.symm.trans hsome)
      exact ⟨he', hp⟩

/-! ### Changes that do not matter -/

/-- Whether the store has found entries as they were found, unless they are gone. -/
def Unchanged (foreign : List Entry) (now : Store) : Prop :=
  ∀ e ∈ foreign, now.find? e.id = none ∨ now.find? e.id = some e

/-- Whether a change of the store leaves found entries alone: it removes entries, or the entries
that it puts have other identifiers and come from other peers. -/
def Spares (foreign : List Entry) (kind : Change) (es : List Entry) : Prop :=
  kind = .deleted ∨ ∀ a ∈ es, ∀ e ∈ foreign, a.id ≠ e.id ∧ a.peer.id ≠ e.peer.id

theorem Unchanged.remove {store store' : Store} {es : List Entry} (hm : store.state.Keeps m)
    (hm' : store'.state.Keeps (es.foldl (fun m e => m.erase e.id) m))
    (h : Unchanged foreign store) : Unchanged foreign store' := by
  intro e he
  have hfind : store'.find? e.id = if e.id ∈ es.map (·.id) then none else store.find? e.id :=
    hm.find?_foldl_erase hm' e.id
  split at hfind
  · exact .inl hfind
  · exact (h e he).imp hfind.trans hfind.trans

theorem Unchanged.put {store store' : Store} {es : List Entry} (hm : store.state.Keeps m)
    (hm' : store'.state.Keeps (es.foldl .put m)) (h : Unchanged foreign store)
    (hother : ∀ a ∈ es, ∀ e ∈ foreign, a.id ≠ e.id ∧ a.peer.id ≠ e.peer.id) :
    Unchanged foreign store' := by
  intro e he
  have hid : e.id ∉ es.map (·.id) := by
    rw [List.mem_map]
    rintro ⟨a, ha, hid⟩
    exact (hother a ha e he).1 hid
  have hfind : store'.find? e.id = (store.find? e.id).map (·.readdressed es) :=
    hm.find?_foldl_put hm' hid
  rcases h e he with hnone | hsome
  · rw [hnone] at hfind
    exact .inl hfind
  · rw [hsome, Option.map_some, Entry.readdressed_of_ne fun a ha => (hother a ha e he).2] at hfind
    exact .inr hfind

/-- What a stage after the first says of the entries that were found. -/
def Stage.Spared (foreign : List Entry) (now : Store) : Stage → Prop
  | called => False
  | found fs | staged fs .. => fs = foreign ∧ Unchanged foreign now
  | removed fs before .. | submitted fs before .. => fs = foreign ∧ Unchanged foreign before
  | kept _ => True

/-- A hand-off that has found entries, which the store has had as they were found up to their
removal. -/
structure Spared (foreign : List Entry) (s : HandOff) : Prop where
  keeps : ∃ m, s.node.holdings.store.state.Keeps m
  stage : s.stage.Spared foreign s.node.holdings.store

theorem spared_advance_start (hm : n.holdings.store.state.Keeps m) :
    (start n).advance.Spared (n.holdings.store.foreignTo n.peer.path) := by
  have hfound : Unchanged (n.holdings.store.foreignTo n.peer.path) n.holdings.store := by
    intro e he
    rw [Store.foreignTo, Store.Rows.foreignTo_eq] at he
    exact .inr (hm.mem_entries_iff_find?.1 (List.mem_filter.1 he).1)
  change (advance ⟨n, .called⟩).Spared _
  rw [advance]
  dsimp only
  split
  · exact ⟨⟨m, hm⟩, trivial⟩
  · exact ⟨⟨m, hm⟩, rfl, hfound⟩

theorem Spared.advance (h : s.Spared foreign) : s.advance.Spared foreign := by
  obtain ⟨node, stage⟩ := s
  obtain ⟨⟨m, hm⟩, hstage⟩ := h
  cases stage with
  | called => exact hstage.elim
  | found fs =>
    simp only [HandOff.advance, Node.tryOnDisk, Node.onDisk]
    rcases (Node.stage node.holdings.scratch fs).run.run node.volume with ⟨e | ⟨k, t⟩, v⟩
    · exact ⟨⟨m, hm⟩, trivial⟩
    · exact ⟨⟨m, hm⟩, hstage⟩
  | staged fs count file => exact ⟨⟨_, (hm.deletes fs).2⟩, hstage⟩
  | removed fs before count file => exact ⟨⟨m, hm⟩, hstage⟩
  | submitted fs before count file => exact ⟨⟨m, hm⟩, hstage⟩
  | kept result => exact ⟨⟨m, hm⟩, trivial⟩

theorem Spared.change (h : s.Spared foreign) {kind : Change} {es : List Entry}
    (hspares : Spares foreign kind es) : (s.move (.change kind es)).Spared foreign := by
  obtain ⟨node, stage⟩ := s
  obtain ⟨⟨m, hm⟩, hstage⟩ := h
  have hafter := Holdings.keeps_change hm kind es .silent
  have hchange (hfound : Unchanged foreign node.holdings.store) :
      Unchanged foreign (node.holdings.change kind es).store := by
    cases kind with
    | deleted => exact hfound.remove hm hafter
    | inserted => exact hfound.put hm hafter (hspares.resolve_left (by simp))
    | updated => exact hfound.put hm hafter (hspares.resolve_left (by simp))
  refine ⟨⟨_, hafter⟩, ?_⟩
  cases stage with
  | called => exact hstage
  | found fs => exact ⟨hstage.1, hchange hstage.2⟩
  | staged fs count file => exact ⟨hstage.1, hchange hstage.2⟩
  | removed fs before count file => exact hstage
  | submitted fs before count file => exact hstage
  | kept result => exact trivial

theorem Spared.run (h : s.Spared foreign) {moves : List Move}
    (hspares : ∀ kind es, .change kind es ∈ moves → Spares foreign kind es) :
    (s.run moves).Spared foreign := by
  induction moves generalizing s with
  | nil => exact h
  | cons move moves ih =>
    have hrest := fun kind es hmem => hspares kind es (List.mem_cons_of_mem _ hmem)
    cases move with
    | advance => exact ih h.advance hrest
    | change kind es => exact ih (h.change (hspares kind es (List.mem_cons_self ..))) hrest

/-- If all changes after the first step remove entries, or put others of other peers, then what is
removed is what was found, or less. -/
theorem unchanged_of_spares (hm : n.holdings.store.state.Keeps m) {moves : List Move}
    (hspares : ∀ kind es, .change kind es ∈ moves →
      Spares (n.holdings.store.foreignTo n.peer.path) kind es)
    {before : Store} {count : Nat} {file : ScratchFile}
    (hend : ((start n).run (.advance :: moves)).stage = .submitted foreign before count file) :
    Unchanged foreign before := by
  have hstage := ((spared_advance_start hm).run hspares).stage
  change ((start n).run (.advance :: moves)).stage.Spared _ _ at hstage
  rw [hend] at hstage
  obtain ⟨rfl, hfound⟩ := hstage
  exact hfound

/-! ### What is carried of what is removed -/

/-- **A hand-off carries what it removes exactly if nothing that it found has changed.**  Whatever
changes of the store come between its steps, and whatever calls fail: a hand-off that ends without a
removal leaves the requests and the files as they were.  One that comes to its end has removed what
was stored under the identifiers that it found, and has made one request to insert the entries of a
new file.  What is removed does not belong to the path and is in the file if and only if every entry
that was found either was gone before the removal, or was stored then as it was found and can be
written. -/
theorem carries_removed_iff (hm : n.holdings.store.state.Keeps m) (ht : n.volume.IsTree)
    (hfree : ∀ k, n.volume.serial ≤ k →
      n.volume.bytes? (n.holdings.scratch.child (ScratchFile.nameOf k)) = none)
    (moves : List Move) :
    let s := (start n).run moves
    (∀ result, s.stage = .kept result →
      s.node.queues = n.queues ∧ s.node.volume.bytes? = n.volume.bytes?) ∧
    ∀ foreign before count file, s.stage = .submitted foreign before count file →
      let gone := before.lost (before.remove foreign).2
      let carried := foreign.filter fun e => Bulk.Line.isEncodable e
      gone = ((before.get none).filter fun e => e.id ∈ foreign.map (·.id)) ∧
      s.node.queues = n.queues.push ⟨.ofSerial n.serial, .insert, .file file, .here⟩ ∧
      s.node.volume.HasEntries file.path carried ∧ count = carried.length ∧
      n.volume.bytes? file.path = none ∧
      (∀ p ≠ file.path, s.node.volume.bytes? p = n.volume.bytes? p) ∧
      ((∀ e ∈ gone, e.key.isCompatibleWith n.peer.path = false ∧ e ∈ carried) ↔
        ∀ e ∈ foreign, before.find? e.id = none ∨
          before.find? e.id = some e ∧ Bulk.Line.isEncodable e) := by
  intro s
  have hsound : s.Sound n := (sound_start hm).run ht hfree moves
  have hstage := hsound.stage
  refine ⟨fun result hs => ?_, fun foreign before count file hs => ?_⟩ <;> rw [hs] at hstage
  · exact hstage
  · obtain ⟨hqueues, hforeign, hwritten, mb, hmb⟩ := hstage
    obtain ⟨k, hk, -, hpath⟩ := hwritten.adds.named file (List.mem_singleton_self file)
    refine ⟨?_, hqueues, hwritten.entries, hwritten.count, hpath ▸ hfree k hk,
      fun p hp => hwritten.adds.others p (by simpa using hp.symm), ?_⟩
    · rw [lost_remove hmb, Store.Rows.matching_eq]
      rfl
    · rw [← lost_remove_iff hmb hforeign.nodup fun e => Bulk.Line.isEncodable e]
      refine forall₂_congr fun e _ => ?_
      rw [List.mem_filter]
      exact ⟨And.right, fun h => ⟨hforeign.outside e h.1, h⟩⟩

/-- An entry that was found gets a key that belongs to the path before it is removed: the new
version is removed, and the file has the old one. -/
theorem carries_removed_iff_of_update :
    let found := Sample.entry "a" ⟨[false]⟩
    let updated := Sample.entry "a" ⟨[true]⟩
    ∃ (n : Node) (before : Store) (file : ScratchFile),
      Node.openAt (Sample.peer ⟨[true]⟩) (.ofBits 8) 0 .root Volume.empty = .ok n ∧
      let s := (start (n.insert [found] false)).run
        [.advance, .advance, .change .updated [updated], .advance, .advance]
      s.stage = .submitted [found] before 1 file ∧
      before.lost (before.remove [found]).2 = [updated] ∧
      s.node.volume.HasEntries file.path [found] ∧
      ¬ ∀ e ∈ [found], before.find? e.id = none ∨
        before.find? e.id = some e ∧ Bulk.Line.isEncodable e := by
  intro found updated
  let moves : List Move := [.advance, .advance, .change .updated [updated], .advance, .advance]
  obtain ⟨n, hopen, hpeer, hstore, hends⟩ :
      ∃ n, Node.openAt (Sample.peer ⟨[true]⟩) (.ofBits 8) 0 .root Volume.empty = .ok n ∧
        n.peer = Sample.peer ⟨[true]⟩ ∧ n.holdings.store = .named "canonical" ∧
        (match ((start (n.insert [found] false)).run moves).stage with
          | .submitted foreign before count _ =>
            decide (foreign = [found] ∧ count = 1 ∧ before.get none = [updated])
          | _ => false) = true :=
    ⟨_, rfl, rfl, rfl, by decide +kernel⟩
  have htidy : (n.insert [found] false).Tidy .root [] :=
    (Node.openAt_tidy Volume.isTree_empty (fun _ => rfl) hopen).insert [found] false
  have hkeeps : (n.insert [found] false).holdings.store.state.Keeps (Ledger.empty.put found) := by
    have hempty : n.holdings.store.state.Keeps .empty := hstore ▸ Store.Rows.keeps_empty
    exact hempty.upserts [found]
  have hends' := (carries_removed_iff hkeeps htidy.shelf.tree htidy.free moves).2
  cases hstage : ((start (n.insert [found] false)).run moves).stage with
  | submitted foreign before count file =>
    rw [hstage, decide_eq_true_iff] at hends
    obtain ⟨rfl, rfl, hbefore⟩ := hends
    obtain ⟨hgone, -, hentries, -, -, -, hiff⟩ := hends' [found] before 1 file hstage
    have hupdated : before.lost (before.remove [found]).2 = [updated] := by
      rw [hgone, hbefore]
      decide
    have hall : [found].filter (fun e => Bulk.Line.isEncodable e) = [found] := by decide +kernel
    rw [hall] at hentries
    refine ⟨n, before, file, hopen, hstage, hupdated, hentries, fun hsame => ?_⟩
    rw [hupdated] at hiff
    obtain ⟨hforeign, -⟩ := hiff.2 hsame updated (List.mem_singleton_self updated)
    have hpath : (n.insert [found] false).peer.path = ⟨[true]⟩ := congrArg (·.path) hpeer
    rw [hpath] at hforeign
    exact absurd hforeign (by decide)
  | _ =>
    rw [hstage] at hends
    cases hends

end HandOff

end TrieOverlay
