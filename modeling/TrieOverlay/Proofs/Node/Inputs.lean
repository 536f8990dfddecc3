import TrieOverlay.Command
import TrieOverlay.Proofs.Node.Steps

/-!
# What comes to a node

A submission, a delivered message, a change asked for by the application and a hand-off put
requests into the queues of a node.  A hand-off also removes from the store the entries that it
hands off, and a change is made in the store at once; everything else stays (`View.SameBut`).
-/

namespace TrieOverlay

/-! ### Submissions -/

namespace Submission

/-- The entries that a submission stands for, unless its file cannot be read. -/
def entries? (r : Submission) : Option (List Entry) :=
  if r.inFile then Bulk.entriesOf r.draft.content else some (r.draft.entries.getD [])

/-- Where the request of a submission comes from, when the name of its message is known. -/
def origin (r : Submission) (message : MessageId) : Origin :=
  match r.remote with
  | none => .here
  | some (parent, viaReplica) => .peer message parent viaReplica

end Submission

namespace View

/-- The entries of the store that the peer is not responsible for become a request to insert them
elsewhere. -/
def redistribute (w : View) : View :=
  let foreign := w.rows.foreignTo w.peer.path
  if foreign = [] then w
  else
    (w.setRows (w.rows.deleteAll (foreign.map (·.id))).2).queue
      ⟨.insert, .here, foreign.filter fun e => Bulk.Line.isEncodable e, true⟩

/-- A change of the store becomes a request too, if it is to propagate. -/
def propagate (w : View) (o : Operation) (es : List Entry) (propagate : Bool) : View :=
  if propagate then w.queue ⟨o, .here, es, false⟩ else w

/-- The application inserts entries. -/
def insert (w : View) (es : List Entry) (propagate : Bool) : View :=
  if es = [] then w else (w.setRows (es.foldl .upsert w.rows)).propagate .insert es propagate

/-- The application deletes entries. -/
def delete (w : View) (es : List Entry) (propagate : Bool) : View :=
  if es = [] then w
  else (w.setRows (w.rows.deleteAll (es.map (·.id))).2).propagate .delete es propagate

/-- An entry under the key that it is stored with, if it is stored. -/
def underStoredKey (w : View) (e : Entry) : Entry :=
  match w.rows.find? e.id with
  | some stored => e.withKey stored.key
  | none => e

/-- The entries of an update that are stored here or belong here. -/
def updatedHere (w : View) (es : List Entry) : List Entry :=
  (es.map w.underStoredKey).filter fun e =>
    w.peer.path.owns e.key || w.rows.keyOf.contains e.id

/-- The application updates entries: those that are stored here or belong here are updated at once,
and all of them become a request. -/
def update (w : View) (es : List Entry) : View :=
  if es = [] then w
  else
    (w.apply w.peer.path .update (w.updatedHere es)).queue
      ⟨.update, .here, es.map w.underStoredKey, false⟩

/-- The application changes the store. -/
def change (w : View) (es : List Entry) (propagate : Bool) : Operation → View
  | .insert => w.insert es propagate
  | .update => w.update es
  | .delete => w.delete es propagate

/-! ### What stays -/

variable {w w' : View}

/-- What a change of the application leaves as it is. -/
structure SameBut (w w' : View) : Prop where
  peer : w'.peer = w.peer
  keys : w'.keys = w.keys
  flying : w'.flying = w.flying
  list : w'.list = w.list
  queued : w.queued ⊆ w'.queued

theorem SameBut.refl (w : View) : w.SameBut w :=
  ⟨rfl, rfl, rfl, rfl, fun _ hr => hr⟩

theorem SameBut.trans {w'' : View} (h : w.SameBut w') (h' : w'.SameBut w'') : w.SameBut w'' :=
  ⟨h'.peer.trans h.peer, h'.keys.trans h.keys, h'.flying.trans h.flying, h'.list.trans h.list,
    fun _ hr => h'.queued (h.queued hr)⟩

theorem sameBut_setRows (w : View) (rows : Store.Rows) : w.SameBut (w.setRows rows) :=
  ⟨rfl, rfl, rfl, rfl, fun _ hr => hr⟩

theorem sameBut_queue (w : View) (r : Errand) : w.SameBut (w.queue r) :=
  ⟨rfl, rfl, rfl, rfl, fun _ hr => Multiset.mem_cons_of_mem hr⟩

theorem sameBut_propagate (w : View) (o : Operation) (es : List Entry) (propagate : Bool) :
    w.SameBut (w.propagate o es propagate) := by
  cases propagate with
  | true => exact sameBut_queue w _
  | false => exact .refl w

theorem sameBut_apply_update (w : View) (path : Key) (es : List Entry) :
    w.SameBut (w.apply path .update es) := by
  simp only [View.apply]
  split
  · exact sameBut_setRows w _
  · exact (sameBut_setRows w _).trans (sameBut_queue _ _)

theorem sameBut_change (w : View) (es : List Entry) (propagate : Bool) (o : Operation) :
    w.SameBut (w.change es propagate o) := by
  by_cases hnil : es = []
  · cases o <;> simp only [View.change, View.insert, View.update, View.delete, if_pos hnil] <;>
      exact .refl w
  · cases o <;> simp only [View.change, View.insert, View.update, View.delete, if_neg hnil]
    · exact (sameBut_setRows w _).trans (sameBut_propagate ..)
    · exact (sameBut_setRows w _).trans (sameBut_propagate ..)
    · exact (sameBut_apply_update w _ _).trans (sameBut_queue _ _)

theorem sameBut_redistribute (w : View) : w.SameBut w.redistribute := by
  simp only [View.redistribute]
  split
  · exact .refl w
  · exact (sameBut_setRows w _).trans (sameBut_queue _ _)

end View

namespace Node

variable {n n' : Node} {hands : List Payload} {es : List Entry} {x : Payload} {w : View}

/-- A payload that came to hand becomes a request raised here. -/
theorem Yields.submit (h : n.Yields hands (x :: hands) w n') (hx : n'.entriesIn x = es)
    (o : Operation) : n.Yields hands hands (w.queue ⟨o, .here, es, x.isFile⟩) (n'.submit o x) := by
  have hy := h.sound.submit o
  rw [h.view_eq, hx] at hy
  exact h.trans hy

/-- A payload that came to hand becomes a delivered request. -/
theorem Yields.submitFrom (h : n.Yields hands (x :: hands) w n') (hx : n'.entriesIn x = es)
    (o : Operation) (message : MessageId) (parent : RequestId) (viaReplica : Bool) :
    n.Yields hands hands (w.queue ⟨o, .peer message parent viaReplica, es, x.isFile⟩)
      (n'.submitFrom o x message parent viaReplica) := by
  have hy := h.sound.submitFrom o message parent viaReplica
  rw [h.view_eq, hx] at hy
  exact h.trans hy

theorem Yields.tick (h : n.Yields hands (x :: hands) w n') :
    n.Yields hands (x :: hands) w { n' with serial := n'.serial + 1 } := by
  have hy := h.sound.tick hands
  rw [h.view_eq] at hy
  exact h.trans hy

/-- The payload of a submission comes to hand. -/
theorem Sound.payloadOf (h : n.Sound hands) {r : Submission} (hr : r.entries? = some es) :
    ∃ x n', n.tryOnDisk (Command.payloadOf r n.holdings.scratch) = (.ok x, n') ∧
      n.Yields hands (x :: hands) n.view n' ∧ n'.entriesIn x = es ∧ x.isFile = r.inFile := by
  rw [Submission.entries?] at hr
  rw [Command.payloadOf]
  cases hf : r.inFile with
  | true =>
    rw [hf, if_pos rfl] at hr
    obtain ⟨f, v, hrun, hl, hfree, hfile⟩ := Bulk.Draft.run_createIn h.inventory.ready r.draft
    obtain ⟨hy, hes⟩ := h.newFile hl hfree ⟨_, hfile, hr⟩
    exact ⟨.file f, _, tryOnDisk_ok ((TryDisk.run_bind_ok hrun).trans rfl), hy, hes, rfl⟩
  | false =>
    rw [hf] at hr
    exact ⟨.entries (r.draft.entries.getD []), n, rfl,
      ⟨h.entries_cons _, rfl, fun _ _ => rfl, Nat.le_refl _⟩, Option.some.inj hr, rfl⟩

/-- A submission becomes a request that waits. -/
theorem Sound.submitTo (h : n.Sound hands) {r : Submission} (hr : r.entries? = some es) :
    ∃ b n' message, Command.submitTo r n = (.ok b, n') ∧
      n.Yields hands hands (n.view.queue ⟨r.operation, r.origin message, es, r.inFile⟩) n' := by
  obtain ⟨x, n₁, hrun, hy, hes, hfile⟩ := h.payloadOf hr
  rw [Command.submitTo, hrun]
  cases hremote : r.remote with
  | none =>
    refine ⟨true, _, .ofSerial n.serial, rfl, ?_⟩
    rw [Submission.origin, hremote, ← hfile]
    exact hy.submit hes r.operation
  | some remote =>
    obtain ⟨parent, viaReplica⟩ := remote
    refine ⟨false, _, .ofSerial n₁.serial, rfl, ?_⟩
    rw [Submission.origin, hremote, ← hfile]
    exact hy.tick.submitFrom hes r.operation _ parent viaReplica

/-! ### Changes of the application -/

theorem Sound.propagate (h : n.Sound hands) (o : Operation) (es : List Entry) (propagate : Bool) :
    n.Yields hands hands (n.view.propagate o es propagate)
      (if propagate then n.submit o (.entries es) else n) := by
  cases propagate with
  | true => exact (h.entries_cons es).submit o
  | false => exact h.yields hands

theorem Sound.insert (h : n.Sound hands) (es : List Entry) (propagate : Bool) :
    n.Yields hands hands (n.view.insert es propagate) (n.insert es propagate) := by
  rw [Node.insert, View.insert]
  simp only [List.isEmpty_iff]
  split
  · exact h.yields hands
  · have hy := h.setHoldings (list_add n.holdings es) rfl
    have hy' := hy.sound.propagate .insert es propagate
    rw [hy.view_eq] at hy'
    exact hy.trans hy'

theorem Sound.delete (h : n.Sound hands) (es : List Entry) (propagate : Bool) :
    n.Yields hands hands (n.view.delete es propagate) (n.delete es propagate) := by
  rw [Node.delete, View.delete]
  simp only [List.isEmpty_iff]
  split
  · exact h.yields hands
  · have hy := h.setHoldings (list_remove n.holdings es) rfl
    have hy' := hy.sound.propagate .delete es propagate
    rw [hy.view_eq] at hy'
    exact hy.trans hy'

theorem Sound.update (h : n.Sound hands) (es : List Entry) :
    n.Yields hands hands (n.view.update es) (n.update es) := by
  by_cases hnil : es = []
  · rw [Node.update, View.update, if_pos (List.isEmpty_iff.2 hnil), if_pos hnil]
    exact h.yields hands
  · let routed := es.map n.view.underStoredKey
    let here := n.view.updatedHere es
    obtain ⟨hmoved, hlist, hscratch, hrows⟩ :=
      applyUpdate_eq n.holdings n.peer.path n.view rfl here
    have hy := h.setHoldings hlist hscratch
    rw [hrows] at hy
    have hsubmit := (hy.sound.entries_cons routed).submit .update
    rw [hy.view_eq] at hsubmit
    have hy' := hy.trans hsubmit
    have hrun : n.update es =
        if (n.view.moved n.peer.path here).isEmpty then
          ({ n with holdings := (n.holdings.applyUpdate n.peer.path n.keys here).2 } :
            Node).submit .update (.entries routed)
        else (({ n with holdings := (n.holdings.applyUpdate n.peer.path n.keys here).2 } :
            Node).submit .update (.entries routed)).submit .insert
              (.entries (n.view.moved n.peer.path here)) := by
      rw [Node.update, if_neg (by simpa using hnil), ← hmoved]
      rfl
    rw [hrun, View.update, if_neg hnil]
    simp only [View.apply, List.isEmpty_iff]
    by_cases hstay : n.view.moved n.peer.path here = []
    · rw [if_pos hstay, if_pos (show n.view.moved n.view.peer.path here = [] from hstay)]
      exact hy'
    · rw [if_neg hstay, if_neg (show n.view.moved n.view.peer.path here ≠ [] from hstay)]
      have hinsert := (hy'.sound.entries_cons (n.view.moved n.peer.path here)).submit .insert
      rw [hy'.view_eq] at hinsert
      -- the update is submitted before the insertion, but neither waits for the other in the view
      have hswap := hy'.trans hinsert
      rw [View.queue, View.queue, Multiset.cons_swap] at hswap
      exact hswap

/-! ### Hand-offs -/

/-- Some entries are written to a new file. -/
theorem run_stage {v : Volume} {dir : Path} (hv : v.Ready dir) (entries : List Entry) :
    ∃ k t v', (stage dir entries).run.run v = (.ok (k, t), v') ∧ v.Leads dir [] v' ∧
      v.item? t.file.path = none ∧
      v'.HasEntries t.file.path (entries.filter fun e => Bulk.Line.isEncodable e) := by
  obtain ⟨f, v₁, hcreate, hl₁, hpath, hf₁⟩ := ScratchFile.run_createIn hv
  have hfree := ScratchFile.item?_of_new hv hpath
  have hopen := BulkList.run_openAt (ScratchFile.nameOf v.serial) hl₁.ready.schedule
    hl₁.ready.directory (Volume.run_touch hl₁.ready.schedule (hpath ▸ hf₁))
  rw [← hpath] at hopen
  have htransfer : (Transfer.createIn dir).run.run v =
      (.ok ⟨⟨f.path, .first, .empty⟩, f⟩, v₁) := by
    rw [Transfer.createIn, TryDisk.run_bind_ok hcreate]
    exact ScratchFile.run_orRelease (TryDisk.run_bind_ok hopen)
  obtain ⟨k, v₂, happend, hl₂, hf₂⟩ :=
    Bulk.run_append hl₁.ready (Bulk.hasList_of_hasFile_nil hf₁) entries
  refine ⟨k, ⟨(⟨f.path, .first, .empty⟩ : BulkList).renewed, f⟩, v₂, ?_,
    ((hl₁.mono (List.nil_subset _)).trans hl₂).of_cons hfree, hfree, ?_⟩
  · rw [stage, TryDisk.run_bind_ok htransfer]
    refine ScratchFile.run_orRelease ?_
    rw [Transfer.stage]
    refine (TryDisk.run_bind_ok ((TryDisk.run_bind_ok happend).trans rfl)).trans rfl
  · simpa using hf₂.hasEntries

/-- A hand-off moves the foreign entries from the store into a request. -/
theorem Sound.redistribute (h : n.Sound hands) :
    ∃ k n', n.redistribute = (.ok k, n') ∧ n.Yields hands hands n.view.redistribute n' := by
  have hforeign : n.holdings.store.foreignTo n.peer.path =
      n.view.rows.foreignTo n.view.peer.path := rfl
  rw [Node.redistribute, View.redistribute, hforeign]
  by_cases hnil : n.view.rows.foreignTo n.view.peer.path = []
  · exact ⟨0, n, by simp [hnil], by simpa [hnil] using h.yields hands⟩
  · obtain ⟨k, t, v, hrun, hl, hfree, hf⟩ :=
      run_stage h.inventory.ready (n.view.rows.foreignTo n.view.peer.path)
    obtain ⟨hy₁, hes⟩ := h.newFile hl hfree hf
    have hy₂ := hy₁.sound.setHoldings
      (list_remove n.holdings (n.view.rows.foreignTo n.view.peer.path)) rfl
    rw [hy₁.view_eq] at hy₂
    have hy := (hy₁.trans (hy₂.mono (List.subset_cons_self ..))).submit hes .insert
    rw [List.isEmpty_eq_false_iff.2 hnil, tryOnDisk_ok hrun, if_neg hnil]
    exact ⟨k, _, rfl, hy⟩

end Node

end TrieOverlay
