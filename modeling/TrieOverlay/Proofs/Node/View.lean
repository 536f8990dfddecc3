import Mathlib.Data.Multiset.Bind
import Mathlib.Data.Multiset.Filter
import TrieOverlay.Node.Cycle
import TrieOverlay.Proofs.InFlight
import TrieOverlay.Proofs.Ident
import TrieOverlay.Proofs.Node.Inventory

/-!
# What a node has, with the entries that it stands for

`Node.view` is a node without its files: the requests that wait and the messages in flight with
their entries, the entries of the four lists, and the rows of the store.  A node is `Node.Sound` if
its files are as they should be; some payloads may be in hand, that is, taken out of a queue and not
yet handed on.

`Node.Yields n kept hands w n'` says what came of one step: `n'` is sound with the payloads `hands`
in hand, looks like `w`, made up no fewer names, and the payloads `kept` stand for the same entries
as before.
-/

namespace TrieOverlay

/-- A message in flight with its payload. -/
structure Flight where
  /-- Who is told what became of it. -/
  sender : Engine
  /-- Its name. -/
  id : MessageId
  /-- The change that it asks for. -/
  operation : Operation
  /-- What it carries. -/
  payload : Payload

/-- A request that waits, with its entries. -/
structure Errand where
  /-- The change that it asks for. -/
  operation : Operation
  /-- Where it comes from. -/
  origin : Origin
  /-- The entries to change. -/
  entries : List Entry
  /-- Whether the entries are in a file. -/
  inFile : Bool

/-- A message in flight, with its entries. -/
structure Carried where
  /-- Who is told what became of it. -/
  sender : Engine
  /-- Its name. -/
  id : MessageId
  /-- The change that it asks for. -/
  operation : Operation
  /-- The entries that it carries. -/
  entries : List Entry

/-- A node without its files. -/
structure View where
  /-- The peer. -/
  peer : LocalPeer
  /-- The keys of payloads. -/
  keys : KeyScheme
  /-- The requests that wait. -/
  queued : Multiset Errand
  /-- The messages in flight. -/
  flying : Multiset Carried
  /-- The entries of the lists. -/
  list : Buffer → List Entry
  /-- The rows of the store. -/
  rows : Store.Rows

/-- Whether a payload is a file. -/
def Payload.isFile : Payload → Bool
  | .entries _ => false
  | .file _ => true

/-- What is left of the entries of a request when its payload is split. -/
def Errand.kept (r : Errand) : List Entry :=
  if r.inFile then r.entries.filter fun e => Bulk.Line.isEncodable e else r.entries

/-- What can be written is left when a payload is split. -/
theorem Errand.mem_kept {r : Errand} {e : Entry} (he : Bulk.Line.isEncodable e = true)
    (h : e ∈ r.entries) : e ∈ r.kept := by
  rw [kept]
  split
  · exact List.mem_filter.2 ⟨h, he⟩
  · exact h

theorem Errand.kept_subset (r : Errand) : r.kept ⊆ r.entries := by
  rw [kept]
  split
  · exact fun x hx => (List.mem_filter.1 hx).1
  · exact List.Subset.refl _

theorem Errand.kept_eq {r : Errand} (h : ∀ e ∈ r.entries, Bulk.Line.isEncodable e = true) :
    r.kept = r.entries := by
  rw [kept, List.filter_eq_self.2 h, ite_self]

namespace View

/-- A request waits. -/
def queue (w : View) (r : Errand) : View :=
  { w with queued := r ::ₘ w.queued }

/-- A message takes off. -/
def fly (w : View) (m : Carried) : View :=
  { w with flying := m ::ₘ w.flying }

/-- A list has other entries. -/
def setList (w : View) (b : Buffer) (es : List Entry) : View :=
  { w with list := Function.update w.list b es }

/-- Entries are written at the end of a list, without those that cannot be written. -/
def append (w : View) (b : Buffer) (es : List Entry) : View :=
  w.setList b (w.list b ++ es.filter fun e => Bulk.Line.isEncodable e)

/-- The store has other rows. -/
def setRows (w : View) (rows : Store.Rows) : View :=
  { w with rows }

/-- What a report leaves of a message: undelivered entries are put by. -/
def settle (w : View) (o : Operation) (es : List Entry) (delivered : Bool) : View :=
  if delivered then w else w.append (.outbound o) es

/-- The entries whose new keys a path owns, under their new keys. -/
def staying (w : View) (path : Key) (es : List Entry) : List Entry :=
  (es.filter fun e => path.owns (Holdings.rekey w.keys e).key).map (Holdings.rekey w.keys)

/-- The entries whose new keys a path does not own. -/
def leaving (w : View) (path : Key) (es : List Entry) : List Entry :=
  es.filter fun e => !path.owns (Holdings.rekey w.keys e).key

/-- The entries that an update moves out of a path, under their new keys. -/
def moved (w : View) (path : Key) (es : List Entry) : List Entry :=
  (w.leaving path es).map (Holdings.rekey w.keys)

/-- Owned entries are applied. -/
def apply (w : View) (path : Key) (o : Operation) (es : List Entry) : View :=
  match o with
  | .insert => w.append .inbound es
  | .update =>
    let rows := (((w.staying path es).foldl .upsert w.rows).deleteAll
      ((w.leaving path es).map (·.id))).2
    if w.moved path es = [] then w.setRows rows
    else (w.setRows rows).queue ⟨.insert, .here, w.moved path es, false⟩
  | .delete => w.setRows (w.rows.deleteAll (es.map (·.id))).2

/-- The delivered entries are merged into the store. -/
def merge (w : View) : View :=
  (w.setList .inbound []).setRows ((w.list .inbound).foldl .upsert w.rows)

/-- Nothing waits, nothing is in flight, and all lists are empty. -/
structure Idle (w : View) : Prop where
  queued : w.queued = 0
  flying : w.flying = 0
  list : ∀ b, w.list b = []

@[simp] theorem peer_setRows (w : View) (rows : Store.Rows) : (w.setRows rows).peer = w.peer := rfl

theorem list_setList (w : View) (b b' : Buffer) (es : List Entry) :
    (w.setList b es).list b' = if b' = b then es else w.list b' :=
  Function.update_apply ..

@[simp] theorem setRows_rows (w : View) : w.setRows w.rows = w := rfl

@[simp] theorem setList_list (w : View) (b : Buffer) : w.setList b (w.list b) = w := by
  simp [setList]

end View

namespace Node

variable {n n' n'' : Node} {hands hands' hands'' kept : List Payload} {x : Payload} {w w' : View}

/-! ### The view of a node -/

/-- The messages in flight. -/
def flights (n : Node) : List Flight :=
  n.entryFlights.toList.map (fun m => ⟨.entries, m.1, m.2.operation, .entries m.2.payload⟩) ++
    n.fileFlights.toList.map (fun m => ⟨.files, m.1, m.2.operation, .file m.2.payload⟩)

/-- The payloads of the requests that wait and of the messages in flight. -/
def payloads (n : Node) : List Payload :=
  n.queues.inOrder.map (·.payload) ++ n.flights.map (·.payload)

/-- The entries that a payload stands for. -/
def entriesIn (n : Node) (x : Payload) : List Entry :=
  n.volume.entriesIn x

/-- A request with its entries. -/
def errand (n : Node) (r : Request) : Errand :=
  ⟨r.operation, r.origin, n.entriesIn r.payload, r.payload.isFile⟩

/-- A message in flight with its entries. -/
def carried (n : Node) (f : Flight) : Carried :=
  ⟨f.sender, f.id, f.operation, n.entriesIn f.payload⟩

/-- A node without its files. -/
def view (n : Node) : View where
  peer := n.peer
  keys := n.keys
  queued := (n.queues.inOrder.map n.errand : List Errand)
  flying := (n.flights.map n.carried : List Carried)
  list b := n.volume.entriesAt (n.holdings.list b).path
  rows := n.holdings.store.state

/-- No request is in the queues if none is seen. -/
theorem inOrder_eq_nil (h : n.view.queued = 0) : n.queues.inOrder = [] :=
  List.map_eq_nil_iff.1 ((Multiset.coe_eq_zero _).1 h)

/-- The files of a node are as they should be while some payloads are in hand, and the names of its
messages in flight were made up by the node. -/
structure Sound (hands : List Payload) (n : Node) : Prop where
  inventory : n.volume.Inventory n.holdings.scratch n.holdings.list (hands ++ n.payloads)
  named : ∀ f ∈ n.flights, ∃ k < n.serial, f.id = .ofSerial k

/-- What came of a step. -/
structure Yields (n : Node) (kept hands : List Payload) (w : View) (n' : Node) : Prop where
  sound : n'.Sound hands
  view_eq : n'.view = w
  kept_eq : ∀ x ∈ kept, n'.entriesIn x = n.entriesIn x
  serial_le : n.serial ≤ n'.serial

theorem Sound.of_cons (h : n.Sound (x :: hands)) : n.Sound hands :=
  ⟨h.inventory.of_cons, h.named⟩

theorem Sound.entries_cons (h : n.Sound hands) (batch : List Entry) :
    n.Sound (.entries batch :: hands) :=
  ⟨h.inventory.entries_cons batch, h.named⟩

theorem Sound.entries_append (h : n.Sound hands) {new : List Payload}
    (hnew : ∀ x ∈ new, x.path? = none) : n.Sound (new ++ hands) := by
  induction new with
  | nil => exact h
  | cons x new ih =>
    obtain ⟨hx, hrest⟩ := List.forall_mem_cons.1 hnew
    cases x with
    | entries batch => exact (ih hrest).entries_cons batch
    | file f => cases hx

theorem Sound.yields (h : n.Sound hands) (kept : List Payload) :
    n.Yields kept hands n.view n :=
  ⟨h, rfl, fun _ _ => rfl, Nat.le_refl _⟩

theorem Yields.trans (h : n.Yields kept hands w n') (h' : n'.Yields kept hands' w' n'') :
    n.Yields kept hands' w' n'' :=
  ⟨h'.sound, h'.view_eq, fun x hx => (h'.kept_eq x hx).trans (h.kept_eq x hx),
    h.serial_le.trans h'.serial_le⟩

theorem Yields.mono {kept' : List Payload} (h : n.Yields kept hands w n') (hs : kept' ⊆ kept) :
    n.Yields kept' hands w n' :=
  ⟨h.sound, h.view_eq, fun x hx => h.kept_eq x (hs hx), h.serial_le⟩

/-- Steps on the files leave the requests and the messages in flight what they are. -/
theorem Sound.yields_of_volume (h : n.Sound hands) (v : Volume) (holdings : Holdings)
    (hinv : v.Inventory holdings.scratch holdings.list (hands' ++ n.payloads))
    (hkept : ∀ x ∈ kept ++ n.payloads, v.entriesIn x = n.volume.entriesIn x) :
    n.Yields kept hands'
      { n.view with
        list := fun b => v.entriesAt (holdings.list b).path
        rows := holdings.store.state }
      { n with holdings, volume := v } := by
  refine ⟨⟨hinv, h.named⟩, ?_, fun x hx => hkept x (List.mem_append_left _ hx), Nat.le_refl _⟩
  -- what waits and what is in flight stands for the entries that it stood for
  have hqueued : n.queues.inOrder.map ({ n with holdings, volume := v } : Node).errand =
      n.queues.inOrder.map n.errand := by
    refine List.map_congr_left fun r hr => ?_
    rw [errand, errand, entriesIn, entriesIn]
    simp only
    rw [hkept r.payload (List.mem_append_right _ (List.mem_append_left _
      (List.mem_map_of_mem hr)))]
  have hflying : n.flights.map ({ n with holdings, volume := v } : Node).carried =
      n.flights.map n.carried := by
    refine List.map_congr_left fun f hf => ?_
    rw [carried, carried, entriesIn, entriesIn]
    simp only
    rw [hkept f.payload (List.mem_append_right _ (List.mem_append_right _
      (List.mem_map_of_mem hf)))]
  rw [view, view]
  simp only [View.mk.injEq, true_and, and_true]
  exact ⟨congrArg _ hqueued, congrArg _ hflying⟩

/-- What is the same for two nodes that differ in their requests and messages only. -/
structure SameFiles (n n' : Node) : Prop where
  peer : n'.peer = n.peer
  keys : n'.keys = n.keys
  holdings : n'.holdings = n.holdings
  volume : n'.volume = n.volume

/-- Steps that move payloads between hands, requests and messages leave the files what they
are. -/
theorem Sound.yields_of_perm (h : n.Sound hands) (hsame : n.SameFiles n')
    (hperm : (hands' ++ n'.payloads).Perm (hands ++ n.payloads))
    (hnamed : ∀ f ∈ n'.flights, ∃ k < n'.serial, f.id = .ofSerial k)
    (hserial : n.serial ≤ n'.serial) {queued : Multiset Errand}
    {flying : Multiset Carried} (hqueued : (n'.queues.inOrder.map n.errand : List Errand) = queued)
    (hflying : (n'.flights.map n.carried : List Carried) = flying) :
    n.Yields kept hands' { n.view with queued, flying } n' := by
  obtain ⟨peer, keys, holdings, queues, entryFlights, fileFlights, volume, _⟩ := n'
  obtain ⟨rfl, rfl, rfl, rfl⟩ := hsame
  refine ⟨⟨h.inventory.perm hperm.symm, hnamed⟩, ?_, fun _ _ => rfl, hserial⟩
  rw [← hqueued, ← hflying]
  rfl

end Node

end TrieOverlay
