import TrieOverlay.Node.Changes
import TrieOverlay.Node.Cycle
import TrieOverlay.Proofs.Store.Deletions

/-!
# Deletions that listeners hear of

Entries leave the store of a node in several ways (`Node.Removal`): by a removal from the holdings,
by a delivered request to delete, by an update that moves them elsewhere, and when the application
deletes them.  All of them hand some batch to `Holdings.remove`, which takes out what has the
identifiers of the batch and tells the listeners of the batch itself.

* `Node.Removal.state_after`, `Node.Removal.journal_after`: what every way does to the store and
  what is heard of it.
* `Node.told_iff_genuine`: the deletions that are heard of are those that happened exactly if the
  identifiers of the batch are different and the store has its entries as they are.
-/

namespace TrieOverlay

namespace Node

open Listeners

/-- A way in which entries leave the store of a node. -/
inductive Removal where
  /-- They are removed from what the peer holds. -/
  | direct (es : List Entry)
  /-- A delivered request to delete is applied for a path. -/
  | delivered (path : Key) (payload : Payload)
  /-- Updated entries are applied for a path, and some get keys that lie elsewhere. -/
  | updated (path : Key) (keys : KeyScheme) (es : List Entry)
  /-- The application deletes them. -/
  | asked (es : List Entry) (propagate : Bool)

namespace Removal

/-- The batch that is removed. -/
def batch (n : Node) : Removal → List Entry
  | .direct es => es
  | .delivered _ (.entries es) => es
  | .delivered _ (.file f) =>
    match (n.tryOnDisk f.entries).1 with
    | .ok es => es
    | .error _ => []
  | .updated path keys es => es.filter (Holdings.leaves path keys)
  | .asked es _ => es

/-- What the peer holds when the batch is removed: of updated entries those that stay are put
first. -/
def before (n : Node) : Removal → Holdings
  | .updated path keys es =>
    n.holdings.updateSome ((es.filter fun e => !Holdings.leaves path keys e).map
      (Holdings.rekey keys))
  | _ => n.holdings

/-- The node afterwards. -/
def after (n : Node) : Removal → Node
  | .direct es => { n with holdings := (n.holdings.remove es).2 }
  | .delivered path payload => n.applyPayload path .delete payload
  | .updated path keys es => { n with holdings := (n.holdings.applyUpdate path keys es).2 }
  | .asked es propagate => n.delete es propagate

/-- The entries that a listener hears of as deleted. -/
def told (n : Node) (r : Removal) (l : Listener) : List Entry :=
  heard l .deleted ((r.after n).holdings.journal.drop n.holdings.journal.length)

/-! ### What every way comes to -/

theorem holdings_applyOwned_delete (n : Node) (path : Key) (es : List Entry) :
    (n.applyOwned path .delete es).holdings = n.holdings.removeSome es := by
  unfold applyOwned Holdings.removeSome
  split <;> rfl

theorem holdings_applyFile_delete (n : Node) (path : Key) (f : ScratchFile) :
    (n.applyFile path .delete f).holdings =
      n.holdings.removeSome (batch n (.delivered path (.file f))) := by
  have hdisk : (n.tryOnDisk f.entries).2.holdings = n.holdings := rfl
  rw [applyFile, batch, ← hdisk]
  obtain ⟨result, n'⟩ := n.tryOnDisk f.entries
  cases result with
  | ok es => exact holdings_applyOwned_delete n' path es
  | error e => rfl

/-- Every way removes its batch, at most unless there is nothing in it. -/
theorem holdings_after (n : Node) (r : Removal) :
    (r.after n).holdings = (r.before n).removeSome (r.batch n) ∨
      (r.after n).holdings = ((r.before n).remove (r.batch n)).2 := by
  cases r with
  | direct es => exact Or.inr rfl
  | delivered path payload =>
    cases payload with
    | entries es => exact Or.inl (holdings_applyOwned_delete n path es)
    | file f => exact Or.inl (holdings_applyFile_delete n path f)
  | updated path keys es =>
    left
    change (n.holdings.applyUpdate path keys es).2 = _
    rw [Holdings.applyUpdate_eq]
    rfl
  | asked es propagate =>
    left
    cases es with
    | nil => rfl
    | cons e es => cases propagate <;> rfl

theorem state_after (n : Node) (r : Removal) :
    (r.after n).holdings.store.state =
      ((r.before n).store.state.deleteAll ((r.batch n).map (·.id))).2 := by
  rcases holdings_after n r with h | h
  · rw [h, Holdings.state_removeSome]
  · rw [h]
    rfl

theorem journal_after (n : Node) (r : Removal) :
    (r.after n).holdings.journal =
      (r.before n).journal ++ (r.before n).listeners.notify .deleted (r.batch n) := by
  rcases holdings_after n r with h | h
  · rw [h, Holdings.journal_removeSome]
  · rw [h]
    rfl

/-- Up to the removal a listener hears of no deletions. -/
theorem journal_before (n : Node) (r : Removal) :
    (r.before n).listeners = n.holdings.listeners ∧ ∃ evs,
      (r.before n).journal = n.holdings.journal ++ evs ∧ ∀ l, heard l .deleted evs = [] := by
  cases r with
  | updated path keys es =>
    exact ⟨Holdings.listeners_updateSome _ _, _, Holdings.journal_updateSome _ _,
      fun l => heard_notify_of_ne _ l _ (by decide)⟩
  | _ => exact ⟨rfl, [], by simp [before], fun _ => rfl⟩

/-- Of the deletions a listener hears the batch. -/
theorem told_perm (n : Node) (r : Removal) (l : Listener) :
    (r.told n l).Perm (n.holdings.listeners.due l (r.batch n)) := by
  obtain ⟨hlisteners, evs, hbefore, hnone⟩ := journal_before n r
  rw [told, journal_after, hlisteners, hbefore, List.append_assoc, List.drop_left, heard_append,
    hnone, List.nil_append]
  exact heard_notify_perm _ l .deleted _

theorem exists_keeps_before {n : Node} {m : Ledger} (h : n.holdings.store.state.Keeps m)
    (r : Removal) : ∃ m', (r.before n).store.state.Keeps m' := by
  cases r with
  | updated path keys es =>
    have hafter := h.upserts ((es.filter fun e => !Holdings.leaves path keys e).map
      (Holdings.rekey keys))
    rw [← Holdings.state_updateSome] at hafter
    exact ⟨_, hafter⟩
  | _ => exact ⟨m, h⟩

end Removal

/-- **The deletions that are heard of are those that happened exactly if the batch is genuine.**
Whatever the store went through before and in whatever way a batch is removed: every listener hears
of the entries of the batch as deleted, once for every time that it is registered for their types,
while the store loses the entries with the identifiers of the batch and keeps all others.  The
number that comes back is that of the lost entries, and that of the batch exactly if its
identifiers are different and all of them are stored.  If the types of all these entries have
listeners, then all listeners hear exactly of the lost entries if and only if the identifiers of
the batch are different and the store has its entries as they are. -/
theorem told_iff_genuine (n : Node) (name : String) (past : List Store.Op)
    (hpast : n.holdings.store.state = ((Store.named name).run past).2.state) (r : Removal) :
    let h := r.before n
    let batch := r.batch n
    let n' := r.after n
    let lost := h.store.lost n'.holdings.store
    let ls := n.holdings.listeners
    (∀ l, (r.told n l).Perm (ls.due l batch)) ∧
    (n'.holdings.store.get none = (h.store.get none).filter (fun e => e.id ∉ batch.map (·.id)) ∧
      lost = (h.store.get none).filter fun e => e.id ∈ batch.map (·.id)) ∧
    ((h.remove batch).1 = lost.length ∧ (lost.length = batch.length ↔
      (batch.map (·.id)).Nodup ∧ ∀ e ∈ batch, h.store.contains e.id = true)) ∧
    ((∀ e ∈ batch ++ lost, ls.get e.typeName ≠ []) →
      ((∀ l, (r.told n l).Perm (ls.due l lost)) ↔
        (batch.map (·.id)).Nodup ∧ ∀ e ∈ batch, e ∈ h.store.get none)) := by
  intro h batch n' lost ls
  have hstart : n.holdings.store.state.Keeps (Ledger.empty.run past).2 :=
    hpast ▸ ((Store.follows_named name).run past).2.rows
  obtain ⟨m, hm⟩ := Removal.exists_keeps_before hstart r
  have hstate : n'.holdings.store.state = (h.store.state.deleteAll (batch.map (·.id))).2 :=
    Removal.state_after n r
  have hlost : lost = h.store.state.matching batch := Store.lost_eq hm hstate
  have htold : ∀ l, (r.told n l).Perm (ls.due l batch) := Removal.told_perm n r
  refine ⟨htold, ⟨?_, hlost.trans (Store.Rows.matching_eq ..)⟩, ⟨?_, ?_⟩, fun hcovers => ?_⟩
  · rw [Store.get, hstate]
    exact hm.entries_deleteAll batch
  · rw [hlost]
    exact hm.fst_deleteAll batch
  · rw [hlost]
    exact hm.length_matching_iff batch
  · have hsame : (∀ l, (r.told n l).Perm (ls.due l lost)) ↔
        ∀ l, (ls.due l batch).Perm (ls.due l lost) :=
      forall_congr' fun l => ⟨(htold l).symm.trans, (htold l).trans⟩
    rw [hsame, perm_due_iff hcovers, hlost]
    exact hm.perm_matching_iff batch

/-- A listener hears of a batch that names one entry twice and another one that is not stored: of
three deletions where one happened.  Of the entry alone it hears as it should. -/
theorem told_iff_genuine_of_unknown :
    let peer : PeerInfo := ⟨⟨"peer"⟩, "localhost:1"⟩
    let item (id : String) : Entry := ⟨⟨id⟩, ⟨[false]⟩, "type", peer, "x"⟩
    let list (name : String) : BulkList := ⟨Path.root.child name, .first, .empty⟩
    let holdings : Holdings :=
      { store := ((Store.named "canonical").run [.add [item "a"]]).2
        inbound := list "inbound.csv", outboundDelete := list "d"
        outboundInsert := list "i", outboundUpdate := list "u"
        scratch := Path.root.child "scratch"
        listeners := Listeners.empty.register "type" (.named "l"), journal := [] }
    let n : Node :=
      { peer := ⟨peer, .root, true⟩, keys := .ofBits 8, holdings, queues := .empty
        entryFlights := .empty, fileFlights := .empty, volume := .empty, serial := 0
        isPaused := false, clock := 0, idlePoll := 0, lastRetry := none }
    let unknown : Removal := .asked [item "a", item "a", item "b"] false
    let known : Removal := .asked [item "a"] false
    let lost (r : Removal) := (r.before n).store.lost (r.after n).holdings.store
    ((unknown.told n (.named "l")).Perm [item "a", item "a", item "b"] ∧
      (holdings.remove [item "a", item "a", item "b"]).1 = 1 ∧
      ¬∀ l, (unknown.told n l).Perm (holdings.listeners.due l (lost unknown))) ∧
    ∀ l, (known.told n l).Perm (holdings.listeners.due l (lost known)) := by
  intro peer item list holdings n unknown known lost
  obtain ⟨htold, ⟨-, hlost⟩, ⟨hcount, -⟩, hunknown⟩ :=
    told_iff_genuine n "canonical" [.add [item "a"]] rfl unknown
  obtain ⟨-, ⟨-, hlost'⟩, -, hknown⟩ :=
    told_iff_genuine n "canonical" [.add [item "a"]] rfl known
  have hstored : holdings.store.get none = [item "a"] := by decide
  have hone : lost unknown = [item "a"] := by
    refine hlost.trans ?_
    change (holdings.store.get none).filter _ = _
    rw [hstored]
    rfl
  have hone' : lost known = [item "a"] := by
    refine hlost'.trans ?_
    change (holdings.store.get none).filter _ = _
    rw [hstored]
    rfl
  have htype (id : String) : holdings.listeners.get (item id).typeName ≠ [] := by
    change holdings.listeners.get "type" ≠ []
    decide
  have hdue : holdings.listeners.due (.named "l") [item "a", item "a", item "b"] =
      [item "a", item "a", item "b"] := by decide
  refine ⟨⟨hdue ▸ htold (.named "l"), ?_, fun hsame => ?_⟩, ?_⟩
  · exact hcount.trans (congrArg List.length hone)
  · have hcovers : ∀ e ∈ unknown.batch n ++ lost unknown,
        holdings.listeners.get e.typeName ≠ [] := by
      rw [hone]
      simp [unknown, Removal.batch, htype]
    exact absurd ((hunknown hcovers).1 hsame).1 (by decide)
  · have hcovers : ∀ e ∈ known.batch n ++ lost known,
        holdings.listeners.get e.typeName ≠ [] := by
      rw [hone']
      simp [known, Removal.batch, htype]
    refine (hknown hcovers).2 ⟨by decide, fun e he => ?_⟩
    change e ∈ holdings.store.get none
    rw [hstored]
    exact he

end Node

end TrieOverlay
