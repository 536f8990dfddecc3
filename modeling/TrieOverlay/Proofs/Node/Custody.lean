import Mathlib.Tactic.Abel
import TrieOverlay.Proofs.Node.Opening
import TrieOverlay.Proofs.Node.Record

/-!
# What a node has to send on is accounted for

A request puts entries into the custody of a node: those that the peer is not responsible for, or
all of them if they were raised at a peer that is no super peer.  Updates that are applied add the
entries that they move out of the path, as entries to insert.  The node has custody of an entry
until it is delivered: it is in a request that waits, in a message in flight, or in an outbound
list.  `Node.custody` says that the books balance after every run, each entry counted as often as it
came in.
-/

namespace TrieOverlay

open Record

/-! ### The books -/

/-- How a request came: not at all (it was raised here), or by a peer, which may be a replica. -/
def Origin.via : Origin → Option Bool
  | .here => none
  | .peer _ _ viaReplica => some viaReplica

/-- How the request of a submission comes. -/
def Submission.via (r : Submission) : Option Bool :=
  r.remote.map (·.2)

theorem Submission.via_origin (r : Submission) (message : MessageId) :
    (r.origin message).via = r.via := by
  rw [Submission.origin, Submission.via]
  cases r.remote <;> rfl

/-- The entries of a request that a peer has to send on. -/
def duty (p : LocalPeer) : (via : Option Bool) → List Entry → List Entry
  | none, es => if p.isSuperPeer then foreignTo p.path es else es
  | some false, es => foreignTo p.path es
  | some true, _ => []

/-- The entries of a request that a peer applies when it serves the request. -/
def applied (p : LocalPeer) : (via : Option Bool) → List Entry → List Entry
  | none, _ => []
  | some false, es => ownedBy p.path es
  | some true, es => es

/-- The entries that updating some entries moves out of a path, under their new keys. -/
def movedOut (keys : KeyScheme) (path : Key) (es : List Entry) : List Entry :=
  foreignTo path (es.map (Holdings.rekey keys))

/-- The entries that serving a request moves out of the path of a peer. -/
def Errand.moves (p : LocalPeer) (keys : KeyScheme) (r : Errand) : List Entry :=
  if r.operation = .update then movedOut keys p.path (applied p r.origin.via r.entries) else []

/-- The entries of an operation that come into custody. -/
def Note.entering (p : LocalPeer) (keys : KeyScheme) (o : Operation) : Note → Multiset Entry
  | .asked r => ofOperation o r.operation (duty p r.via (r.entries?.getD []))
  | .served r => ofOperation o .insert (r.moves p keys)
  | .sent _ | .told _ _ _ => 0

/-- The entries of an operation that came into custody during a run. -/
def entered (p : LocalPeer) (keys : KeyScheme) (o : Operation) (log : List Note) :
    Multiset Entry :=
  (log.map (Note.entering p keys o)).sum

namespace View

/-- The entries of an operation that the requests that wait are to send on. -/
def waiting (w : View) (o : Operation) : Multiset Entry :=
  (w.queued.map fun r => ofOperation o r.operation (duty w.peer r.origin.via r.entries)).sum

/-- The entries of an operation that are in custody. -/
def custody (w : View) (o : Operation) : Multiset Entry :=
  w.waiting o + loads o w.flying + (w.list (.outbound o) : Multiset Entry)

end View

/-! ### Chores -/

/-- The entries of an operation that a chore is to send on, or is going to move out. -/
def Chore.load (p : LocalPeer) (keys : KeyScheme) (o : Operation) : Chore → Multiset Entry
  | .serve r => ofOperation o r.operation (duty p r.origin.via r.entries) +
      ofOperation o .insert (r.moves p keys)
  | .send o' es => ofOperation o o' es
  | .apply o' path es => if o' = .update then ofOperation o .insert (movedOut keys path es) else 0
  | .idle | .retry | .resend _ | .merge => 0

/-- The entries of an operation that some chores are to send on or to move out. -/
def loadOf (p : LocalPeer) (keys : KeyScheme) (o : Operation) (cs : List Chore) : Multiset Entry :=
  (cs.map (Chore.load p keys o)).sum

/-- Whether an entry can be written, and is not for a super peer to keep. -/
def Passing (p : LocalPeer) (e : Entry) : Prop :=
  Bulk.Line.isEncodable e = true ∧ (p.isSuperPeer = true → p.path.owns e.key = false)

/-- Whether the entries of a chore can be written, and what is sent is passing. -/
def Chore.Fits (p : LocalPeer) : Chore → Prop
  | .serve r => ∀ e ∈ r.entries, Bulk.Line.isEncodable e = true
  | .send _ es => ∀ e ∈ es, Passing p e
  | .apply _ path es => path = p.path ∧ ∀ e ∈ es, Bulk.Line.isEncodable e = true
  | .idle | .retry | .resend _ | .merge => True

/-- What a view keeps during a run. -/
structure View.Fits (p : LocalPeer) (keys : KeyScheme) (w : View) : Prop where
  peer : w.peer = p
  keys : w.keys = keys
  queued : ∀ r ∈ w.queued, ∀ e ∈ r.entries, Bulk.Line.isEncodable e = true
  flying : ∀ m ∈ w.flying, ∀ e ∈ m.entries, Passing p e
  outbound : ∀ o, ∀ e ∈ w.list (.outbound o), Passing p e

section Books

variable {p : LocalPeer} {keys : KeyScheme} {o : Operation} {w : View} {es : List Entry}
  {cs cs' : List Chore}

@[simp] theorem loadOf_nil : loadOf p keys o [] = 0 := rfl

@[simp] theorem loadOf_cons (c : Chore) (cs : List Chore) :
    loadOf p keys o (c :: cs) = c.load p keys o + loadOf p keys o cs := by
  simp [loadOf]

@[simp] theorem loadOf_append (cs cs' : List Chore) :
    loadOf p keys o (cs ++ cs') = loadOf p keys o cs + loadOf p keys o cs' := by
  simp [loadOf]

theorem loadOf_sends (o' : Operation) (parts : List (List Entry)) :
    loadOf p keys o (parts.map (.send o')) = ofOperation o o' parts.flatten := by
  induction parts with
  | nil => simp
  | cons part parts ih =>
    rw [List.map_cons, loadOf_cons, ih, List.flatten_cons, ofOperation_append]
    rfl

theorem entered_append (log log' : List Note) :
    entered p keys o (log ++ log') = entered p keys o log + entered p keys o log' := by
  simp [entered]

theorem View.custody_queue (r : Errand) :
    (w.queue r).custody o =
      ofOperation o r.operation (duty w.peer r.origin.via r.entries) + w.custody o := by
  simp only [View.custody, View.waiting, View.queue, Multiset.map_cons, Multiset.sum_cons,
    add_assoc]

theorem View.custody_fly (m : Carried) :
    (w.fly m).custody o = ofOperation o m.operation m.entries + w.custody o := by
  simp only [View.custody, View.waiting, View.fly, loads_cons]
  abel

theorem View.custody_setRows (rows : Store.Rows) : (w.setRows rows).custody o = w.custody o :=
  rfl

theorem View.custody_append_inbound : (w.append .inbound es).custody o = w.custody o :=
  rfl

theorem View.custody_append_outbound {o' : Operation}
    (hes : ∀ e ∈ es, Bulk.Line.isEncodable e = true) :
    (w.append (.outbound o') es).custody o = ofOperation o o' es + w.custody o := by
  have hlist : ((w.append (.outbound o') es).list (.outbound o) : Multiset Entry) =
      ofOperation o o' es + w.list (.outbound o) := by
    rw [View.append, View.list_setList, List.filter_eq_self.2 hes, ofOperation]
    by_cases ho : o' = o
    · subst ho
      simp only [if_true, ← Multiset.coe_add]
      exact add_comm _ _
    · simp [ho, Ne.symm ho]
  rw [View.custody, View.custody, hlist]
  change w.waiting o + loads o w.flying + _ = _
  abel

/-- What is taken out of an outbound list has to be sent on again. -/
theorem View.custody_take_outbound (o' : Operation) :
    ofOperation o o' (w.list (.outbound o')) + (w.setList (.outbound o') []).custody o =
      w.custody o := by
  have hlist : ofOperation o o' (w.list (.outbound o')) +
      ((w.setList (.outbound o') []).list (.outbound o) : Multiset Entry) =
      w.list (.outbound o) := by
    rw [View.list_setList, ofOperation]
    by_cases ho : o' = o
    · subst ho
      simp
    · simp [ho, Ne.symm ho]
  rw [View.custody, View.custody, ← hlist]
  change _ + (w.waiting o + loads o w.flying + _) = _
  abel

theorem View.custody_merge : w.merge.custody o = w.custody o :=
  rfl

/-! ### What a chore does to the books -/

theorem View.moved_eq (w : View) (path : Key) (es : List Entry) :
    w.moved path es = movedOut w.keys path es := by
  rw [View.moved, View.leaving, movedOut, foreignTo, List.filter_map]
  rfl

theorem isEncodable_rekey {e : Entry} (h : Bulk.Line.isEncodable e = true) :
    Bulk.Line.isEncodable (Holdings.rekey keys e) = true := by
  rw [Holdings.rekey, Bulk.Line.isEncodable_withKey]
  exact h

theorem passing_movedOut (hes : ∀ e ∈ es, Bulk.Line.isEncodable e = true) :
    ∀ e ∈ movedOut keys p.path es, Passing p e := by
  intro e he
  obtain ⟨he, howns⟩ := mem_foreignTo.1 he
  obtain ⟨e', he', rfl⟩ := List.mem_map.1 he
  exact ⟨isEncodable_rekey (hes e' he'), fun _ => howns⟩

theorem duty_here_of_passing (hes : ∀ e ∈ es, Passing p e) : duty p none es = es := by
  rw [duty]
  split
  · rename_i hs
    exact List.filter_eq_self.2 fun e he => by simp [(hes e he).2 hs]
  · rfl

theorem load_serve_here {r : Errand} (h : r.origin = .here) :
    (Chore.serve r).load p keys o = ofOperation o r.operation (duty p none r.entries) := by
  have hmoves : r.moves p keys = [] := by
    rw [Errand.moves, h]
    exact ite_self _
  rw [Chore.load, hmoves, h, ofOperation_nil, add_zero]
  rfl

theorem passing_of_foreignTo (hes : ∀ e ∈ es, Bulk.Line.isEncodable e = true) {path : Key}
    (hp : path = p.path) : ∀ e ∈ foreignTo path es, Passing p e := by
  subst hp
  intro e he
  obtain ⟨he, howns⟩ := mem_foreignTo.1 he
  exact ⟨hes e he, fun _ => howns⟩

theorem View.Fits.apply {path : Key} {o : Operation} (hw : w.Fits p keys) (hpath : path = p.path)
    (hes : ∀ e ∈ es, Bulk.Line.isEncodable e = true) : (w.apply path o es).Fits p keys := by
  subst hpath
  obtain ⟨hpeer, hkeys, hflying⟩ := View.apply_frame w p.path o es
  refine ⟨hpeer.trans hw.peer, hkeys.trans hw.keys, fun r hr => ?_, hflying ▸ hw.flying,
    fun o' => ?_⟩
  · rcases View.queued_apply w p.path o es with hsame | hmore
    · exact hw.queued r (hsame ▸ hr)
    · rw [hmore] at hr
      rcases Multiset.mem_cons.1 hr with rfl | hr
      · intro e he
        rw [View.moved_eq] at he
        exact (passing_movedOut hes e he).1
      · exact hw.queued r hr
  · rw [View.list_outbound_apply]
    exact hw.outbound o'

theorem fits_sends {o' : Operation} {parts : List (List Entry)}
    (hparts : ∀ e ∈ parts.flatten, Passing p e) :
    ∀ c ∈ parts.map (Chore.send o'), c.Fits p := by
  intro c hc
  obtain ⟨part, hpart, rfl⟩ := List.mem_map.1 hc
  exact fun e he => hparts e (List.mem_flatten.2 ⟨part, hpart, he⟩)

/-- Every chore leaves a view as it should be. -/
theorem View.Does.fits {c : Chore} {w w' : View} (hd : w.Does c cs' w') (hw : w.Fits p keys)
    (hc : c.Fits p) : w'.Fits p keys ∧ ∀ c ∈ cs', c.Fits p := by
  cases hd with
  | nothing _ _ => exact ⟨hw, by simp⟩
  | root _ hs =>
    -- a peer that is no super peer may send on whatever it likes
    refine ⟨hw, List.forall_mem_singleton.2 fun e he => ⟨hc e he, fun hs' => ?_⟩⟩
    rw [hw.peer] at hs
    exact absurd hs' (by simp [hs])
  | split _ _ hperm hrest =>
    rw [Errand.kept_eq hc] at hperm
    refine ⟨hw, List.forall_mem_append.2 ⟨fits_sends fun e he => ?_, ?_⟩⟩
    · exact passing_of_foreignTo hc (by rw [hw.peer]) e (hperm.mem_iff.1 he)
    · rcases hrest with rfl | rfl <;> simp [Chore.Fits]
  | splitOther _ hperm hrest =>
    rw [Errand.kept_eq hc] at hperm hrest
    refine ⟨hw, List.forall_mem_append.2 ⟨fits_sends fun e he => ?_, ?_⟩⟩
    · exact passing_of_foreignTo hc (by rw [hw.peer]) e (hperm.mem_iff.1 he)
    · rcases hrest with ⟨rfl, -⟩ | rfl
      · simp
      · refine List.forall_mem_singleton.2 ⟨by rw [hw.peer], fun e he => ?_⟩
        exact hc e (mem_ownedBy.1 he).1
  | replica _ => exact ⟨hw, List.forall_mem_singleton.2 ⟨by rw [hw.peer], hc⟩⟩
  | apply => exact ⟨hw.apply hc.1 hc.2, by simp [Chore.Fits]⟩
  | idle => exact ⟨hw, by simp⟩
  | wait => exact ⟨hw, by simp⟩
  | retry => exact ⟨hw, by simp [Chore.Fits]⟩
  | resendNothing _ => exact ⟨hw, by simp⟩
  | @resend o' w _ =>
    refine ⟨⟨hw.peer, hw.keys, hw.queued, hw.flying, fun o e he => ?_⟩, ?_⟩
    · rw [View.list_setList] at he
      split at he
      · cases he
      · exact hw.outbound o e he
    · refine List.forall_mem_singleton.2 fun e he => ?_
      exact (hw.outbound o' e (List.mem_filter.1 he).1).1
  | merge => exact ⟨⟨hw.peer, hw.keys, hw.queued, hw.flying, hw.outbound⟩, by simp⟩

/-- Applying entries takes those that it moves out into custody. -/
theorem View.custody_apply {path : Key} {o' : Operation} (hw : w.Fits p keys)
    (hpath : path = p.path) (hes : ∀ e ∈ es, Bulk.Line.isEncodable e = true) :
    (w.apply path o' es).custody o =
      (if o' = .update then ofOperation o .insert (movedOut keys path es) else 0) +
        w.custody o := by
  subst hpath
  cases o' with
  | insert => exact (View.custody_append_inbound).trans (zero_add _).symm
  | delete => exact (View.custody_setRows _).trans (zero_add _).symm
  | update =>
    simp only [View.apply, View.moved_eq, hw.keys, if_true]
    split
    · rename_i hnil
      rw [hnil, ofOperation_nil, zero_add]
      rfl
    · rw [View.custody_queue, View.custody_setRows, peer_setRows, hw.peer]
      simp only [Origin.via]
      rw [duty_here_of_passing (passing_movedOut hes)]

/-- Every chore keeps the books balanced. -/
theorem View.Does.balance {c : Chore} {w w' : View} (hd : w.Does c cs' w')
    (hw : w.Fits p keys) (hc : c.Fits p) (o : Operation) :
    loadOf p keys o cs' + w'.custody o = c.load p keys o + w.custody o := by
  cases hd with
  | nothing hhere hnil =>
    rw [load_serve_here hhere, hnil, duty_here_of_passing (by simp), ofOperation_nil, loadOf_nil]
  | root hhere hs =>
    rw [hw.peer] at hs
    rw [load_serve_here hhere, duty, hs, loadOf_cons, loadOf_nil, add_zero]
    rfl
  | split hhere hs hperm hrest =>
    rw [hw.peer] at hs hperm
    rw [Errand.kept_eq hc] at hperm
    rw [load_serve_here hhere, duty, if_pos hs, loadOf_append, loadOf_sends,
      ofOperation_perm hperm]
    rcases hrest with rfl | rfl <;> simp [Chore.load]
  | splitOther hother hperm hrest =>
    -- what is sent on is the foreign part on both sides; what may differ is the owned part
    rw [hw.peer, Errand.kept_eq hc] at hperm hrest
    rw [loadOf_append, loadOf_sends, ofOperation_perm hperm, Chore.load, hother]
    simp only [Origin.via, duty, Errand.moves, applied, hother]
    refine congrArg (· + _) (congrArg _ ?_)
    rcases hrest with ⟨rfl, hnil⟩ | rfl
    · rw [hnil]
      simp [movedOut, foreignTo]
    · rw [loadOf_cons, loadOf_nil, add_zero, Chore.load]
      split <;> simp
  | replica hother =>
    rw [loadOf_cons, loadOf_nil, add_zero, Chore.load, Chore.load, hother]
    simp only [Origin.via, duty, Errand.moves, applied, hother, ofOperation_nil, zero_add, hw.peer]
    split <;> simp
  | apply =>
    rw [View.custody_apply hw hc.1 hc.2, loadOf_cons, loadOf_nil]
    simp [Chore.load]
  | idle => rfl
  | wait => rfl
  | retry => rfl
  | resendNothing _ => rfl
  | @resend o' w _ =>
    have hencodable : ∀ e ∈ w.list (.outbound o'), Bulk.Line.isEncodable e = true :=
      fun e he => (hw.outbound o' e he).1
    rw [List.filter_eq_self.2 hencodable, loadOf_cons, loadOf_nil, add_zero,
      load_serve_here rfl, duty_here_of_passing (hw.outbound o'), View.custody_take_outbound]
    exact (zero_add _).symm
  | merge => exact congrArg _ View.custody_merge

end Books

/-! ### The books of a run -/

/-- The books balance: what came into custody is with a chore, in custody, or delivered. -/
structure Balanced (p : LocalPeer) (keys : KeyScheme) (cs : List Chore) (w : View)
    (log : List Note) : Prop where
  fits : w.Fits p keys
  chores : ∀ c ∈ cs, c.Fits p
  flying : w.flying = afloat log
  books : ∀ o, entered p keys o log = loadOf p keys o cs + w.custody o + deliveredOf o log

namespace Balanced

variable {p : LocalPeer} {keys : KeyScheme} {cs : List Chore} {w w' : View} {log : List Note}

theorem does {c : Chore} {cs' : List Chore} (hd : w.Does c cs' w')
    (h : Balanced p keys (c :: cs) w log) : Balanced p keys (cs' ++ cs) w' log := by
  obtain ⟨hc, hcs⟩ := List.forall_mem_cons.1 h.chores
  obtain ⟨hfits, hcs'⟩ := hd.fits h.fits hc
  refine ⟨hfits, List.forall_mem_append.2 ⟨hcs', hcs⟩, hd.flying_eq.trans h.flying, fun o => ?_⟩
  have hbalance := hd.balance h.fits hc o
  rw [h.books o, loadOf_cons, loadOf_append]
  calc c.load p keys o + loadOf p keys o cs + w.custody o + deliveredOf o log
      = (c.load p keys o + w.custody o) + loadOf p keys o cs + deliveredOf o log := by abel
    _ = loadOf p keys o cs' + loadOf p keys o cs + w'.custody o + deliveredOf o log := by
      rw [← hbalance]
      abel

theorem send {m : Carried} (h : Balanced p keys (.send m.operation m.entries :: cs) w log) :
    Balanced p keys cs (w.fly m) (log ++ [.sent m]) := by
  obtain ⟨hc, hcs⟩ := List.forall_mem_cons.1 h.chores
  refine ⟨⟨h.fits.peer, h.fits.keys, h.fits.queued, ?_, h.fits.outbound⟩, hcs, ?_, fun o => ?_⟩
  · exact Multiset.forall_mem_cons.2 ⟨hc, h.fits.flying⟩
  · rw [afloat_sent, ← h.flying]
    rfl
  · rw [entered_append, h.books o, loadOf_cons, View.custody_fly, deliveredOf_sent]
    change _ + 0 = _
    rw [Chore.load]
    abel

/-- A request that is submitted is entered in the books. -/
theorem submit {r : Submission} {es : List Entry} {message : MessageId}
    (hr : r.entries? = some es) (hes : ∀ e ∈ es, Bulk.Line.isEncodable e = true)
    (h : Balanced p keys cs w log) :
    Balanced p keys cs (w.queue ⟨r.operation, r.origin message, es, r.inFile⟩)
      (log ++ [.asked r]) := by
  have hsilent : ∀ note ∈ [Note.asked r], IsSilent note := by simp [IsSilent]
  refine ⟨⟨h.fits.peer, h.fits.keys, ?_, h.fits.flying, h.fits.outbound⟩, h.chores, ?_,
    fun o => ?_⟩
  · exact Multiset.forall_mem_cons.2 ⟨hes, h.fits.queued⟩
  · rw [afloat, outcomes_append_silent hsilent]
    exact h.flying
  · rw [entered_append, h.books o, View.custody_queue, Submission.via_origin, h.fits.peer,
      deliveredOf, deliveredOf, outcomes_append_silent hsilent]
    simp only [entered, List.map_singleton, List.sum_singleton, Note.entering, hr, Option.getD_some]
    abel

/-- A report settles the message that has its name. -/
theorem settle {m : Carried} {rest : Multiset Carried} {delivered : Bool}
    (hm : w.flying = m ::ₘ rest) (hrest : ∀ m' ∈ rest, ¬m'.IsNamed m.sender m.id)
    (h : Balanced p keys cs w log) :
    Balanced p keys cs (View.settle { w with flying := rest } m.operation m.entries delivered)
      (log ++ [.told m.sender m.id delivered]) := by
  -- the report is about this message alone, as names are used once
  have hnamed : (afloat log).filter (·.IsNamed m.sender m.id) = {m} := by
    rw [← h.flying, hm, Multiset.filter_cons_of_pos _ ⟨rfl, rfl⟩, Multiset.filter_eq_nil.2 hrest]
    rfl
  have hothers : (afloat log).filter (¬·.IsNamed m.sender m.id) = rest := by
    rw [← h.flying, hm, Multiset.filter_cons_of_neg _ (by simp [Carried.IsNamed]),
      Multiset.filter_eq_self.2 hrest]
  have hflying := h.fits.flying
  rw [hm, Multiset.forall_mem_cons] at hflying
  have hcustody : ∀ o, w.custody o = ofOperation o m.operation m.entries +
      ({ w with flying := rest } : View).custody o := fun o =>
    View.custody_fly (w := { w with flying := rest }) m ▸ by rw [View.fly, ← hm]
  have hentered : ∀ o, entered p keys o (log ++ [.told m.sender m.id delivered]) =
      entered p keys o log := fun o => (entered_append log _).trans (add_zero _)
  cases delivered with
  | true =>
    refine ⟨⟨h.fits.peer, h.fits.keys, h.fits.queued, hflying.2, h.fits.outbound⟩, h.chores,
      ?_, fun o => ?_⟩
    · rw [afloat_told, hothers]
      rfl
    · rw [hentered, h.books o, hcustody, deliveredOf_told, hnamed]
      simp only [View.settle, if_true, loads, Multiset.map_singleton, Multiset.sum_singleton]
      abel
  | false =>
    refine ⟨⟨h.fits.peer, h.fits.keys, h.fits.queued, hflying.2, fun o e he => ?_⟩, h.chores,
      ?_, fun o => ?_⟩
    · rw [View.settle, if_neg (by simp), View.append, View.list_setList] at he
      split at he
      · rcases List.mem_append.1 he with he | he
        · exact h.fits.outbound m.operation e he
        · exact hflying.1 e (List.mem_filter.1 he).1
      · exact h.fits.outbound o e he
    · rw [afloat_told, hothers]
      rfl
    · rw [hentered, h.books o, hcustody, deliveredOf_told]
      simp only [View.settle, Bool.false_eq_true, if_false, add_zero]
      rw [View.custody_append_outbound fun e he => (hflying.1 e he).1]

/-- A report on nothing that is in flight changes nothing. -/
theorem unknown {sender : Engine} {id : MessageId} {delivered : Bool}
    (hnone : ∀ m ∈ w.flying, ¬m.IsNamed sender id) (h : Balanced p keys cs w log) :
    Balanced p keys cs w (log ++ [.told sender id delivered]) := by
  rw [h.flying] at hnone
  refine ⟨h.fits, h.chores, ?_, fun o => ?_⟩
  · rw [afloat_told, Multiset.filter_eq_self.2 hnone, h.flying]
  · rw [entered_append, h.books o, deliveredOf_told, Multiset.filter_eq_nil.2 hnone]
    change _ + 0 = _
    simp

theorem take {c : Call} (hc : c.Encodable) (ht : w.Takes c w') (h : Balanced p keys cs w log) :
    Balanced p keys cs w' (log ++ c.notes) := by
  cases ht with
  | @submit r es message w hr =>
    obtain ⟨es', hr', hes⟩ := hc
    cases hr.symm.trans hr'
    exact h.submit hr hes
  | wait =>
    rw [Call.notes, List.append_nil]
    exact h
  | unknown hnone => exact h.unknown hnone
  | settle hm hrest => exact h.settle hm hrest

theorem keeps (p : LocalPeer) (keys : KeyScheme) : Keeps Call.Encodable (Balanced p keys) where
  encodable _ := id
  does _ _ _ _ _ _ hd h := h.does hd
  send _ _ _ _ h := h.send
  take _ _ _ _ _ hc ht h := h.take hc ht

/-- A cycle begins with the requests that wait. -/
theorem starts (p : LocalPeer) (keys : KeyScheme) : Starts (Balanced p keys) := by
  intro rs w log hrs h
  have hsilent : ∀ note ∈ rs.map Note.served, IsSilent note := by simp [IsSilent]
  -- what serving a request will move out is entered now, and is in the load of its chore
  have hload : ∀ o, loadOf p keys o (rs.map .serve) =
      w.waiting o + entered p keys o (rs.map .served) := by
    intro o
    rw [View.waiting, hrs, entered, loadOf, h.fits.peer, Multiset.map_coe, Multiset.sum_coe,
      List.map_map, List.map_map, ← List.sum_map_add]
    rfl
  refine ⟨⟨h.fits.peer, h.fits.keys, by simp, h.fits.flying, h.fits.outbound⟩, ?_, ?_,
    fun o => ?_⟩
  · refine List.forall_mem_append.2 ⟨fun c hc => ?_, by simp [Chore.Fits]⟩
    obtain ⟨r, hr, rfl⟩ := List.mem_map.1 hc
    refine h.fits.queued r ?_
    rw [hrs]
    exact hr
  · rw [afloat, outcomes_append_silent hsilent]
    exact h.flying
  · rw [entered_append, h.books o, loadOf_append, hload, deliveredOf, deliveredOf,
      outcomes_append_silent hsilent]
    simp only [loadOf_nil, loadOf_cons, Chore.load, View.custody, View.waiting,
      Multiset.map_zero, Multiset.sum_zero]
    abel

end Balanced

namespace Node

variable {ω : Type} {plan : Plan ω} {n : Node} {steps : List Step} {w : ω}

/-- **Custody is accounted for.**  In a run of calls and cycles that starts with an idle node, the
entries that came into custody are, for every operation and each as often as it came, those that
requests are to send on, those in flight, those in the outbound list, and those in messages whose
first report said that they were delivered.  In flight are the messages without a report. -/
theorem custody (hn : n.Sound []) (hidle : n.view.Idle) (hplan : plan.Encodable)
    (hsteps : ∀ t ∈ steps, t.Encodable) (hplain : ∀ t ∈ steps, t.IsPlain) (w : ω)
    (o : Operation) :
    let s := plan.run steps (n, [], w)
    entered n.peer n.keys o s.2.1 =
        s.1.view.waiting o + loads o s.1.view.flying +
          (s.1.view.list (.outbound o) : Multiset Entry) + deliveredOf o s.2.1 ∧
      s.1.view.flying = afloat s.2.1 := by
  -- in an idle node nothing is in custody, and nothing came into it yet
  have hstart : Balanced n.peer n.keys [] n.view [] := by
    refine ⟨⟨rfl, rfl, by simp [hidle.queued], by simp [hidle.flying], by simp [hidle.list]⟩,
      by simp, hidle.flying, fun o => ?_⟩
    rw [View.custody, View.waiting, hidle.queued, hidle.flying, hidle.list]
    rfl
  have hmeets : Meets (Keeps.beside (Balanced n.peer n.keys)) [] (n, [], w) := ⟨hn, hstart⟩
  have hrun := (Balanced.keeps n.peer n.keys).run (Balanced.starts n.peer n.keys) hplan hmeets
    hsteps hplain
  have hbooks := hrun.holds.books o
  rw [List.map_nil, loadOf_nil, zero_add] at hbooks
  exact ⟨hbooks, hrun.holds.flying⟩

/-- An entry that comes by an update is sent on twice, since the first message is lost. -/
theorem custody_of_lost_message :
    let lose : Plan Unit := fun d _ w => ([.report d.sender d.message.header.id false], w)
    let update : Submission :=
      ⟨.update, ⟨some [Sample.entry "a" ⟨[true]⟩, Sample.entry "b" ⟨[false]⟩], none, none⟩, false,
        some (⟨"parent"⟩, false)⟩
    ∃ n, Node.openAt (Sample.peer ⟨[false]⟩) (.ofBits 8) 0 .root .empty = .ok n ∧
      let s := lose.run [.call (.submit update), .cycle, .cycle] (n, [], ())
      entered n.peer n.keys .update s.2.1 =
          s.1.view.waiting .update + loads .update s.1.view.flying +
            (s.1.view.list (.outbound .update) : Multiset Entry) + deliveredOf .update s.2.1 ∧
        s.1.view.flying = afloat s.2.1 := by
  intro lose update
  obtain ⟨n, hopen, hsound, hidle, -⟩ := openAt_sound rfl Volume.vacant_empty
    (Sample.peer ⟨[false]⟩) (.ofBits 8) 0
  have hplan : lose.Encodable := fun d n w c hc => by
    rw [List.mem_singleton.1 hc]
    trivial
  have hupdate : update.Encodable := ⟨_, rfl, by decide⟩
  refine ⟨n, hopen, custody hsound hidle hplan ?_ ?_ () .update⟩
  · simpa [Step.Encodable, Step.Makes, Call.Encodable] using hupdate
  · simp [Step.IsPlain]

end Node

end TrieOverlay
