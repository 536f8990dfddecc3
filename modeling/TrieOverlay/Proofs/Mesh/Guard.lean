import TrieOverlay.Proofs.Node.Delivery
import TrieOverlay.Proofs.Store

/-!
# How a node guards an entry

A node *guards* an identifier under a key (`View.Guards`) if it has an entry to insert from which it
will not part before another node, or its own store, has it: in a request that it will pass on or
apply, in a message that nobody took yet, in the outbound list, or among what is stored here for
good.  Whatever a node does keeps it guarded (`View.Guards.does`), as long as nothing else is
applied to the identifier.
-/

namespace TrieOverlay

/-- Whether a change gives an identifier a key, if it changes the identifier at all. -/
def Operation.Agrees (keys : KeyScheme) (id : EntryId) (key : Key) (es : List Entry) :
    Operation → Prop
  | .insert => ∀ e ∈ es, e.id = id → e.key = key
  | .update => ∀ e ∈ es, e.id = id → (Holdings.rekey keys e).key = key
  | .delete => ∀ e ∈ es, e.id ≠ id

instance (keys : KeyScheme) (id : EntryId) (key : Key) (es : List Entry) :
    (o : Operation) → Decidable (o.Agrees keys id key es)
  | .insert => inferInstanceAs (Decidable (∀ e ∈ es, e.id = id → e.key = key))
  | .update => inferInstanceAs (Decidable (∀ e ∈ es, e.id = id → (Holdings.rekey keys e).key = key))
  | .delete => inferInstanceAs (Decidable (∀ e ∈ es, e.id ≠ id))

namespace Chore

/-- The change that a chore makes here. -/
def change? : Chore → Option (Operation × List Entry)
  | apply o _ es => some (o, es)
  | serve _ | send _ _ | idle | retry | resend _ | merge => none

/-- Whether what a chore applies is applied for a peer at a path. -/
def IsFor (path : Key) : Chore → Prop
  | apply _ p _ => p = path
  | serve _ | send _ _ | idle | retry | resend _ | merge => True

end Chore

namespace View

/-- Whether a peer passes a key on when it serves a request of its own. -/
def PassesOn (w : View) (key : Key) : Prop :=
  w.peer.isSuperPeer = true → w.peer.path.owns key = false

/-- Whether an identifier is under a key here once the delivered entries are merged. -/
def Stores (w : View) (id : EntryId) (key : Key) : Prop :=
  ((w.list .inbound).foldl .upsert w.rows).keyAt? id = some key

/-- Whether a request brings an identifier under a key to where it belongs. -/
structure Brings (w : View) (id : EntryId) (key : Key) (r : Errand) : Prop where
  operation : r.operation = .insert
  bears : Bears r.entries id key
  origin : (r.origin = .here ∧ w.PassesOn key) ∨
    ∃ message parent, r.origin = .peer message parent false

/-- A node guards an identifier under a key, when `taken` are the messages that somebody took. -/
inductive Guards (id : EntryId) (key : Key) (taken : Carried → Prop) (cs : List Chore) (w : View) :
    Prop
  /-- In a request that waits. -/
  | queued {r : Errand} : r ∈ w.queued → w.Brings id key r → Guards id key taken cs w
  /-- In a request that is about to be served. -/
  | serving {r : Errand} : .serve r ∈ cs → w.Brings id key r → Guards id key taken cs w
  /-- In a part of a request that is about to be sent. -/
  | sending {es : List Entry} : .send .insert es ∈ cs → Bears es id key → w.PassesOn key →
      Guards id key taken cs w
  /-- In a part of a request that is about to be applied. -/
  | applying {es : List Entry} : .apply .insert w.peer.path es ∈ cs → Bears es id key →
      w.peer.path.owns key = true → Guards id key taken cs w
  /-- In a message in flight. -/
  | flying {m : Carried} : m ∈ w.flying → m.operation = .insert → Bears m.entries id key →
      ¬taken m → w.PassesOn key → Guards id key taken cs w
  /-- In the outbound list. -/
  | outbound : Bears (w.list (.outbound .insert)) id key → w.PassesOn key →
      Guards id key taken cs w
  /-- At the node where it belongs. -/
  | stored : w.Stores id key → w.peer.path.owns key = true → Guards id key taken cs w

variable {id : EntryId} {key : Key} {taken : Carried → Prop} {c : Chore} {cs cs' : List Chore}
  {w w' : View} {r : Errand} {es : List Entry}

/-! ### The store -/

theorem Stores.append (h : w.Stores id key ∨ Bears es id key)
    (hagrees : ∀ e ∈ es, e.id = id → e.key = key) : (w.append .inbound es).Stores id key := by
  rw [Stores, View.append, list_setList, if_pos rfl, List.foldl_append]
  refine Store.Rows.keyAt?_foldl_upsert (fun e he => hagrees e (List.mem_filter.1 he).1) ?_
  rcases h with h | h
  · exact Or.inl h
  · obtain ⟨e, he, hid, -⟩ := h.filter_isEncodable
    exact Or.inr ⟨e, he, hid⟩

theorem Stores.setRows {rows : Store.Rows} (h : w.Stores id key)
    (hrows : w.rows.keyAt? id = some key → rows.keyAt? id = some key) :
    (w.setRows rows).Stores id key :=
  Store.Rows.keyAt?_foldl_upsert_congr hrows h

theorem Stores.merge (h : w.Stores id key) : w.merge.Stores id key := by
  have hlist : w.merge.list .inbound = [] := by
    change (w.setList .inbound []).list .inbound = []
    rw [list_setList, if_pos rfl]
  rw [Stores, hlist]
  exact h

/-- Entries that an update moves away do not have an identifier that it gives an owned key. -/
theorem not_mem_leaving {path : Key} (ho : path.owns key = true)
    (hagrees : ∀ e ∈ es, e.id = id → (Holdings.rekey w.keys e).key = key) :
    id ∉ (w.leaving path es).map (·.id) := by
  intro hmem
  obtain ⟨e, he, hid⟩ := List.mem_map.1 hmem
  obtain ⟨he, hleaves⟩ := List.mem_filter.1 he
  rw [hagrees e he hid, ho] at hleaves
  exact absurd hleaves (by decide)

theorem Stores.apply {path : Key} {o : Operation} (h : w.Stores id key)
    (ho : path.owns key = true) (hagrees : o.Agrees w.keys id key es) :
    (w.apply path o es).Stores id key := by
  cases o with
  | insert => exact Stores.append (Or.inl h) hagrees
  | update =>
    have hrows : w.rows.keyAt? id = some key →
        (((w.staying path es).foldl .upsert w.rows).deleteAll
          ((w.leaving path es).map (·.id))).2.keyAt? id = some key := by
      intro hkey
      rw [Store.Rows.keyAt?_deleteAll, if_neg (not_mem_leaving ho hagrees)]
      refine Store.Rows.keyAt?_foldl_upsert (fun e he hid => ?_) (Or.inl hkey)
      obtain ⟨e', he', rfl⟩ := List.mem_map.1 he
      exact hagrees e' (List.mem_filter.1 he').1 hid
    have hstores := h.setRows hrows
    simp only [View.apply]
    split <;> exact hstores
  | delete =>
    refine h.setRows fun hkey => ?_
    rw [Store.Rows.keyAt?_deleteAll, if_neg]
    · exact hkey
    · intro hmem
      obtain ⟨e, he, hid⟩ := List.mem_map.1 hmem
      exact hagrees e he hid

/-- No chore takes an identifier from where it is stored for good. -/
theorem Stores.does (h : w.Stores id key) (hd : w.Does c cs' w')
    (ho : w.peer.path.owns key = true)
    (ha : ∀ o es, c.change? = some (o, es) → o.Agrees w.keys id key es)
    (hp : c.IsFor w.peer.path) : w'.Stores id key := by
  cases hd with
  | @apply o path es w =>
    obtain rfl : path = w.peer.path := hp
    exact h.apply ho (ha o es rfl)
  | merge => exact h.merge
  | @resend o w hne =>
    rw [Stores, list_setList, if_neg (by simp)]
    exact h
  | _ => exact h

/-! ### Chores -/

theorem PassesOn.congr (h : w.PassesOn key) (hp : w'.peer = w.peer) : w'.PassesOn key := by
  rw [PassesOn, hp]
  exact h

theorem Brings.congr (h : w.Brings id key r) (hp : w'.peer = w.peer) : w'.Brings id key r :=
  ⟨h.operation, h.bears, h.origin.imp_left fun ho => ⟨ho.1, ho.2.congr hp⟩⟩

/-- An entry stays guarded unless a message that bears it is taken. -/
theorem Guards.of_taken (h : w.Guards id key taken cs) (taken' : Carried → Prop) :
    w.Guards id key taken' cs ∨ ∃ m ∈ w.flying, m.operation = .insert ∧ Bears m.entries id key ∧
      ¬taken m ∧ taken' m := by
  cases h with
  | queued hr hb => exact Or.inl (.queued hr hb)
  | serving hr hb => exact Or.inl (.serving hr hb)
  | sending hes hb hpasses => exact Or.inl (.sending hes hb hpasses)
  | applying hes hb ho => exact Or.inl (.applying hes hb ho)
  | @flying m hm ho hb htaken hpasses =>
    by_cases htaken' : taken' m
    · exact Or.inr ⟨m, hm, ho, hb, htaken, htaken'⟩
    · exact Or.inl (.flying hm ho hb htaken' hpasses)
  | outbound hb hpasses => exact Or.inl (.outbound hb hpasses)
  | stored hstores ho => exact Or.inl (.stored hstores ho)

/-- The outbound list of an operation goes away only when it becomes a request. -/
theorem Does.outbound (hd : w.Does c cs' w') (o : Operation) :
    w'.list (.outbound o) = w.list (.outbound o) ∨
      cs' = [.serve
        ⟨o, .here, (w.list (.outbound o)).filter fun e => Bulk.Line.isEncodable e, true⟩] := by
  cases hd with
  | apply => exact Or.inl (list_outbound_apply ..)
  | merge => exact Or.inl ((list_setList w .inbound (.outbound o) []).trans (if_neg (by simp)))
  | @resend o' w hne =>
    by_cases ho : o = o'
    · subst ho
      exact Or.inr rfl
    · refine Or.inl ((list_setList ..).trans (if_neg fun hc => ho ?_))
      exact Buffer.outbound.inj hc
  | _ => exact Or.inl rfl

/-- Entries that lie elsewhere are in one of the parts that are sent there. -/
theorem exists_send {parts : List (List Entry)} {path : Key} (hr : r.operation = .insert)
    (hb : Bears r.entries id key) (hparts : parts.flatten.Perm (foreignTo path r.kept))
    (ho : path.owns key = false) :
    ∃ es, .send .insert es ∈ parts.map (Chore.send r.operation) ∧ Bears es id key := by
  obtain ⟨e, he, hid, rfl, hencodable⟩ := hb
  have hmem : e ∈ parts.flatten :=
    hparts.mem_iff.2 (mem_foreignTo.2 ⟨Errand.mem_kept hencodable he, ho⟩)
  obtain ⟨es, hes, he⟩ := List.mem_flatten.1 hmem
  exact ⟨es, hr ▸ List.mem_map_of_mem hes, e, he, hid, rfl, hencodable⟩

/-- Serving a request that brings an identifier leaves the node with parts of the request that
do. -/
theorem Brings.does (h : w.Brings id key r) (hd : w.Does (.serve r) cs' w') :
    w'.Guards id key taken (cs' ++ cs) := by
  cases hd with
  | nothing _ hnil =>
    obtain ⟨e, he, -⟩ := h.bears
    rw [hnil] at he
    exact absurd he List.not_mem_nil
  | root hhere hs =>
    rw [h.operation]
    exact .sending (List.mem_append_left _ (List.mem_singleton_self _)) h.bears
      fun hc => absurd (hs.symm.trans hc) (by decide)
  | @split r w parts rest hhere hs hparts hrest =>
    -- the owned part counts as stored already and is not applied, so the entry must not be in it
    have hpasses : w.PassesOn key := by
      rcases h.origin with ho | ⟨message, parent, ho⟩
      · exact ho.2
      · exact absurd (hhere.symm.trans ho) (by simp)
    obtain ⟨es, hes, hb⟩ := exists_send h.operation h.bears hparts (hpasses hs)
    exact .sending (List.mem_append_left _ (List.mem_append_left _ hes)) hb hpasses
  | @splitOther r w message parent parts rest hother hparts hrest =>
    cases ho : w.peer.path.owns key with
    | false =>
      obtain ⟨es, hes, hb⟩ := exists_send h.operation h.bears hparts ho
      exact .sending (List.mem_append_left _ (List.mem_append_left _ hes)) hb fun _ => ho
    | true =>
      obtain ⟨e, he, hid, rfl, hencodable⟩ := h.bears
      have hmem : e ∈ ownedBy w.peer.path r.kept :=
        mem_ownedBy.2 ⟨Errand.mem_kept hencodable he, ho⟩
      rcases hrest with ⟨-, hnil⟩ | rfl
      · rw [hnil] at hmem
        exact absurd hmem List.not_mem_nil
      · rw [h.operation]
        refine .applying (List.mem_append_left _ (List.mem_append_right _
          (List.mem_singleton_self _))) ⟨e, hmem, hid, rfl, hencodable⟩ ho
  | replica hreplica =>
    rcases h.origin with ho | ⟨message, parent, ho⟩
    · exact absurd (hreplica.symm.trans ho.1) (by simp)
    · exact absurd (Origin.peer.inj (hreplica.symm.trans ho)).2.2 (by decide)

/-- **Whatever a node does keeps an entry guarded.** -/
theorem Guards.does (h : w.Guards id key taken (c :: cs)) (hd : w.Does c cs' w')
    (ha : ∀ o es, c.change? = some (o, es) → o.Agrees w.keys id key es)
    (hp : c.IsFor w.peer.path) :
    w'.Guards id key taken (cs' ++ cs) := by
  cases h with
  | queued hr hb => exact .queued (hd.queued_subset hr) (hb.congr hd.peer_eq)
  | @serving r hr hb =>
    rcases List.mem_cons.1 hr with rfl | hr
    · exact hb.does hd
    · exact .serving (List.mem_append_right _ hr) (hb.congr hd.peer_eq)
  | @sending es hes hb hpasses =>
    rcases List.mem_cons.1 hes with rfl | hes
    -- a part takes off as a message, which is not a chore that is done here
    · cases hd
    · exact .sending (List.mem_append_right _ hes) hb (hpasses.congr hd.peer_eq)
  | @applying es hes hb ho =>
    rcases List.mem_cons.1 hes with rfl | hes
    · cases hd
      exact .stored (Stores.append (Or.inr hb) (ha .insert es rfl)) ho
    · rw [← hd.peer_eq] at hes ho
      exact .applying (List.mem_append_right _ hes) hb ho
  | flying hm hop hb htaken hpasses =>
    rw [← hd.flying_eq] at hm
    exact .flying hm hop hb htaken (hpasses.congr hd.peer_eq)
  | outbound hb hpasses =>
    rcases hd.outbound .insert with hlist | rfl
    · rw [← hlist] at hb
      exact .outbound hb (hpasses.congr hd.peer_eq)
    · exact .serving (List.mem_append_left _ (List.mem_singleton_self _))
        ⟨rfl, hb.filter_isEncodable, Or.inl ⟨rfl, hpasses.congr hd.peer_eq⟩⟩
  | stored hstores ho =>
    exact .stored (hstores.does hd ho ha hp) (by rw [hd.peer_eq]; exact ho)

end View

end TrieOverlay
