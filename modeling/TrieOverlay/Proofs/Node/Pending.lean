import TrieOverlay.Proofs.Node.Opening
import TrieOverlay.Proofs.Node.Runs
import TrieOverlay.Proofs.Store

/-!
# Entries to insert that wait while the path changes

An entry to insert is *pending* at a node in a request raised there, or in the outbound list.  It
waits to be sent on.  A super peer sends on what its path does not own and takes what its path owns
as stored already; when the path has changed meanwhile, that may be wrong.

`Node.pending_vanishes_iff` says exactly when an entry that is nowhere but pending gets lost: when a
cycle takes it from its place while the path owns its key.  In every other step it stays pending or
travels in a message that is tracked.
-/

namespace TrieOverlay

/-- An entry is to be inserted by a request raised here. -/
def Errand.Inserts (e : Entry) (r : Errand) : Prop :=
  r.operation = .insert ∧ r.origin = .here ∧ e ∈ r.entries

/-- An entry to insert waits to be sent on. -/
def View.Pending (e : Entry) (w : View) : Prop :=
  (∃ r ∈ w.queued, r.Inserts e) ∨ e ∈ w.list (.outbound .insert)

/-- An entry is pending, and its identifier is neither stored nor on the way to be. -/
structure View.OnlyPending (e : Entry) (w : View) : Prop where
  pending : w.Pending e
  queued : ∀ r ∈ w.queued, r.origin = .here ∨ ∀ x ∈ r.entries, x.id ≠ e.id
  flying : ∀ m ∈ w.flying, ∀ x ∈ m.entries, x.id ≠ e.id
  inbound : ∀ x ∈ w.list .inbound, x.id ≠ e.id
  rows : w.rows.keyAt? e.id = none

/-- An entry travelled in a message that is to insert it. -/
def Tracked (e : Entry) (log : List Note) : Prop :=
  ∃ m, .sent m ∈ log ∧ m.operation = .insert ∧ e ∈ m.entries

/-- An entry is not pending, was not sent, and is not held here. -/
structure Vanished (e : Entry) (w : View) (log : List Note) : Prop where
  pending : ¬w.Pending e
  tracked : ¬Tracked e log
  inbound : ∀ x ∈ w.list .inbound, x.id ≠ e.id
  rows : w.rows.keyAt? e.id = none

/-- Whether a call submits an entry with an identifier. -/
def Call.Names (id : EntryId) : Call → Prop
  | submit r => ∃ es, r.entries? = some es ∧ ∃ x ∈ es, x.id = id
  | report _ _ _ | wait _ => False

variable {e : Entry} {path : Key} {c : Chore} {cs cs' : List Chore} {w w' : View}
  {log : List Note}

/-! ### What is not owned stays pending or is sent -/

/-- A chore is about to send an entry to insert. -/
def Chore.Carries (e : Entry) : Chore → Prop
  | .serve r => r.Inserts e
  | .send o es => o = .insert ∧ e ∈ es
  | .apply _ _ _ | .idle | .retry | .resend _ | .merge => False

/-- An entry that the path does not own is on its way. -/
structure Kept (e : Entry) (path : Key) (cs : List Chore) (w : View) (log : List Note) :
    Prop where
  isSuperPeer : w.peer.isSuperPeer = true
  path_eq : w.peer.path = path
  kept : (∃ c ∈ cs, c.Carries e) ∨ w.Pending e ∨ Tracked e log

theorem View.Pending.mono (h : w.Pending e) (hqueued : w.queued ⊆ w'.queued)
    (hlist : w.list (.outbound .insert) ⊆ w'.list (.outbound .insert)) : w'.Pending e := by
  rcases h with ⟨r, hr, hi⟩ | he
  · exact Or.inl ⟨r, hqueued hr, hi⟩
  · exact Or.inr (hlist he)

theorem Tracked.append (h : Tracked e log) (log' : List Note) : Tracked e (log ++ log') := by
  obtain ⟨m, hm, ho, he⟩ := h
  exact ⟨m, List.mem_append_left _ hm, ho, he⟩

/-- A chore that carries the entry hands it on. -/
theorem View.Does.carries (hd : w.Does c cs' w') (he : Bulk.Line.isEncodable e = true)
    (howns : w.peer.path.owns e.key = false) (hs : w.peer.isSuperPeer = true)
    (hc : c.Carries e) : ∃ c ∈ cs', c.Carries e := by
  cases hd with
  | nothing _ hnil =>
    obtain ⟨-, -, hmem⟩ := hc
    rw [hnil] at hmem
    cases hmem
  | root _ hnot => exact absurd hs (by simp [hnot])
  | split _ _ hperm _ =>
    -- the path does not own the entry, so it is in one of the parts that are sent
    obtain ⟨ho, -, hmem⟩ := hc
    have hforeign := mem_foreignTo.2 ⟨Errand.mem_kept he hmem, howns⟩
    obtain ⟨part, hpart, hin⟩ := List.mem_flatten.1 (hperm.mem_iff.2 hforeign)
    exact ⟨_, List.mem_append_left _ (List.mem_map_of_mem hpart), ho, hin⟩
  | splitOther hother _ _ => exact absurd (hother.symm.trans hc.2.1) (by simp)
  | replica hother => exact absurd (hother.symm.trans hc.2.1) (by simp)
  | apply => exact hc.elim
  | idle => exact hc.elim
  | wait => exact hc.elim
  | retry => exact hc.elim
  | resendNothing _ => exact hc.elim
  | resend _ => exact hc.elim
  | merge => exact hc.elim

/-- A chore leaves a pending entry pending, or takes it up. -/
theorem View.Does.pending (hd : w.Does c cs' w') (he : Bulk.Line.isEncodable e = true)
    (h : w.Pending e) : (∃ c ∈ cs', c.Carries e) ∨ w'.Pending e := by
  have hqueued := hd.queued_subset
  cases hd with
  | @apply o path es w =>
    refine Or.inr (h.mono hqueued ?_)
    rw [View.list_outbound_apply]
    exact List.Subset.refl _
  | @resend o w _ =>
    rcases h with hqueued | hmem
    · exact Or.inr (Or.inl hqueued)
    · by_cases ho : o = .insert
      · subst ho
        exact Or.inl ⟨_, List.mem_singleton_self _, rfl, rfl, List.mem_filter.2 ⟨hmem, he⟩⟩
      · right
        right
        rw [View.list_setList, if_neg fun hb => ho (Buffer.outbound.inj hb).symm]
        exact hmem
  | merge => exact Or.inr h
  | _ => exact Or.inr h

/-- A call leaves a pending entry pending. -/
theorem View.Takes.pending {c : Call} (ht : w.Takes c w') (h : w.Pending e) : w'.Pending e := by
  cases ht with
  | submit _ => exact h.mono (Multiset.subset_cons _ _) (List.Subset.refl _)
  | wait => exact h
  | unknown _ => exact h
  | @settle m rest delivered w hm _ =>
    cases delivered with
    | true => exact h
    | false =>
      refine h.mono (Multiset.Subset.refl _) fun x hx => ?_
      rw [View.settle, if_neg (by simp), View.append, View.list_setList]
      split
      · rename_i hb
        exact List.mem_append_left _ (hb ▸ hx)
      · exact hx

theorem Kept.keeps (he : Bulk.Line.isEncodable e = true) (howns : path.owns e.key = false) :
    Keeps Call.Encodable (Kept e path) where
  encodable _ := id
  does c cs cs' v v' log hd h := by
    refine ⟨hd.peer_eq ▸ h.isSuperPeer, hd.peer_eq ▸ h.path_eq, ?_⟩
    rcases h.kept with ⟨c₀, hc₀, hcarries⟩ | hpending | htracked
    · rcases List.mem_cons.1 hc₀ with rfl | hc₀
      · obtain ⟨c, hc, hcarries⟩ := hd.carries he (h.path_eq ▸ howns) h.isSuperPeer hcarries
        exact Or.inl ⟨c, List.mem_append_left _ hc, hcarries⟩
      · exact Or.inl ⟨c₀, List.mem_append_right _ hc₀, hcarries⟩
    · rcases hd.pending he hpending with ⟨c, hc, hcarries⟩ | hpending
      · exact Or.inl ⟨c, List.mem_append_left _ hc, hcarries⟩
      · exact Or.inr (Or.inl hpending)
    · exact Or.inr (Or.inr htracked)
  send m cs v log h := by
    refine ⟨h.isSuperPeer, h.path_eq, ?_⟩
    rcases h.kept with ⟨c₀, hc₀, hcarries⟩ | hpending | htracked
    · rcases List.mem_cons.1 hc₀ with rfl | hc₀
      · exact Or.inr (Or.inr ⟨m, List.mem_append_right _ (List.mem_singleton_self _), hcarries⟩)
      · exact Or.inl ⟨c₀, hc₀, hcarries⟩
    · exact Or.inr (Or.inl hpending)
    · exact Or.inr (Or.inr (htracked.append _))
  take c cs v v' log _ ht h := by
    refine ⟨ht.peer_eq ▸ h.isSuperPeer, ht.peer_eq ▸ h.path_eq, ?_⟩
    rcases h.kept with hchore | hpending | htracked
    · exact Or.inl hchore
    · exact Or.inr (Or.inl (ht.pending hpending))
    · exact Or.inr (Or.inr (htracked.append _))

theorem Kept.starts (e : Entry) (path : Key) : Starts (Kept e path) := by
  intro rs v log hrs h
  refine ⟨h.isSuperPeer, h.path_eq, ?_⟩
  rcases h.kept with ⟨c₀, hc₀, -⟩ | (⟨r, hr, hi⟩ | hout) | htracked
  · cases hc₀
  · rw [hrs] at hr
    exact Or.inl ⟨.serve r, List.mem_append_left _ (List.mem_map_of_mem hr), hi⟩
  · exact Or.inr (Or.inl (Or.inr hout))
  · exact Or.inr (Or.inr (htracked.append _))

/-! ### What is owned is not sent -/

/-- A chore does not send an entry to insert, and does not apply its identifier. -/
def Chore.Spares (e : Entry) : Chore → Prop
  | .serve r => r.origin = .here ∨ ∀ x ∈ r.entries, x.id ≠ e.id
  | .send o es => o = .insert → e ∉ es
  | .apply _ _ es => ∀ x ∈ es, x.id ≠ e.id
  | .idle | .retry | .resend _ | .merge => True

/-- An entry that the path owns is nowhere but in requests that are being served, or in the outbound
list. -/
structure Spared (e : Entry) (path : Key) (cs : List Chore) (w : View) (log : List Note) :
    Prop where
  isSuperPeer : w.peer.isSuperPeer = true
  path_eq : w.peer.path = path
  chores : ∀ c ∈ cs, c.Spares e
  queued : ∀ r ∈ w.queued, ∀ x ∈ r.entries, x.id ≠ e.id
  flying : ∀ m ∈ w.flying, m.operation = .insert → e ∉ m.entries
  tracked : ¬Tracked e log
  inbound : ∀ x ∈ w.list .inbound, x.id ≠ e.id
  rows : w.rows.keyAt? e.id = none

theorem spares_sends {o : Operation} {parts : List (List Entry)} {es : List Entry}
    (hperm : parts.flatten.Perm es) (hes : o = .insert → e ∉ es) :
    ∀ c ∈ parts.map (Chore.send o), c.Spares e := by
  intro c hc
  obtain ⟨part, hpart, rfl⟩ := List.mem_map.1 hc
  exact fun ho he => hes ho (hperm.mem_iff.1 (List.mem_flatten.2 ⟨part, hpart, he⟩))

/-- What comes of a chore that spares the entry spares it too. -/
theorem View.Does.spares (hd : w.Does c cs' w') (howns : w.peer.path.owns e.key = true)
    (hs : w.peer.isSuperPeer = true) (hc : c.Spares e) : ∀ c ∈ cs', c.Spares e := by
  cases hd with
  | nothing _ _ => simp
  | root _ hnot => exact absurd hs (by simp [hnot])
  | split _ _ hperm hrest =>
    -- the path owns the entry, so it is in none of the parts that are sent
    refine List.forall_mem_append.2 ⟨spares_sends hperm fun _ he => ?_, ?_⟩
    · rw [mem_foreignTo, howns] at he
      exact Bool.noConfusion he.2
    · rcases hrest with rfl | rfl <;> simp [Chore.Spares]
  | splitOther hother hperm hrest =>
    have hids := hc.resolve_left fun hhere => absurd (hother.symm.trans hhere) (by simp)
    refine List.forall_mem_append.2 ⟨spares_sends hperm fun _ he => ?_, ?_⟩
    · exact hids e (Errand.kept_subset _ (mem_foreignTo.1 he).1) rfl
    · rcases hrest with ⟨rfl, -⟩ | rfl
      · simp
      · refine List.forall_mem_singleton.2 fun x hx => ?_
        exact hids x (Errand.kept_subset _ (mem_ownedBy.1 hx).1)
  | replica hother =>
    have hids := hc.resolve_left fun hhere => absurd (hother.symm.trans hhere) (by simp)
    exact List.forall_mem_singleton.2 hids
  | apply => simp [Chore.Spares]
  | idle => simp
  | wait => simp
  | retry => simp [Chore.Spares]
  | resendNothing _ => simp
  | resend _ => exact List.forall_mem_singleton.2 (Or.inl rfl)
  | merge => simp

/-- Applying other identifiers keeps the entry away. -/
theorem View.Does.spared (hd : w.Does c cs' w') (hc : c.Spares e)
    (h : Spared e path (c :: cs) w log) :
    (∀ r ∈ w'.queued, ∀ x ∈ r.entries, x.id ≠ e.id) ∧
      (∀ m ∈ w'.flying, m.operation = .insert → e ∉ m.entries) ∧
      (∀ x ∈ w'.list .inbound, x.id ≠ e.id) ∧ w'.rows.keyAt? e.id = none := by
  cases hd with
  | @apply o path' es w =>
    cases o with
    | insert =>
      refine ⟨h.queued, h.flying, fun x hx => ?_, h.rows⟩
      rcases List.mem_append.1 hx with hx | hx
      · exact h.inbound x hx
      · exact hc x (List.mem_filter.1 hx).1
    | delete =>
      refine ⟨h.queued, h.flying, h.inbound, ?_⟩
      change (w.rows.deleteAll _).2.keyAt? e.id = none
      rw [Store.Rows.keyAt?_deleteAll, h.rows, ite_self]
    | update =>
      have hstaying : ∀ x ∈ w.staying path' es, x.id ≠ e.id := by
        intro x hx
        obtain ⟨x', hx', rfl⟩ := List.mem_map.1 hx
        exact hc x' (List.mem_filter.1 hx').1
      have hmoved : ∀ x ∈ w.moved path' es, x.id ≠ e.id := by
        intro x hx
        obtain ⟨x', hx', rfl⟩ := List.mem_map.1 hx
        exact hc x' (List.mem_filter.1 hx').1
      have hrows : (((w.staying path' es).foldl .upsert w.rows).deleteAll
          ((w.leaving path' es).map (·.id))).2.keyAt? e.id = none := by
        rw [Store.Rows.keyAt?_deleteAll, Store.Rows.keyAt?_foldl_upsert_of_ne hstaying, h.rows,
          ite_self]
      simp only [View.apply]
      split
      · exact ⟨h.queued, h.flying, h.inbound, hrows⟩
      · exact ⟨Multiset.forall_mem_cons.2 ⟨hmoved, h.queued⟩, h.flying, h.inbound, hrows⟩
  | merge =>
    refine ⟨h.queued, h.flying, fun x hx => ?_, ?_⟩
    · cases hx
    · change ((w.list .inbound).foldl .upsert w.rows).keyAt? e.id = none
      rw [Store.Rows.keyAt?_foldl_upsert_of_ne h.inbound, h.rows]
  | _ => exact ⟨h.queued, h.flying, h.inbound, h.rows⟩

/-- Nothing is sent by a note of another kind. -/
theorem not_tracked_append {notes : List Note} (h : ¬Tracked e log)
    (hnotes : ∀ m, .sent m ∉ notes) : ¬Tracked e (log ++ notes) := by
  rintro ⟨m, hm, ho, he⟩
  rcases List.mem_append.1 hm with hm | hm
  · exact h ⟨m, hm, ho, he⟩
  · exact hnotes m hm

theorem Spared.settle {m : Carried} {rest : Multiset Carried} {delivered : Bool}
    (hm : w.flying = m ::ₘ rest) (h : Spared e path cs w log) :
    Spared e path cs (View.settle { w with flying := rest } m.operation m.entries delivered)
      (log ++ [.told m.sender m.id delivered]) := by
  have hflying := h.flying
  rw [hm, Multiset.forall_mem_cons] at hflying
  have htracked : ¬Tracked e (log ++ [.told m.sender m.id delivered]) :=
    not_tracked_append h.tracked (by simp)
  cases delivered with
  | true =>
    exact ⟨h.isSuperPeer, h.path_eq, h.chores, h.queued, hflying.2, htracked, h.inbound, h.rows⟩
  | false =>
    exact ⟨h.isSuperPeer, h.path_eq, h.chores, h.queued, hflying.2, htracked, h.inbound, h.rows⟩

theorem Spared.keeps (howns : path.owns e.key = true) :
    Keeps (fun c => c.Encodable ∧ ¬c.Names e.id) (Spared e path) where
  encodable _ h := h.1
  does c cs cs' v v' log hd h := by
    obtain ⟨hc, hcs⟩ := List.forall_mem_cons.1 h.chores
    have hcs' := hd.spares (h.path_eq ▸ howns) h.isSuperPeer hc
    obtain ⟨hqueued, hflying, hinbound, hrows⟩ := hd.spared hc h
    exact ⟨hd.peer_eq ▸ h.isSuperPeer, hd.peer_eq ▸ h.path_eq,
      List.forall_mem_append.2 ⟨hcs', hcs⟩, hqueued, hflying, h.tracked, hinbound, hrows⟩
  send m cs v log h := by
    obtain ⟨hc, hcs⟩ := List.forall_mem_cons.1 h.chores
    refine ⟨h.isSuperPeer, h.path_eq, hcs, h.queued, Multiset.forall_mem_cons.2 ⟨hc, h.flying⟩, ?_,
      h.inbound, h.rows⟩
    rintro ⟨m', hm', ho, he⟩
    rcases List.mem_append.1 hm' with hm' | hm'
    · exact h.tracked ⟨m', hm', ho, he⟩
    · cases List.mem_singleton.1 hm'
      exact hc ho he
  take c cs v v' log hc ht h := by
    cases ht with
    | @submit r es message w hr =>
      refine ⟨h.isSuperPeer, h.path_eq, h.chores, Multiset.forall_mem_cons.2 ⟨?_, h.queued⟩,
        h.flying, not_tracked_append h.tracked (by simp [Call.notes]), h.inbound, h.rows⟩
      exact fun x hx hid => hc.2 ⟨es, hr, x, hx, hid⟩
    | wait =>
      rw [Call.notes, List.append_nil]
      exact h
    | unknown _ =>
      exact ⟨h.isSuperPeer, h.path_eq, h.chores, h.queued, h.flying,
        not_tracked_append h.tracked (by simp [Call.notes]), h.inbound, h.rows⟩
    | settle hm _ => exact h.settle hm

namespace Node

variable {ω : Type} {plan : Plan ω} {n : Node} {s : Node × List Note × ω} {t : Step}

/-- A cycle leaves a pending entry that the path does not own pending, or sends it. -/
theorem kept_of_cycle (hn : n.Sound []) (hplan : plan.Encodable)
    (he : Bulk.Line.isEncodable e = true) (hs : n.peer.isSuperPeer = true)
    (howns : n.peer.path.owns e.key = false) (h : n.view.Pending e) (w : ω) :
    let s := plan.step (n, [], w) .cycle
    s.1.view.Pending e ∨ Tracked e s.2.1 := by
  have hmeets : Meets (Keeps.beside (Kept e n.peer.path)) [] (n, ([] : List Note), w) :=
    ⟨hn, hs, rfl, Or.inr (Or.inl h)⟩
  have hkept := (Kept.keeps he howns).step (Kept.starts e n.peer.path) hplan hmeets
    (t := .cycle) trivial trivial
  rcases hkept.holds.kept with ⟨c, hc, -⟩ | hkept
  · cases hc
  · exact hkept

/-- A cycle takes up a pending entry that the path owns, and nothing comes of it. -/
theorem spared_of_cycle (hn : n.Sound [])
    (hplan : plan.Makes fun c => c.Encodable ∧ ¬c.Names e.id) (hs : n.peer.isSuperPeer = true)
    (howns : n.peer.path.owns e.key = true) (h : n.view.OnlyPending e) (w : ω) :
    let s := plan.step (n, [], w) .cycle
    Spared e n.peer.path [] s.1.view s.2.1 := by
  have hstart : Spared e n.peer.path
      ((n.queues.inOrder.map n.errand).map .serve ++ [.retry, .merge])
      { n.view with queued := 0 } ([] ++ (n.queues.inOrder.map n.errand).map .served) := by
    refine ⟨hs, rfl, ?_, by simp, fun m hm _ he => h.flying m hm e he rfl,
      not_tracked_append (by simp [Tracked]) (by simp), h.inbound, h.rows⟩
    -- the requests that wait are chores now; serving one that was raised here applies nothing
    refine List.forall_mem_append.2 ⟨fun c hc => ?_, by simp [Chore.Spares]⟩
    obtain ⟨r, hr, rfl⟩ := List.mem_map.1 hc
    exact h.queued r hr
  exact ((Spared.keeps howns).cycle hplan hn hstart w).holds

/-- A step that is no cycle leaves a pending entry pending. -/
theorem pending_of_not_cycle (hn : s.1.Sound []) (ht : t.Encodable) (hcycle : t ≠ .cycle)
    (h : s.1.view.Pending e) : (plan.step s t).1.view.Pending e := by
  cases t with
  | call c => exact (hn.take (Call.Encodable.readable ht)).2.pending h
  | cycle => exact absurd rfl hcycle
  | setPath path => exact h
  | handOff =>
    obtain ⟨k, n', hrun, hy⟩ := hn.redistribute
    rw [Plan.step, hrun, hy.view_eq]
    simp only [View.redistribute]
    split
    · exact h
    · exact h.mono (Multiset.subset_cons _ _) (List.Subset.refl _)

/-- No step changes whether the peer is a super peer. -/
theorem isSuperPeer_step (hplan : plan.Encodable) (hn : s.1.Sound []) (ht : t.Encodable) :
    (plan.step s t).1.peer.isSuperPeer = s.1.peer.isSuperPeer := by
  let I : List Chore → View → List Note → Prop :=
    fun _ v _ => v.peer.isSuperPeer = s.1.peer.isSuperPeer
  have hI : Keeps Call.Encodable I :=
    ⟨fun _ => id, fun _ _ _ _ _ _ hd h => (congrArg _ hd.peer_eq).trans h, fun _ _ _ _ h => h,
      fun _ _ _ _ _ _ ht h => (congrArg _ ht.peer_eq).trans h⟩
  have hstart : Starts I := fun _ _ _ _ h => h
  have hmeets : Meets (Keeps.beside I) [] s := ⟨hn, rfl⟩
  cases t with
  | call c => exact (hI.step hstart hplan hmeets (t := .call c) ht trivial).holds
  | cycle => exact (hI.step hstart hplan hmeets (t := .cycle) ht trivial).holds
  | setPath path => rfl
  | handOff =>
    obtain ⟨k, n', hrun, hy⟩ := hn.redistribute
    have hpeer : n'.peer = s.1.view.redistribute.peer := congrArg View.peer hy.view_eq
    rw [Plan.step, hrun, hpeer]
    simp only [View.redistribute]
    split <;> rfl

theorem isSuperPeer_run (hplan : plan.Encodable) (hn : s.1.Sound []) {steps : List Step}
    (hsteps : ∀ t ∈ steps, t.Encodable) :
    (plan.run steps s).1.peer.isSuperPeer = s.1.peer.isSuperPeer := by
  induction steps generalizing s with
  | nil => rfl
  | cons t steps ih =>
    obtain ⟨ht, hsteps⟩ := List.forall_mem_cons.1 hsteps
    exact (ih (Plan.sound_step hplan hn ht) hsteps).trans (isSuperPeer_step hplan hn ht)

/-- **Exactly when a pending entry gets lost.**  In a run of a super peer whose path changes at any
time, an entry to insert that is nowhere but pending vanishes in the next step exactly if that step
is a cycle, the path owns the key of the entry by then, and the cycle takes the entry from its
place.  In all other cases it stays pending, or travels in a message that is tracked. -/
theorem pending_vanishes_iff (hn : n.Sound []) (hs : n.peer.isSuperPeer = true)
    (hplan : plan.Encodable) {steps : List Step} (hsteps : ∀ t ∈ steps, t.Encodable) (w : ω)
    (he : Bulk.Line.isEncodable e = true) :
    let s := plan.run steps (n, [], w)
    s.1.view.OnlyPending e → plan.Makes (¬·.Names e.id) → ∀ t : Step, t.Encodable →
      let s' := plan.step (s.1, [], s.2.2) t
      Vanished e s'.1.view s'.2.1 ↔
        t = .cycle ∧ s.1.peer.path.owns e.key = true ∧
          e ∉ s'.1.view.list (.outbound .insert) := by
  intro s honly hnames t ht s'
  have hsound : s.1.Sound [] := Plan.sound_run hplan hn hsteps
  have hsuper : s.1.peer.isSuperPeer = true := (isSuperPeer_run hplan hn hsteps).trans hs
  constructor
  · intro hvanished
    have hcycle : t = .cycle := by
      by_contra hc
      exact hvanished.pending (pending_of_not_cycle hsound ht hc honly.pending)
    subst hcycle
    refine ⟨rfl, ?_, fun hout => hvanished.pending (Or.inr hout)⟩
    -- what the path does not own is still waiting after the cycle, or was sent
    by_contra howns
    rcases kept_of_cycle hsound hplan he hsuper (Bool.eq_false_iff.2 howns) honly.pending s.2.2 with
      hpending | htracked
    · exact hvanished.pending hpending
    · exact hvanished.tracked htracked
  · rintro ⟨rfl, howns, hout⟩
    have hspared := spared_of_cycle hsound (fun d n w c hc => ⟨hplan d n w c hc, hnames d n w c hc⟩)
      hsuper howns honly s.2.2
    refine ⟨?_, hspared.tracked, hspared.inbound, hspared.rows⟩
    rintro (⟨r, hr, -, -, he⟩ | he)
    · exact hspared.queued r hr e he rfl
    · exact hout he

/-- With a router that makes no calls, a cycle puts nothing into an outbound list. -/
theorem not_mem_outbound_of_cycle (hn : n.Sound []) (hquiet : plan.Makes fun _ => False)
    (h : e ∉ n.view.list (.outbound .insert)) (w : ω) :
    e ∉ (plan.step (n, [], w) .cycle).1.view.list (.outbound .insert) := by
  let I : List Chore → View → List Note → Prop := fun _ v _ => e ∉ v.list (.outbound .insert)
  have hI : Keeps (fun _ => False) I := by
    refine ⟨fun _ => False.elim, fun c cs cs' v v' log hd hv => ?_, fun _ _ _ _ hv => hv,
      fun _ _ _ _ _ hc => hc.elim⟩
    rcases hd.outbound_cases .insert with hsame | hempty
    · simpa only [I, hsame] using hv
    · simp only [I, hempty, List.not_mem_nil, not_false_eq_true]
  have hstart : Starts I := fun _ _ _ _ hv => hv
  have hmeets : Meets (Keeps.beside I) [] (n, ([] : List Note), w) := ⟨hn, h⟩
  exact (hI.step hstart hquiet hmeets (t := .cycle) trivial trivial).holds

/-- An entry that was submitted to be inserted elsewhere gets lost when the path comes to own it. -/
theorem pending_vanishes_of_setPath :
    let quiet : Plan Unit := fun _ _ w => ([], w)
    let e := Sample.entry "a" ⟨[false]⟩
    let insert : Submission := ⟨.insert, ⟨some [e], none, none⟩, false, none⟩
    ∃ n, Node.openAt (Sample.peer ⟨[true]⟩) (.ofBits 8) 0 .root .empty = .ok n ∧
      let s := quiet.run [.call (.submit insert), .setPath ⟨[false]⟩] (n, [], ())
      s.1.view.OnlyPending e ∧
        let s' := quiet.step (s.1, [], s.2.2) .cycle
        Vanished e s'.1.view s'.2.1 := by
  intro quiet e insert
  obtain ⟨n, hopen, hsound, hidle, hpeer, -, hrows⟩ := openAt_sound rfl Volume.vacant_empty
    (Sample.peer ⟨[true]⟩) (.ofBits 8) 0
  have hinsert : insert.Encodable := ⟨[e], rfl, by decide⟩
  have hquiet : ∀ ok, quiet.Makes ok := fun ok d n w c hc => absurd hc List.not_mem_nil
  have hsteps : ∀ t ∈ [Step.call (.submit insert), .setPath ⟨[false]⟩], t.Encodable := by
    simpa [Step.Encodable, Step.Makes, Call.Encodable] using hinsert
  have hentries : insert.entries? = some [e] := rfl
  obtain ⟨b, n', message, hrun, hy⟩ := hsound.submitTo hentries
  have hs : (quiet.run [.call (.submit insert), .setPath ⟨[false]⟩] (n, [], ())).1 =
      n'.setPath ⟨[false]⟩ := by
    change (Command.submitTo insert n).2.setPath _ = _
    rw [hrun]
  have hqueued : n'.view.queued = {⟨.insert, .here, [e], false⟩} := by
    rw [hy.view_eq, View.queue, hidle.queued]
    rfl
  have honly : (n'.setPath ⟨[false]⟩).view.OnlyPending e := by
    have hlists : ∀ b, n'.view.list b = [] := fun b => by
      rw [hy.view_eq]
      exact hidle.list b
    have hflying : n'.view.flying = 0 := by
      rw [hy.view_eq]
      exact hidle.flying
    have hstored : n'.view.rows.keyAt? e.id = none := by
      rw [hy.view_eq, View.queue, hrows]
      rfl
    refine ⟨Or.inl ⟨⟨.insert, .here, [e], false⟩, ?_, rfl, rfl, List.mem_singleton_self e⟩,
      fun r hr => Or.inl ?_, fun m hm => ?_, fun x hx => ?_, hstored⟩
    · change _ ∈ n'.view.queued
      simp [hqueued]
    · change r ∈ n'.view.queued at hr
      rw [hqueued, Multiset.mem_singleton] at hr
      rw [hr]
    · change m ∈ n'.view.flying at hm
      simp [hflying] at hm
    · change x ∈ n'.view.list .inbound at hx
      simp [hlists] at hx
  have hout : e ∉ (n'.setPath ⟨[false]⟩).view.list (.outbound .insert) := by
    change e ∉ n'.view.list (.outbound .insert)
    rw [hy.view_eq]
    exact (hidle.list _).symm ▸ List.not_mem_nil
  refine ⟨n, hopen, hs ▸ honly, ?_⟩
  refine (pending_vanishes_iff hsound ?_ (hquiet _) hsteps () (by decide) (hs ▸ honly) (hquiet _)
    .cycle trivial).2 ⟨rfl, ?_, ?_⟩
  · rw [hpeer]
    rfl
  · rw [hs]
    rfl
  · refine not_mem_outbound_of_cycle (Plan.sound_run (hquiet _) hsound hsteps) (hquiet _) ?_ _
    rw [hs]
    exact hout

end Node

end TrieOverlay
