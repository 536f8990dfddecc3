import TrieOverlay.Proofs.Mesh.Guard

/-!
# What may happen to a node among others

`View.Shifts` lists what may happen to a node: a chore is done, a message takes off, a cycle begins,
a request comes, an outcome is reported, entries are handed off, or the application changes the
store.  All of it keeps an entry guarded (`View.Shifts.guards`), and what is handed off is guarded
(`View.guards_redistribute`, `View.guards_change_update`).
-/

namespace TrieOverlay.View

/-- What may happen to a node, and the change that is made here.  `fresh` are the messages that
nobody has seen, `taken` are those that somebody took. -/
inductive Shifts (fresh taken : Carried → Prop) :
    Option (Operation × List Entry) → List Chore → View → List Chore → View → Prop
  | stay {cs : List Chore} {w : View} : Shifts fresh taken none cs w cs w
  | does {c : Chore} {cs cs' : List Chore} {w w' : View} : w.Does c cs' w' →
      Shifts fresh taken c.change? (c :: cs) w (cs' ++ cs) w'
  | fly {m : Carried} {cs : List Chore} {w : View} : fresh m →
      Shifts fresh taken none (.send m.operation m.entries :: cs) w cs (w.fly m)
  | begin {rs : List Errand} {w : View} : w.queued = (rs : Multiset Errand) →
      Shifts fresh taken none [] w (rs.map .serve ++ [.retry, .merge]) { w with queued := 0 }
  | queue {r : Errand} {cs : List Chore} {w : View} : Shifts fresh taken none cs w cs (w.queue r)
  | settle {m : Carried} {rest : Multiset Carried} {delivered : Bool} {cs : List Chore} {w : View} :
      w.flying = m ::ₘ rest → (delivered = true → taken m) →
      Shifts fresh taken none cs w cs
        (View.settle { w with flying := rest } m.operation m.entries delivered)
  | redistribute {cs : List Chore} {w : View} : Shifts fresh taken none cs w cs w.redistribute
  | change {o : Operation} {es : List Entry} {propagate : Bool} {cs : List Chore} {w : View} :
      Shifts fresh taken (some (o, es)) cs w cs (w.change es propagate o)

variable {fresh taken : Carried → Prop} {made : Option (Operation × List Entry)}
  {cs cs' : List Chore} {w w' : View} {id : EntryId} {key : Key} {es : List Entry} {o : Operation}
  {propagate : Bool}

/-! ### What stays -/

/-- Nothing that happens changes the peer or the keys of payloads. -/
theorem Shifts.peer_keys_eq (h : Shifts fresh taken made cs w cs' w') :
    w'.peer = w.peer ∧ w'.keys = w.keys := by
  cases h with
  | does hd => exact ⟨hd.peer_eq, hd.keys_eq⟩
  | @settle m rest delivered cs w _ _ => cases delivered <;> exact ⟨rfl, rfl⟩
  | redistribute => exact ⟨(sameBut_redistribute w).peer, (sameBut_redistribute w).keys⟩
  | change => exact ⟨(sameBut_change w _ _ _).peer, (sameBut_change w _ _ _).keys⟩
  | _ => exact ⟨rfl, rfl⟩

/-- Only a message that nobody has seen comes to those in flight. -/
theorem Shifts.mem_flying (h : Shifts fresh taken made cs w cs' w') {m : Carried}
    (hm : m ∈ w'.flying) : m ∈ w.flying ∨ fresh m := by
  cases h with
  | does hd => exact Or.inl (hd.flying_eq ▸ hm)
  | fly hfresh =>
    rcases Multiset.mem_cons.1 hm with rfl | hm
    · exact Or.inr hfresh
    · exact Or.inl hm
  | @settle m' rest delivered cs w hflying _ =>
    left
    rw [hflying]
    cases delivered <;> exact Multiset.mem_cons_of_mem hm
  | redistribute => exact Or.inl ((sameBut_redistribute w).flying ▸ hm)
  | change => exact Or.inl ((sameBut_change w _ _ _).flying ▸ hm)
  | _ => exact Or.inl hm

/-- Chores that come of a chore apply entries for the peer where it is. -/
theorem Does.isFor {c : Chore} (hd : w.Does c cs' w') : ∀ c' ∈ cs', c'.IsFor w.peer.path := by
  cases hd with
  | @split r w parts rest _ _ _ hrest =>
    intro c' hc
    rcases List.mem_append.1 hc with hc | hc
    · obtain ⟨es, -, rfl⟩ := List.mem_map.1 hc
      trivial
    · rcases hrest with rfl | rfl
      · exact absurd hc List.not_mem_nil
      · rw [List.mem_singleton.1 hc]
        trivial
  | @splitOther r w message parent parts rest _ _ hrest =>
    intro c' hc
    rcases List.mem_append.1 hc with hc | hc
    · obtain ⟨es, -, rfl⟩ := List.mem_map.1 hc
      trivial
    · rcases hrest with ⟨rfl, -⟩ | rfl
      · exact absurd hc List.not_mem_nil
      · rw [List.mem_singleton.1 hc]
        exact rfl
  | _ => simp [Chore.IsFor, Operation.all]

theorem Shifts.isFor (h : Shifts fresh taken made cs w cs' w')
    (hcs : ∀ c ∈ cs, c.IsFor w.peer.path) : ∀ c ∈ cs', c.IsFor w'.peer.path := by
  rw [h.peer_keys_eq.1]
  cases h with
  | does hd =>
    intro c' hc
    rcases List.mem_append.1 hc with hc | hc
    · exact hd.isFor c' hc
    · exact hcs c' (List.mem_cons_of_mem _ hc)
  | fly _ => exact fun c hc => hcs c (List.mem_cons_of_mem _ hc)
  | begin _ =>
    intro c hc
    rcases List.mem_append.1 hc with hc | hc
    · obtain ⟨r, -, rfl⟩ := List.mem_map.1 hc
      trivial
    · rcases List.mem_cons.1 hc with rfl | hc
      · trivial
      · rw [List.mem_singleton.1 hc]
        trivial
  | _ => exact hcs

theorem linked_apply {path : Key} (h : w.rows.Linked) : (w.apply path o es).rows.Linked := by
  cases o with
  | insert => exact h
  | update =>
    have hrows := (h.foldl_upsert (w.staying path es)).deleteAll ((w.leaving path es).map (·.id))
    simp only [View.apply]
    split <;> exact hrows
  | delete => exact h.deleteAll _

theorem linked_change (h : w.rows.Linked) : (w.change es propagate o).rows.Linked := by
  by_cases hnil : es = []
  · cases o <;> simp only [View.change, View.insert, View.update, View.delete, if_pos hnil] <;>
      exact h
  · cases o <;> simp only [View.change, View.insert, View.update, View.delete, if_neg hnil]
    · cases propagate <;> exact h.deleteAll _
    · cases propagate <;> exact h.foldl_upsert _
    · exact linked_apply h

/-- The rows of the store stay linked. -/
theorem Shifts.linked (h : Shifts fresh taken made cs w cs' w') (hw : w.rows.Linked) :
    w'.rows.Linked := by
  cases h with
  | does hd =>
    cases hd with
    | apply => exact linked_apply hw
    | merge => exact hw.foldl_upsert _
    | _ => exact hw
  | @settle m rest delivered cs w _ _ => cases delivered <;> exact hw
  | redistribute =>
    simp only [View.redistribute]
    split
    · exact hw
    · exact hw.deleteAll _
  | change => exact linked_change hw
  | _ => exact hw

/-! ### What is guarded stays guarded -/

/-- Everything that may guard an entry to insert has gone on to something that may. -/
structure Follows (id : EntryId) (key : Key) (taken : Carried → Prop) (cs : List Chore) (w : View)
    (cs' : List Chore) (w' : View) : Prop where
  peer : w'.peer = w.peer
  queued : ∀ r ∈ w.queued, r ∈ w'.queued ∨ .serve r ∈ cs'
  chores : ∀ c ∈ cs, c ∈ cs' ∨ ∃ m ∈ w'.flying, c = .send m.operation m.entries ∧ ¬taken m
  flying : ∀ m ∈ w.flying, ¬taken m → m ∈ w'.flying ∨
    (m.entries.filter fun e => Bulk.Line.isEncodable e) ⊆ w'.list (.outbound m.operation)
  outbound : ∀ o, w.list (.outbound o) ⊆ w'.list (.outbound o)
  stores : w.Stores id key → w.peer.path.owns key = true → w'.Stores id key

theorem Guards.follow (h : w.Guards id key taken cs)
    (hf : Follows id key taken cs w cs' w') : w'.Guards id key taken cs' := by
  cases h with
  | queued hr hb =>
    rcases hf.queued _ hr with hr | hr
    · exact .queued hr (hb.congr hf.peer)
    · exact .serving hr (hb.congr hf.peer)
  | serving hr hb =>
    rcases hf.chores _ hr with hr | ⟨m, -, hm, -⟩
    · exact .serving hr (hb.congr hf.peer)
    · cases hm
  | @sending es hes hb hpasses =>
    rcases hf.chores _ hes with hes | ⟨m, hm, hsend, htaken⟩
    · exact .sending hes hb (hpasses.congr hf.peer)
    · obtain ⟨ho, rfl⟩ := Chore.send.inj hsend
      exact .flying hm ho.symm hb htaken (hpasses.congr hf.peer)
  | @applying es hes hb ho =>
    rcases hf.chores _ hes with hes | ⟨m, -, hm, -⟩
    · rw [← hf.peer] at hes ho
      exact .applying hes hb ho
    · cases hm
  | @flying m hm ho hb htaken hpasses =>
    rcases hf.flying m hm htaken with hm | hsub
    · exact .flying hm ho hb htaken (hpasses.congr hf.peer)
    · rw [ho] at hsub
      exact .outbound (hb.filter_isEncodable.mono hsub) (hpasses.congr hf.peer)
  | outbound hb hpasses => exact .outbound (hb.mono (hf.outbound _)) (hpasses.congr hf.peer)
  | stored hstores ho => exact .stored (hf.stores hstores ho) (hf.peer ▸ ho)

theorem SameBut.follows (h : w.SameBut w')
    (hstores : w.Stores id key → w.peer.path.owns key = true → w'.Stores id key) :
    Follows id key taken cs w cs w' := by
  refine ⟨h.peer, fun r hr => Or.inl (h.queued hr), fun c hc => Or.inl hc, fun m hm _ => ?_,
    fun o => ?_, hstores⟩
  · rw [h.flying]
    exact Or.inl hm
  · rw [h.list]
    exact List.Subset.refl _

theorem follows_fly {m : Carried} (hm : ¬taken m) :
    Follows id key taken (.send m.operation m.entries :: cs) w cs (w.fly m) := by
  refine ⟨rfl, fun r hr => Or.inl hr, fun c hc => ?_, fun m' hm' _ => ?_,
    fun o => List.Subset.refl _, fun h _ => h⟩
  · rcases List.mem_cons.1 hc with rfl | hc
    · exact Or.inr ⟨m, Multiset.mem_cons_self m w.flying, rfl, hm⟩
    · exact Or.inl hc
  · exact Or.inl (Multiset.mem_cons_of_mem hm')

theorem follows_begin {rs : List Errand} (h : w.queued = (rs : Multiset Errand)) :
    Follows id key taken [] w (rs.map .serve ++ [.retry, .merge]) { w with queued := 0 } := by
  refine ⟨rfl, fun r hr => Or.inr ?_, fun c hc => absurd hc List.not_mem_nil,
    fun m hm _ => Or.inl hm, fun o => List.Subset.refl _, fun h _ => h⟩
  rw [h] at hr
  exact List.mem_append_left _ (List.mem_map_of_mem (Multiset.mem_coe.1 hr))

theorem follows_settle {m : Carried} {rest : Multiset Carried} {delivered : Bool}
    (hm : w.flying = m ::ₘ rest) (ht : delivered = true → taken m) :
    Follows id key taken cs w cs
      (View.settle { w with flying := rest } m.operation m.entries delivered) := by
  have hrest : ∀ m' ∈ w.flying, m' = m ∨ m' ∈ rest := fun m' hm' =>
    Multiset.mem_cons.1 (hm ▸ hm')
  cases delivered with
  | true =>
    refine ⟨rfl, fun r hr => Or.inl hr, fun c hc => Or.inl hc, fun m' hm' htaken => Or.inl ?_,
      fun o => List.Subset.refl _, fun h _ => h⟩
    rcases hrest m' hm' with rfl | hm'
    -- a message that was taken guards nothing here any more
    · exact absurd (ht rfl) htaken
    · exact hm'
  | false =>
    refine ⟨rfl, fun r hr => Or.inl hr, fun c hc => Or.inl hc, fun m' hm' _ => ?_, fun o => ?_,
      fun h _ => ?_⟩
    · rcases hrest m' hm' with rfl | hm'
      · right
        change _ ⊆ (View.append _ _ _).list _
        rw [View.append, list_setList, if_pos rfl]
        exact List.subset_append_right ..
      · exact Or.inl hm'
    · change _ ⊆ (View.append _ _ _).list _
      rw [View.append, list_setList]
      split
      · rename_i ho
        rw [ho]
        exact List.subset_append_left ..
      · exact List.Subset.refl _
    · change (View.append _ _ _).Stores id key
      rw [Stores, View.append, list_setList, if_neg (by simp)]
      exact h

/-! ### Changes of the store -/

theorem Stores.redistribute (h : w.Stores id key) (hw : w.rows.Linked)
    (ho : w.peer.path.owns key = true) : w.redistribute.Stores id key := by
  simp only [View.redistribute]
  split
  · exact h
  · have hrows : w.rows.keyAt? id = some key →
        (w.rows.deleteAll ((w.rows.foreignTo w.peer.path).map (·.id))).2.keyAt? id = some key := by
      intro hkey
      rw [Store.Rows.keyAt?_deleteAll, if_neg]
      · exact hkey
      · intro hmem
        obtain ⟨e, he, rfl⟩ := List.mem_map.1 hmem
        -- rows are linked: a foreign entry is one whose stored key is foreign
        obtain ⟨hstored, hforeign⟩ := hw.keyAt?_of_mem_foreignTo he
        obtain rfl : e.key = key := Option.some.inj (hstored.symm.trans hkey)
        rw [owns_eq_isCompatibleWith, hforeign] at ho
        exact absurd ho (by decide)
    exact h.setRows hrows

theorem id_underStoredKey (w : View) (e : Entry) : (w.underStoredKey e).id = e.id := by
  rw [underStoredKey]
  split <;> rfl

theorem rekey_underStoredKey (keys : KeyScheme) (w : View) (e : Entry) :
    Holdings.rekey keys (w.underStoredKey e) = Holdings.rekey keys e := by
  rw [underStoredKey]
  split <;> rfl

theorem Stores.change (h : w.Stores id key) (ho : w.peer.path.owns key = true)
    (ha : o.Agrees w.keys id key es) : (w.change es propagate o).Stores id key := by
  by_cases hnil : es = []
  · cases o <;> simp only [View.change, View.insert, View.update, View.delete, if_pos hnil] <;>
      exact h
  · cases o <;> simp only [View.change, View.insert, View.update, View.delete, if_neg hnil]
    · have hdeleted : (w.apply w.peer.path .delete es).Stores id key := h.apply ho ha
      cases propagate <;> exact hdeleted
    · have hinserted : (w.setRows (es.foldl .upsert w.rows)).Stores id key :=
        h.setRows fun hkey => Store.Rows.keyAt?_foldl_upsert ha (Or.inl hkey)
      cases propagate <;> exact hinserted
    · refine h.apply ho fun e he hid => ?_
      obtain ⟨he, -⟩ := List.mem_filter.1 he
      obtain ⟨e', he', rfl⟩ := List.mem_map.1 he
      rw [rekey_underStoredKey]
      exact ha e' he' ((id_underStoredKey w e').symm.trans hid)

/-- **Whatever happens to a node keeps an entry guarded.** -/
theorem Shifts.guards (h : Shifts fresh taken made cs w cs' w')
    (hg : w.Guards id key taken cs) (hcs : ∀ c ∈ cs, c.IsFor w.peer.path) (hw : w.rows.Linked)
    (hfresh : ∀ m, fresh m → ¬taken m)
    (ha : ∀ o es, made = some (o, es) → o.Agrees w.keys id key es) :
    w'.Guards id key taken cs' := by
  cases h with
  | stay => exact hg
  | does hd => exact hg.does hd ha (hcs _ (List.mem_cons_self ..))
  | fly hm => exact hg.follow (follows_fly (hfresh _ hm))
  | begin hq => exact hg.follow (follows_begin hq)
  | queue => exact hg.follow ((sameBut_queue w _).follows fun h _ => h)
  | settle hm ht => exact hg.follow (follows_settle hm ht)
  | redistribute =>
    exact hg.follow ((sameBut_redistribute w).follows fun h ho => h.redistribute hw ho)
  | change =>
    exact hg.follow ((sameBut_change w _ _ _).follows fun h ho => h.change ho (ha _ _ rfl))

/-! ### What is handed off is guarded -/

/-- The entries that a path does not own are guarded when they are handed off. -/
theorem guards_redistribute (hw : w.rows.Linked)
    (hb : Bears (w.rows.foreignTo w.peer.path) id key) :
    w.redistribute.Guards id key taken cs := by
  have hne : w.rows.foreignTo w.peer.path ≠ [] := by
    obtain ⟨e, he, -⟩ := hb
    exact List.ne_nil_of_mem he
  have hpasses : w.PassesOn key := by
    obtain ⟨e, he, -, rfl, -⟩ := hb
    intro _
    rw [owns_eq_isCompatibleWith]
    exact (hw.keyAt?_of_mem_foreignTo he).2
  simp only [View.redistribute, if_neg hne]
  exact .queued (Multiset.mem_cons_self _ w.queued)
    ⟨rfl, hb.filter_isEncodable, Or.inl ⟨rfl, hpasses⟩⟩

/-- The entries that an update moves away are guarded. -/
theorem guards_apply_update (hb : Bears (w.moved w.peer.path es) id key) :
    (w.apply w.peer.path .update es).Guards id key taken cs := by
  have hne : w.moved w.peer.path es ≠ [] := by
    obtain ⟨e, he, -⟩ := hb
    exact List.ne_nil_of_mem he
  have hpasses : w.PassesOn key := by
    obtain ⟨e, he, -, rfl, -⟩ := hb
    obtain ⟨e', he', rfl⟩ := List.mem_map.1 he
    intro _
    simpa using (List.mem_filter.1 he').2
  simp only [View.apply, if_neg hne]
  exact .queued (Multiset.mem_cons_self _ w.queued) ⟨rfl, hb, Or.inl ⟨rfl, hpasses⟩⟩

/-- The entries that an update of the application moves away are guarded. -/
theorem guards_change_update (hb : Bears (w.moved w.peer.path (w.updatedHere es)) id key) :
    (w.change es propagate .update).Guards id key taken cs := by
  have hne : es ≠ [] := by
    rintro rfl
    obtain ⟨e, he, -⟩ := hb
    exact absurd he List.not_mem_nil
  have hqueue : Follows id key taken cs _ cs _ :=
    (sameBut_queue (w.apply w.peer.path .update (w.updatedHere es))
      ⟨.update, .here, es.map w.underStoredKey, false⟩).follows fun h _ => h
  simp only [View.change, View.update, if_neg hne]
  exact (guards_apply_update hb).follow hqueue

end TrieOverlay.View
